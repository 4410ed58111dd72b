import RetroRocket.BlockIf

/-!
# Programs of nested IF blocks

The programs that are built of lines and of nested blocks, with what each of them should do, against
the interpreter on their tokens. They agree as long as no branch that is skipped hides a keyword of
a block from its search: the search of `else_statement` does not count the blocks in its branch, and
a line cannot go on with an `ELSE` behind a branch that has been taken.
-/

namespace RetroRocket

variable {σ : Type} {I : Interpreter σ}

/-! ## The programs -/

structure LineNumber where
  lexeme : Lexeme
  number : lexeme.token = .number
  pos : atoll lexeme.text 10 ≠ 0

/-- A condition is what `up_conditional` reads before a `THEN`. -/
structure Condition (I : Interpreter σ) where
  tokens : List Lexeme
  eval : σ → Bool × σ
  inLine : ∀ l ∈ tokens, l.token ≠ .keyword "THEN" ∧ l.token ≠ .newline
  reads : ∀ env rest, rest.head?.map Lexeme.token = some (.keyword "THEN") →
    I.conditional env (tokens ++ rest) = ((eval env).1, (eval env).2, rest)

/-- A statement that starts with another keyword than those of an `IF` and goes on to the end of its
line. -/
structure Simple (I : Interpreter σ) where
  first : Lexeme
  others : List Lexeme
  effect : σ → σ
  start : first.token ≠ .keyword "IF" ∧ first.token ≠ .keyword "ELSE" ∧
    first.token ≠ .keyword "ENDIF"
  inLine : ∀ l ∈ first :: others, l.token ≠ .newline
  reads : ∀ env rest, rest.head?.map Lexeme.token = some .newline →
    I.handler env (first :: others ++ rest) = (effect env, rest)

def Simple.tokens (s : Simple I) : List Lexeme := s.first :: s.others

/-- A line, without its number. An `ELSE` belongs to the last `IF` before it. -/
inductive Line (I : Interpreter σ) where
  | statement (s : Simple I)
  | ifThen (c : Condition I) (body : Line I)
  | ifElse (c : Condition I) (s : Simple I) (other : Line I)

inductive Prog (I : Interpreter σ) where
  | nil
  | line (n : LineNumber) (l : Line I) (rest : Prog I)
  | block (n : LineNumber) (c : Condition I) (body : Prog I) (n' : LineNumber) (rest : Prog I)
  | blockElse (n : LineNumber) (c : Condition I) (body : Prog I) (n' : LineNumber) (other : Prog I)
      (n'' : LineNumber) (rest : Prog I)

def newline : Lexeme := ⟨.newline, ['\n']⟩

namespace Line

def tokens : Line I → List Lexeme
  | statement s => s.tokens
  | ifThen c body => .keyword "IF" :: (c.tokens ++ .keyword "THEN" :: body.tokens)
  | ifElse c s other =>
    .keyword "IF" :: (c.tokens ++ .keyword "THEN" :: (s.tokens ++ .keyword "ELSE" :: other.tokens))

def exec : Line I → σ → σ
  | statement s, env => s.effect env
  | ifThen c body, env =>
    let (r, env) := c.eval env
    if r then body.exec env else env
  | ifElse c s other, env =>
    let (r, env) := c.eval env
    if r then s.effect env else other.exec env

/-- No statement of the line has a keyword of an `IF` in it, such as a word of a comment. -/
def Skippable : Line I → Prop
  | statement s => ∀ l ∈ s.tokens, l.token ≠ .keyword "IF" ∧ l.token ≠ .keyword "ELSE" ∧
      l.token ≠ .keyword "ENDIF"
  | ifThen _ body => body.Skippable
  | ifElse _ s other => (∀ l ∈ s.tokens, l.token ≠ .keyword "IF" ∧ l.token ≠ .keyword "ELSE" ∧
      l.token ≠ .keyword "ENDIF") ∧ other.Skippable

/-- A branch with an `ELSE` behind it is not taken, and a branch that is not taken has no `ELSE` in
it. -/
def Clean : Line I → σ → Prop
  | statement _, _ => True
  | ifThen c body, env =>
    if (c.eval env).1 then body.Clean (c.eval env).2
    else ∀ l ∈ body.tokens, l.token ≠ .keyword "ELSE"
  | ifElse c s other, env =>
    (c.eval env).1 = false ∧ (∀ l ∈ s.tokens, l.token ≠ .keyword "ELSE") ∧
      other.Clean (c.eval env).2

end Line

namespace Prog

def tokens : Prog I → List Lexeme
  | nil => []
  | line n l rest => n.lexeme :: (l.tokens ++ newline :: rest.tokens)
  | block n c body n' rest =>
    n.lexeme :: .keyword "IF" :: (c.tokens ++ .keyword "THEN" :: newline :: (body.tokens ++
      n'.lexeme :: .keyword "ENDIF" :: newline :: rest.tokens))
  | blockElse n c body n' other n'' rest =>
    n.lexeme :: .keyword "IF" :: (c.tokens ++ .keyword "THEN" :: newline :: (body.tokens ++
      n'.lexeme :: .keyword "ELSE" :: newline :: (other.tokens ++
        n''.lexeme :: .keyword "ENDIF" :: newline :: rest.tokens)))

/-- What a program should do: of each block the branch that its condition selects, and then what
follows its `ENDIF`. -/
def exec : Prog I → σ → σ
  | nil, env => env
  | line _ l rest, env => rest.exec (l.exec env)
  | block _ c body _ rest, env =>
    let (r, env) := c.eval env
    rest.exec (if r then body.exec env else env)
  | blockElse _ c body _ other _ rest, env =>
    let (r, env) := c.eval env
    rest.exec (if r then body.exec env else other.exec env)

def Skippable : Prog I → Prop
  | nil => True
  | line _ l rest => l.Skippable ∧ rest.Skippable
  | block _ _ body _ rest => body.Skippable ∧ rest.Skippable
  | blockElse _ _ body _ other _ rest => body.Skippable ∧ other.Skippable ∧ rest.Skippable

/-- Where a block is reached, the branch that is skipped can be skipped: behind a branch that has
been taken the other one has no `ENDIF` in it, and a first branch that is not taken has no keyword
of an `IF` within a statement. -/
def Clean : Prog I → σ → Prop
  | nil, _ => True
  | line _ l rest, env => l.Clean env ∧ rest.Clean (l.exec env)
  | block _ c body _ rest, env =>
    if (c.eval env).1 then body.Clean (c.eval env).2 ∧ rest.Clean (body.exec (c.eval env).2)
    else body.Skippable ∧ rest.Clean (c.eval env).2
  | blockElse _ c body _ other _ rest, env =>
    if (c.eval env).1 then
      body.Clean (c.eval env).2 ∧ (∀ l ∈ other.tokens, l.token ≠ .keyword "ENDIF") ∧
        rest.Clean (body.exec (c.eval env).2)
    else body.Skippable ∧ other.Clean (c.eval env).2 ∧ rest.Clean (other.exec (c.eval env).2)

end Prog

namespace Machine

variable {m : Machine σ} {l : Lexeme} {rest : List Lexeme} {fuel fuel' depth : ℕ}

theorem seekThen_length (rest : List Lexeme) : (seekThen rest).1.length ≤ rest.length := by
  induction rest with
  | nil => exact Nat.le_refl _
  | cons l rest ih =>
    unfold seekThen
    split
    · exact Nat.le_succ _
    · split
      · exact Nat.le_refl _
      · exact Nat.le_succ_of_le ih

theorem skipFalse_fuel (hfuel : m.rest.length < fuel) (hfuel' : m.rest.length < fuel') :
    skipFalse fuel depth m = skipFalse fuel' depth m := by
  induction fuel generalizing fuel' depth m with
  | zero => exact absurd hfuel (Nat.not_lt_zero _)
  | succ fuel ih =>
    cases fuel' with
    | zero => exact absurd hfuel' (Nat.not_lt_zero _)
    | succ fuel' =>
      unfold skipFalse
      by_cases hfinished : m.finished = true
      · rw [if_pos hfinished, if_pos hfinished]
      have hpos : 0 < m.rest.length := by
        unfold finished at hfinished
        rw [List.isEmpty_iff] at hfinished
        exact List.length_pos_of_ne_nil hfinished
      have htail : m.rest.tail.length < m.rest.length := by
        rw [List.length_tail]
        omega
      have hnext : ∀ d, skipFalse fuel d m.next = skipFalse fuel' d m.next := by
        intro d
        apply ih <;> change m.rest.tail.length < _ <;> omega
      rw [if_neg hfinished, if_neg hfinished]
      have hseek := seekThen_length m.rest.tail
      by_cases hif : m.token = .keyword "IF"
      · rw [if_pos hif, if_pos hif]
        apply ih <;> change (seekThen m.rest.tail).1.length < _ <;> omega
      · rw [if_neg hif, if_neg hif, hnext, hnext]

/-- `skipFalse` with fuel enough. -/
def skip (depth : ℕ) (m : Machine σ) : Machine σ := skipFalse (m.rest.length + 1) depth m

def seek (m : Machine σ) (rest : List Lexeme) : Machine σ := { m with rest := rest }

@[simp] theorem seek_token : (m.seek (l :: rest)).token = l.token := rfl

@[simp] theorem seek_next : (m.seek (l :: rest)).next = m.seek rest := rfl

@[simp] theorem seek_finished : (m.seek (l :: rest)).finished = false := rfl

theorem acceptOrReturn_eq {token : Token} (h : l.token = token) (k : Machine σ → Machine σ) :
    (m.seek (l :: rest)).acceptOrReturn token k = k (m.seek rest) := if_pos h

@[simp] theorem keyword_token (word : String) : (Lexeme.keyword word).token = .keyword word := rfl

theorem skip_other (hif : l.token ≠ .keyword "IF") (helse : l.token ≠ .keyword "ELSE")
    (hendif : l.token ≠ .keyword "ENDIF") :
    skip depth (m.seek (l :: rest)) = skip depth (m.seek rest) := by
  unfold skip
  rw [skipFalse, seek_finished, if_neg (by decide), seek_token, if_neg hif, if_neg helse,
    if_neg hendif]
  rfl

theorem skip_if : skip depth (m.seek (.keyword "IF" :: rest)) =
    skip (if (seekThen rest).2 then depth + 1 else depth) (m.seek (seekThen rest).1) := by
  have hseek := seekThen_length rest
  unfold skip
  rw [skipFalse, seek_finished, if_neg (by decide), seek_token, keyword_token, if_pos rfl]
  apply skipFalse_fuel
  · change (seekThen rest).1.length < rest.length + 1
    omega
  · exact Nat.lt_succ_self _

theorem skip_else (h : ¬ (depth = 0 ∧ (m.seek rest).token = .newline)) :
    skip depth (m.seek (.keyword "ELSE" :: rest)) = skip depth (m.seek rest) := by
  unfold skip
  rw [skipFalse, seek_finished, if_neg (by decide), seek_token, keyword_token, if_neg (by decide),
    if_pos rfl, seek_next, if_neg h]
  rfl

theorem skip_else_zero :
    skip 0 (m.seek (.keyword "ELSE" :: newline :: rest)) = m.seek rest := rfl

theorem skip_endif_succ :
    skip (depth + 1) (m.seek (.keyword "ENDIF" :: rest)) = skip depth (m.seek rest) := rfl

theorem skip_endif_zero :
    skip 0 (m.seek (.keyword "ENDIF" :: newline :: rest)) = m.seek rest := rfl

/-- Tokens that are no keyword of an `IF` are passed over. -/
theorem skip_plain {tokens : List Lexeme} (h : ∀ l ∈ tokens, l.token ≠ .keyword "IF" ∧
    l.token ≠ .keyword "ELSE" ∧ l.token ≠ .keyword "ENDIF") :
    skip depth (m.seek (tokens ++ rest)) = skip depth (m.seek rest) := by
  induction tokens with
  | nil => rfl
  | cons l tokens ih =>
    obtain ⟨hif, helse, hendif⟩ := h l List.mem_cons_self
    rw [List.cons_append, skip_other hif helse hendif]
    exact ih fun l hl => h l (List.mem_cons_of_mem _ hl)

theorem skip_newline : skip depth (m.seek (newline :: rest)) = skip depth (m.seek rest) :=
  skip_other (by decide) (by decide) (by decide)

theorem skip_number (n : LineNumber) :
    skip depth (m.seek (n.lexeme :: rest)) = skip depth (m.seek rest) := by
  apply skip_other <;> rw [n.number] <;> decide

theorem seekThen_condition (c : Condition I) :
    seekThen (c.tokens ++ .keyword "THEN" :: rest) =
      (rest, (rest.head?.map Lexeme.token) == some .newline) := by
  have hinLine := c.inLine
  generalize c.tokens = tokens at hinLine
  induction tokens with
  | nil => rfl
  | cons l tokens ih =>
    obtain ⟨hthen, hnewline⟩ := hinLine l List.mem_cons_self
    rw [List.cons_append, seekThen, if_neg hthen, if_neg hnewline]
    exact ih fun l hl => hinLine l (List.mem_cons_of_mem _ hl)

/-- The `IF` of a single line is passed over. -/
theorem skip_if_line (c : Condition I) (hl : l.token ≠ .newline) :
    skip depth (m.seek (.keyword "IF" :: (c.tokens ++ .keyword "THEN" :: l :: rest))) =
      skip depth (m.seek (l :: rest)) := by
  have hnot : ((l :: rest).head?.map Lexeme.token == some .newline) = false := by
    simpa using hl
  rw [skip_if, seekThen_condition, hnot]
  rfl

/-- The `IF` of a block opens a level. -/
theorem skip_if_block (c : Condition I) :
    skip depth (m.seek (.keyword "IF" :: (c.tokens ++ .keyword "THEN" :: newline :: rest))) =
      skip (depth + 1) (m.seek rest) := by
  rw [skip_if, seekThen_condition, ← skip_newline]
  rfl

end Machine

namespace Line

variable {m : Machine σ} {rest : List Lexeme} {depth fuel : ℕ}

theorem tokens_eq_cons (l : Line I) : ∃ first others, l.tokens = first :: others ∧
    first.token ≠ .newline := by
  cases l with
  | statement s => exact ⟨s.first, s.others, rfl, s.inLine _ List.mem_cons_self⟩
  | ifThen c body => exact ⟨_, _, rfl, by decide⟩
  | ifElse c s other => exact ⟨_, _, rfl, by decide⟩

theorem inLine (l : Line I) : ∀ t ∈ l.tokens, t.token ≠ .newline := by
  induction l with
  | statement s => exact s.inLine
  | ifThen c body ih =>
    intro t ht
    simp only [tokens, List.mem_cons, List.mem_append] at ht
    rcases ht with rfl | ht | rfl | ht
    · decide
    · exact (c.inLine t ht).2
    · decide
    · exact ih t ht
  | ifElse c s other ih =>
    intro t ht
    simp only [tokens, List.mem_cons, List.mem_append] at ht
    rcases ht with rfl | ht | rfl | ht | rfl | ht
    · decide
    · exact (c.inLine t ht).2
    · decide
    · exact s.inLine t ht
    · decide
    · exact ih t ht

theorem skip_tokens {l : Line I} (h : l.Skippable) :
    Machine.skip depth (m.seek (l.tokens ++ rest)) = Machine.skip depth (m.seek rest) := by
  induction l with
  | statement s => exact Machine.skip_plain h
  | ifThen c body ih =>
    obtain ⟨first, others, htokens, hfirst⟩ := body.tokens_eq_cons
    have ih := ih h
    rw [htokens] at ih
    simp only [tokens, htokens, List.cons_append, List.append_assoc] at ih ⊢
    rw [Machine.skip_if_line c hfirst]
    exact ih
  | ifElse c s other ih =>
    obtain ⟨first, others, htokens, hfirst⟩ := other.tokens_eq_cons
    have hplain :
      Machine.skip depth (m.seek (s.tokens ++ .keyword "ELSE" :: (other.tokens ++ rest))) =
        Machine.skip depth (m.seek (.keyword "ELSE" :: (other.tokens ++ rest))) :=
      Machine.skip_plain h.1
    simp only [tokens, Simple.tokens, List.cons_append, List.append_assoc] at hplain ⊢
    rw [Machine.skip_if_line c (s.inLine s.first List.mem_cons_self), hplain, Machine.skip_else]
    · exact ih h.2
    · rw [htokens]
      exact fun hzero => hfirst hzero.2

end Line

namespace Prog

variable {m : Machine σ} {rest : List Lexeme} {depth : ℕ}

theorem skip_tokens {p : Prog I} (h : p.Skippable) :
    Machine.skip depth (m.seek (p.tokens ++ rest)) = Machine.skip depth (m.seek rest) := by
  induction p generalizing depth rest with
  | nil => rfl
  | line n l p ih =>
    simp only [tokens, List.cons_append, List.append_assoc]
    rw [Machine.skip_number, Line.skip_tokens h.1, Machine.skip_newline]
    exact ih h.2
  | block n c body n' p ih ihp =>
    simp only [tokens, List.cons_append, List.append_assoc]
    rw [Machine.skip_number, Machine.skip_if_block, ih h.1, Machine.skip_number,
      Machine.skip_endif_succ,
      Machine.skip_newline]
    exact ihp h.2
  | blockElse n c body n' other n'' p ih iho ihp =>
    simp only [tokens, List.cons_append, List.append_assoc]
    rw [Machine.skip_number, Machine.skip_if_block, ih h.1, Machine.skip_number,
      Machine.skip_else (fun hzero => Nat.noConfusion hzero.1), Machine.skip_newline, iho h.2.1,
      Machine.skip_number, Machine.skip_endif_succ, Machine.skip_newline]
    exact ihp h.2.2

end Prog

/-! ## Running a line -/

namespace Machine

variable {m : Machine σ} {l : Lexeme} {rest : List Lexeme} {fuel : ℕ}

def withEnv (m : Machine σ) (env : σ) : Machine σ := { m with env := env }

/-- The rest of an `IF` whose condition has been read. -/
theorem statement_if (fuel : ℕ) (l : Lexeme) (rest : List Lexeme) (c : Condition I)
    (hr : (c.eval m.env).1 = r) :
    statement I (fuel + 1) (m.seek (.keyword "IF" :: (c.tokens ++ .keyword "THEN" :: l :: rest))) =
      let m' := (m.withEnv (c.eval m.env).2).seek (l :: rest)
      if r then if l.token = .newline then m'.next else statement I fuel m'
      else if l.token = .newline then skip 0 m'.next
      else
        let m' := m'.seek (rest.dropWhile isInLine)
        if m'.token = .keyword "ELSE" then statement I fuel m'.next
        else if m'.token = .newline then m'.next
        else m' := by
  have hreads : I.conditional (m.seek (c.tokens ++ .keyword "THEN" :: l :: rest)).env
      (m.seek (c.tokens ++ .keyword "THEN" :: l :: rest)).rest =
        (r, (c.eval m.env).2, .keyword "THEN" :: l :: rest) := by
    rw [← hr]
    exact c.reads m.env _ rfl
  rw [statement, seek_token, keyword_token, if_pos rfl]
  unfold ifStatement acceptOrReturn
  rw [seek_token, keyword_token, if_pos rfl, seek_next]
  simp only [hreads]
  rw [if_pos (show token _ = .keyword "THEN" from rfl)]
  have hnext : next ⟨.keyword "THEN" :: l :: rest, (c.eval m.env).2,
      (m.seek (c.tokens ++ .keyword "THEN" :: l :: rest)).currentLinenum,
      (m.seek (c.tokens ++ .keyword "THEN" :: l :: rest)).errors⟩ =
        (m.withEnv (c.eval m.env).2).seek (l :: rest) := rfl
  simp only [hnext, seek_token]
  by_cases hline : l.token = .newline
  · rw [if_pos hline, if_pos hline, if_pos hline, if_pos hline, if_pos hline, if_pos hline]
    rfl
  · rw [if_neg hline, if_neg hline, if_neg hline, if_neg hline]
    rfl

theorem statement_else {tail : List Lexeme}
    (h : tail.dropWhile (fun l => l.token ≠ Token.keyword "ENDIF") =
      .keyword "ENDIF" :: newline :: rest) :
    statement I (fuel + 1) (m.seek (.keyword "ELSE" :: newline :: tail)) = m.seek rest := by
  have hrest : (m.seek tail).rest = tail := rfl
  rw [statement, seek_token, keyword_token, if_neg (by decide), if_pos rfl]
  unfold elseStatement
  apply (acceptOrReturn_eq rfl _).trans
  apply (acceptOrReturn_eq rfl _).trans
  rw [hrest, h]
  rfl

theorem statement_simple (s : Simple I) (hrest : rest.head?.map Lexeme.token = some .newline) :
    statement I (fuel + 1) (m.seek (s.tokens ++ rest)) =
      ((m.withEnv (s.effect m.env)).seek rest).next := by
  obtain ⟨hif, helse, hendif⟩ := s.start
  have htoken : (m.seek (s.tokens ++ rest)).token = s.first.token := rfl
  have hreads : I.handler (m.seek (s.tokens ++ rest)).env (m.seek (s.tokens ++ rest)).rest =
      (s.effect m.env, rest) := s.reads m.env rest hrest
  rw [statement, htoken, if_neg hif, if_neg helse, if_neg hendif]
  simp only [hreads]
  unfold acceptOrReturn
  rw [if_pos]
  · rfl
  · unfold token
    dsimp only
    rw [hrest]
    rfl

end Machine

theorem dropWhile_inLine {tokens rest : List Lexeme}
    (h : ∀ l ∈ tokens, l.token ≠ .keyword "ELSE" ∧ l.token ≠ .newline) :
    (tokens ++ rest).dropWhile Machine.isInLine = rest.dropWhile Machine.isInLine := by
  induction tokens with
  | nil => rfl
  | cons l tokens ih =>
    have hl : Machine.isInLine l = true := decide_eq_true (h l List.mem_cons_self)
    rw [List.cons_append, List.dropWhile_cons_of_pos hl]
    exact ih fun l hl => h l (List.mem_cons_of_mem _ hl)

theorem Line.statement_exec {l : Line I} {m : Machine σ} {rest : List Lexeme} {fuel : ℕ}
    (hclean : l.Clean m.env) (hfuel : l.tokens.length ≤ fuel) :
    Machine.statement I fuel (m.seek (l.tokens ++ newline :: rest)) =
      (m.withEnv (l.exec m.env)).seek rest := by
  induction l generalizing m fuel with
  | statement s =>
    cases fuel with
    | zero => cases hfuel
    | succ fuel => exact Machine.statement_simple s rfl
  | ifThen c body ih =>
    cases fuel with
    | zero => cases hfuel
    | succ fuel =>
      obtain ⟨first, others, htokens, hfirst⟩ := body.tokens_eq_cons
      have hlength : body.tokens.length ≤ fuel := by
        unfold Line.tokens at hfuel
        simp only [List.length_cons, List.length_append] at hfuel
        omega
      have hif := Machine.statement_if (m := m) fuel first (others ++ newline :: rest) c rfl
      simp only [Line.tokens, htokens, List.cons_append, List.append_assoc]
      rw [hif]
      dsimp only
      rw [if_neg hfirst, if_neg hfirst]
      unfold Line.Clean at hclean
      unfold Line.exec
      dsimp only
      by_cases hr : (c.eval m.env).1 = true
      · rw [if_pos hr] at hclean ⊢
        have ih := ih (m := m.withEnv (c.eval m.env).2) hclean hlength
        rw [htokens] at ih
        rw [if_pos hr]
        exact ih
      · rw [if_neg hr] at hclean ⊢
        rw [if_neg hr]
        have hdrop : (others ++ newline :: rest).dropWhile Machine.isInLine = newline :: rest := by
          rw [dropWhile_inLine]
          · rfl
          · intro t ht
            have hmem : t ∈ body.tokens := htokens ▸ List.mem_cons_of_mem first ht
            exact ⟨hclean t hmem, body.inLine t hmem⟩
        rw [hdrop]
        rfl
  | ifElse c s other ih =>
    cases fuel with
    | zero => cases hfuel
    | succ fuel =>
      have hfirst := s.inLine s.first List.mem_cons_self
      have hlength : other.tokens.length ≤ fuel := by
        unfold Line.tokens at hfuel
        simp only [List.length_cons, List.length_append] at hfuel
        omega
      obtain ⟨hr, hplain, hother⟩ := hclean
      have hif := Machine.statement_if (m := m) fuel s.first
        (s.others ++ .keyword "ELSE" :: (other.tokens ++ newline :: rest)) c hr
      have hdrop : (s.others ++ .keyword "ELSE" :: (other.tokens ++ newline :: rest)).dropWhile
          Machine.isInLine = .keyword "ELSE" :: (other.tokens ++ newline :: rest) := by
        rw [dropWhile_inLine]
        · rfl
        · intro t ht
          have hmem : t ∈ s.tokens := List.mem_cons_of_mem s.first ht
          exact ⟨hplain t hmem, s.inLine t hmem⟩
      simp only [Line.tokens, Simple.tokens, List.cons_append, List.append_assoc]
      rw [hif]
      dsimp only
      rw [if_neg Bool.false_ne_true, if_neg hfirst, hdrop]
      unfold Line.exec
      dsimp only
      rw [hr, if_neg Bool.false_ne_true]
      exact ih (m := m.withEnv (c.eval m.env).2) hother hlength

/-! ## Running a program -/

namespace Machine

variable {m m' m'' : Machine σ} {rest : List Lexeme}

def Reaches (I : Interpreter σ) (m m' : Machine σ) : Prop := ∃ n, run I n m = m'

theorem run_add (I : Interpreter σ) (n k : ℕ) (m : Machine σ) :
    run I (n + k) m = run I k (run I n m) := by
  induction n generalizing m with
  | zero => rw [Nat.zero_add, run]
  | succ n ih =>
    rw [Nat.succ_add, run, run]
    exact ih _

theorem run_of_finished (n : ℕ) (h : m.finished = true) : run I n m = m := by
  induction n with
  | zero => rfl
  | succ n ih =>
    rw [run, basicRun, if_pos (Or.inr h)]
    exact ih

theorem Reaches.unique (h : Reaches I m m') (h' : Reaches I m m'') (hm' : m'.finished = true)
    (hm'' : m''.finished = true) : m' = m'' := by
  obtain ⟨n, rfl⟩ := h
  obtain ⟨k, rfl⟩ := h'
  rw [← run_of_finished (I := I) k hm', ← run_add, Nat.add_comm, run_add]
  exact run_of_finished n hm''

theorem Reaches.trans (h : Reaches I m m') (h' : Reaches I m' m'') : Reaches I m m'' := by
  obtain ⟨n, rfl⟩ := h
  obtain ⟨k, rfl⟩ := h'
  exact ⟨n + k, run_add I n k m⟩

theorem reaches_line (rest : List Lexeme) (n : LineNumber) (herrors : m.errors = []) :
    Reaches I (m.seek (n.lexeme :: rest))
      (statement I (rest.length + 1)
        { m.seek rest with currentLinenum := atoll n.lexeme.text 10 }) := by
  have htoken : (m.seek (n.lexeme :: rest)).token = .number := n.number
  have hline : (m.seek (n.lexeme :: rest)).tokenizerNum = atoll n.lexeme.text 10 := rfl
  have hgoes : ¬ ((m.seek (n.lexeme :: rest)).errors ≠ [] ∨
      (m.seek (n.lexeme :: rest)).finished = true) := by
    rintro (hne | hfinished)
    · exact hne herrors
    · cases hfinished
  refine ⟨1, ?_⟩
  rw [run, run]
  unfold basicRun lineStatement
  rw [if_neg hgoes, htoken, if_neg (by decide), hline]
  dsimp only
  rw [if_neg n.pos]
  unfold acceptOrReturn
  exact if_pos n.number

end Machine

namespace Prog

variable {m : Machine σ} {rest rest' : List Lexeme} {env env' : σ}

def Runs (I : Interpreter σ) (m : Machine σ) (rest : List Lexeme) (env : σ) : Prop :=
  ∃ n, Machine.Reaches I m { (m.withEnv env).seek rest with currentLinenum := n }

theorem Runs.trans (h : Runs I m rest env)
    (h' : ∀ n, Runs I { (m.withEnv env).seek rest with currentLinenum := n } rest' env') :
    Runs I m rest' env' := by
  obtain ⟨n, hn⟩ := h
  obtain ⟨k, hk⟩ := h' n
  exact ⟨k, hn.trans hk⟩

theorem runs_statement (n : LineNumber) (herrors : m.errors = [])
    (hstatement : ∀ k, Machine.statement I (rest.length + 1)
      { m.seek rest with currentLinenum := k } =
        { (m.withEnv env).seek rest' with currentLinenum := k }) :
    Runs I (m.seek (n.lexeme :: rest)) rest' env := by
  refine ⟨atoll n.lexeme.text 10, ?_⟩
  have hline := Machine.reaches_line (I := I) rest n herrors
  rw [hstatement] at hline
  exact hline

theorem runs_line (n : LineNumber) {l : Line I} (herrors : m.errors = []) (hclean : l.Clean m.env) :
    Runs I (m.seek (n.lexeme :: (l.tokens ++ newline :: rest))) rest (l.exec m.env) := by
  apply runs_statement n herrors
  intro k
  have hlength : l.tokens.length ≤ (l.tokens ++ newline :: rest).length + 1 := by
    rw [List.length_append]
    omega
  exact Line.statement_exec (m := { m with currentLinenum := k }) hclean hlength

theorem runs_endif (n : LineNumber) (herrors : m.errors = []) :
    Runs I (m.seek (n.lexeme :: .keyword "ENDIF" :: newline :: rest)) rest m.env :=
  runs_statement n herrors fun _ => rfl

/-- An `ELSE` that is reached goes on behind the next `ENDIF`. -/
theorem runs_else (n n' : LineNumber) {tokens : List Lexeme} (herrors : m.errors = [])
    (h : ∀ l ∈ tokens, l.token ≠ .keyword "ENDIF") :
    Runs I (m.seek (n.lexeme :: .keyword "ELSE" :: newline :: (tokens ++
      n'.lexeme :: .keyword "ENDIF" :: newline :: rest))) rest m.env := by
  apply runs_statement n herrors
  intro k
  have hdrop : (tokens ++ n'.lexeme :: .keyword "ENDIF" :: newline :: rest).dropWhile
      (fun l => l.token ≠ Token.keyword "ENDIF") = .keyword "ENDIF" :: newline :: rest := by
    induction tokens with
    | nil =>
      have hn : n'.lexeme.token ≠ Token.keyword "ENDIF" := by
        rw [n'.number]
        decide
      rw [List.nil_append, List.dropWhile_cons_of_pos (by simpa using hn)]
      rfl
    | cons l tokens ih =>
      rw [List.cons_append, List.dropWhile_cons_of_pos (by simpa using h l List.mem_cons_self)]
      exact ih fun l hl => h l (List.mem_cons_of_mem _ hl)
  exact Machine.statement_else (m := { m with currentLinenum := k }) hdrop

theorem reaches_block (rest : List Lexeme) (n : LineNumber) (c : Condition I)
    (herrors : m.errors = []) :
    ∃ k, Machine.Reaches I
      (m.seek (n.lexeme :: .keyword "IF" :: (c.tokens ++ .keyword "THEN" :: newline :: rest)))
      (if (c.eval m.env).1 then
        { (m.withEnv (c.eval m.env).2).seek rest with currentLinenum := k }
      else
        Machine.skip 0 { (m.withEnv (c.eval m.env).2).seek rest with currentLinenum := k }) := by
  refine ⟨atoll n.lexeme.text 10, ?_⟩
  have hline := Machine.reaches_line (I := I)
    (.keyword "IF" :: (c.tokens ++ .keyword "THEN" :: newline :: rest)) n herrors
  have hif := Machine.statement_if (m := { m with currentLinenum := atoll n.lexeme.text 10 })
    (.keyword "IF" :: (c.tokens ++ .keyword "THEN" :: newline :: rest)).length newline rest c rfl
  have hstart : { m.seek (.keyword "IF" :: (c.tokens ++ .keyword "THEN" :: newline :: rest)) with
      currentLinenum := atoll n.lexeme.text 10 } =
        Machine.seek { m with currentLinenum := atoll n.lexeme.text 10 }
          (.keyword "IF" :: (c.tokens ++ .keyword "THEN" :: newline :: rest)) := rfl
  rw [hstart, hif] at hline
  exact hline

theorem runs_taken (n : LineNumber) {c : Condition I} (herrors : m.errors = [])
    (hr : (c.eval m.env).1 = true)
    (hbody : ∀ k,
      Runs I ({ m.withEnv (c.eval m.env).2 with currentLinenum := k }.seek rest) rest' env) :
    Runs I (m.seek (n.lexeme :: .keyword "IF" :: (c.tokens ++ .keyword "THEN" :: newline :: rest)))
      rest' env := by
  obtain ⟨k, hk⟩ := reaches_block (I := I) rest n c herrors
  rw [if_pos hr] at hk
  obtain ⟨k', hk'⟩ := hbody k
  exact ⟨k', hk.trans hk'⟩

theorem runs_skipped (tail : List Lexeme) (n : LineNumber) {c : Condition I}
    (herrors : m.errors = []) (hr : ¬ (c.eval m.env).1 = true)
    (hskip : ∀ m' : Machine σ, Machine.skip 0 (m'.seek rest) = m'.seek tail)
    (htail : ∀ k,
      Runs I ({ m.withEnv (c.eval m.env).2 with currentLinenum := k }.seek tail) rest' env) :
    Runs I (m.seek (n.lexeme :: .keyword "IF" :: (c.tokens ++ .keyword "THEN" :: newline :: rest)))
      rest' env := by
  obtain ⟨k, hk⟩ := reaches_block (I := I) rest n c herrors
  rw [if_neg hr] at hk
  have hfound : Machine.skip 0
      { (m.withEnv (c.eval m.env).2).seek rest with currentLinenum := k } =
        { (m.withEnv (c.eval m.env).2).seek tail with currentLinenum := k } :=
    hskip { m.withEnv (c.eval m.env).2 with currentLinenum := k }
  rw [hfound] at hk
  obtain ⟨k', hk'⟩ := htail k
  exact ⟨k', hk.trans hk'⟩

end Prog

/-! ## A program with a block in its ELSE branch -/

def tracer : Interpreter (List (List Char)) where
  conditional trace rest := (decide ((rest.head?.map Lexeme.text) ≠ some ['0']), trace, rest.tail)
  handler trace rest :=
    (trace ++ [(rest.takeWhile fun l => l.token ≠ Token.newline).flatMap Lexeme.text],
      rest.dropWhile fun l => l.token ≠ Token.newline)

namespace tracer

def condition (b : Bool) : Condition tracer where
  tokens := [⟨.number, if b then ['1'] else ['0']⟩]
  eval trace := (b, trace)
  inLine l hl := by
    rw [List.mem_singleton.mp hl]
    exact ⟨nofun, nofun⟩
  reads trace rest _ := by cases b <;> rfl

def call (c : Char) : Simple tracer where
  first := .keyword "PROC"
  others := [⟨.variable, [c]⟩]
  effect trace := trace ++ [['P', 'R', 'O', 'C', c]]
  start := by decide
  inLine l hl := by
    simp only [List.mem_cons, List.not_mem_nil, or_false] at hl
    rcases hl with rfl | rfl
    · exact nofun
    · exact nofun
  reads trace rest hrest := by
    cases rest with
    | nil => cases hrest
    | cons l rest =>
      have hl : l.token = .newline := Option.some.inj hrest
      simp [tracer, Lexeme.keyword, hl]

def lineNumber (digit : Char) (pos : atoll [digit] 10 ≠ 0) : LineNumber where
  lexeme := ⟨.number, [digit]⟩
  number := rfl
  pos := pos

def line (n : LineNumber) (c : Char) (rest : Prog tracer) : Prog tracer :=
  .line n (.statement (call c)) rest

/-- A block of `PROCA`, and in its `ELSE` a block of `PROCB` and then `PROCC`. -/
def nested (b : Bool) : Prog tracer :=
  .blockElse (lineNumber '1' (by decide)) (condition b)
    (line (lineNumber '2' (by decide)) 'A' .nil) (lineNumber '3' (by decide))
    (.block (lineNumber '4' (by decide)) (condition true)
      (line (lineNumber '5' (by decide)) 'B' .nil) (lineNumber '6' (by decide))
      (line (lineNumber '7' (by decide)) 'C' .nil)) (lineNumber '8' (by decide)) .nil

def start (p : Prog tracer) : Machine (List (List Char)) := ⟨p.tokens, [], 0, []⟩

end tracer

end RetroRocket
