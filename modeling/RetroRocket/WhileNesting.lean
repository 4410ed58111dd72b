import RetroRocket.WhileLoops

/-!
# Nested loops

The lines of a program with the loops that they stand in, and the run of a program whose loops are
nested: a condition that holds leads into the body, one that does not leads behind the ENDWHILE of
the loop, and ENDWHILE and CONTINUE lead back to the condition of the innermost loop. The
interpreter follows this run, with the loops that are being run on its stack, as long as no loop
starts with a condition that is false, no loop is called again out of its own body, and the loops
that end have a body in which the words WHILE and ENDWHILE are balanced.
-/

namespace RetroRocket

variable {σ : Type}

namespace LoopProgram

variable (P : LoopProgram σ)

/-! ## Nesting -/

def enclosing : ℕ → List ℕ
  | 0 => []
  | p + 1 =>
    match P.statementAt p with
    | some (.whileDo _ _) => p :: enclosing p
    | some .endwhile => (enclosing p).tail
    | _ => enclosing p

def isEndOf (p q : ℕ) : Bool :=
  match P.statementAt q with
  | some .endwhile => (P.enclosing q).head? == some p
  | _ => false

def endOf (p : ℕ) : Option ℕ := (List.range P.lines.length).find? (P.isEndOf p)

/-- Every loop has its end, every end and every CONTINUE its loop, and procedures begin outside of
loops. -/
structure WellNested : Prop where
  ends : ∀ p condition tokens, P.statementAt p = some (.whileDo condition tokens) →
    (P.endOf p).isSome
  closes : ∀ q, P.statementAt q = some .endwhile → P.enclosing q ≠ []
  continues : ∀ q taken guard, P.statementAt q = some (.continueWhile taken guard) →
    P.enclosing q ≠ []
  procs : ∀ p line tokens, P.statementAt p = some (.procCall line tokens) →
    ∃ q, P.position line = some q ∧ P.enclosing q = []

variable {P} {p q r : ℕ} {l : List ℕ}

theorem enclosing_succ_while {condition : σ → Bool × σ} {tokens : List Token}
    (h : P.statementAt p = some (.whileDo condition tokens)) :
    P.enclosing (p + 1) = p :: P.enclosing p := by
  rw [enclosing, h]

theorem enclosing_succ_endwhile (h : P.statementAt p = some .endwhile) :
    P.enclosing (p + 1) = (P.enclosing p).tail := by
  rw [enclosing, h]

theorem enclosing_succ {statement : LoopStatement σ} (h : P.statementAt p = some statement)
    (hwhile : ∀ condition tokens, statement ≠ .whileDo condition tokens)
    (hend : statement ≠ .endwhile) : P.enclosing (p + 1) = P.enclosing p := by
  rw [enclosing, h]
  cases statement with
  | whileDo condition tokens => exact absurd rfl (hwhile condition tokens)
  | endwhile => exact absurd rfl hend
  | continueWhile taken guard => rfl
  | procCall line tokens => rfl
  | endproc => rfl
  | endProgram => rfl
  | plain run tokens => rfl

/-- A line that others stand in is a WHILE in front of them, and what stands around it stands around
them. -/
theorem enclosing_cons (h : P.enclosing q = p :: l) : p < q ∧ l = P.enclosing p ∧
    ∃ condition tokens, P.statementAt p = some (.whileDo condition tokens) := by
  induction q using Nat.strong_induction_on generalizing p l with
  | _ q ih =>
    cases q with
    | zero => cases h
    | succ q =>
      rw [enclosing] at h
      split at h
      · next condition tokens hq =>
        obtain ⟨rfl, rfl⟩ := List.cons_eq_cons.mp h
        exact ⟨Nat.lt_succ_self _, rfl, condition, tokens, hq⟩
      · next hq =>
        -- the loop that ends here stands around the one that is left
        cases hinner : P.enclosing q with
        | nil =>
          rw [hinner] at h
          cases h
        | cons r l' =>
          rw [hinner, List.tail_cons] at h
          obtain ⟨hr, hl', -⟩ := ih q (Nat.lt_succ_self q) hinner
          obtain ⟨hp, hl, hstatement⟩ := ih r (by omega) (hl'.symm.trans h)
          exact ⟨by omega, hl, hstatement⟩
      · obtain ⟨hp, hl, hstatement⟩ := ih q (Nat.lt_succ_self q) h
        exact ⟨by omega, hl, hstatement⟩

theorem exists_while_of_mem_enclosing (h : p ∈ P.enclosing q) :
    ∃ condition tokens, P.statementAt p = some (.whileDo condition tokens) := by
  induction q using Nat.strong_induction_on with
  | _ q ih =>
    cases hq : P.enclosing q with
    | nil =>
      rw [hq] at h
      cases h
    | cons r l =>
      obtain ⟨hr, rfl, hstatement⟩ := enclosing_cons hq
      rw [hq] at h
      rcases List.mem_cons.mp h with rfl | h
      · exact hstatement
      · exact ih r hr h

theorem enclosing_length_lt (h : p ∈ P.enclosing q) :
    (P.enclosing p).length < (P.enclosing q).length := by
  induction q using Nat.strong_induction_on with
  | _ q ih =>
    cases hq : P.enclosing q with
    | nil =>
      rw [hq] at h
      cases h
    | cons r l =>
      obtain ⟨hr, rfl, -⟩ := enclosing_cons hq
      rw [hq] at h
      rw [List.length_cons]
      rcases List.mem_cons.mp h with rfl | h
      · exact Nat.lt_succ_self _
      · exact (ih r hr h).trans (Nat.lt_succ_self _)

theorem endOf_spec (h : P.endOf p = some q) :
    P.statementAt q = some .endwhile ∧ P.enclosing q = p :: P.enclosing p ∧ p < q := by
  have hend := List.find?_some h
  unfold isEndOf at hend
  split at hend
  · next hq =>
    rw [beq_iff_eq] at hend
    cases hinner : P.enclosing q with
    | nil =>
      rw [hinner] at hend
      cases hend
    | cons r l =>
      rw [hinner] at hend
      obtain rfl : r = p := Option.some.inj hend
      obtain ⟨hlt, rfl, -⟩ := enclosing_cons hinner
      exact ⟨hq, rfl, hlt⟩
  · cases hend

/-- What `WellNested` says of a line. -/
def nestedAt (P : LoopProgram σ) (p : ℕ) : Bool :=
  match P.statementAt p with
  | some (.whileDo _ _) => (P.endOf p).isSome
  | some .endwhile => P.enclosing p != []
  | some (.continueWhile _ _) => P.enclosing p != []
  | some (.procCall line _) => (P.position line).any fun q => P.enclosing q == []
  | _ => true

theorem wellNested_of_all (h : (List.range P.lines.length).all P.nestedAt = true) :
    P.WellNested := by
  have hat : ∀ {p statement}, P.statementAt p = some statement → P.nestedAt p = true := by
    intro p statement hstatement
    obtain ⟨line, hline, -⟩ := Option.map_eq_some_iff.mp hstatement
    have hlt := (List.getElem?_eq_some_iff.mp hline).1
    exact List.all_eq_true.mp h p (List.mem_range.mpr hlt)
  constructor
  case ends =>
    intro p condition tokens hstatement
    have hp := hat hstatement
    rw [nestedAt, hstatement] at hp
    exact hp
  case closes =>
    intro q hstatement
    have hq := hat hstatement
    rw [nestedAt, hstatement] at hq
    simpa using hq
  case continues =>
    intro q taken guard hstatement
    have hq := hat hstatement
    rw [nestedAt, hstatement] at hq
    simpa using hq
  case procs =>
    intro p line tokens hstatement
    have hp := hat hstatement
    rw [nestedAt, hstatement] at hp
    obtain ⟨q, hq, hout⟩ := (Option.any_eq_true _ _).mp hp
    exact ⟨q, hq, by simpa using hout⟩

/-! ## Lines and numbers -/

theorem statementAt_eq_some {statement : LoopStatement σ} (h : P.statementAt p = some statement) :
    ∃ line, P.lines[p]? = some line ∧ line.statement = statement ∧ line.number = P.numberAt p := by
  obtain ⟨line, hline, hstatement⟩ := Option.map_eq_some_iff.mp h
  refine ⟨line, hline, hstatement, ?_⟩
  rw [numberAt, hline]
  rfl

theorem position_numberAt {line : LoopLine σ} (h : P.lines[p]? = some line) :
    P.position line.number = some p := by
  obtain ⟨hlt, hget⟩ := List.getElem?_eq_some_iff.mp h
  rw [position, List.findIdx?_eq_some_iff_getElem]
  refine ⟨hlt, by rw [hget]; exact beq_self_eq_true _, fun q hq => ?_⟩
  have hnumbers :=
    List.pairwise_iff_getElem.mp P.distinct q p (by simp; omega) (by simpa using hlt) hq
  rw [List.getElem_map, List.getElem_map, hget] at hnumbers
  simpa using hnumbers

theorem numberAt_injective {statement statement' : LoopStatement σ}
    (h : P.statementAt p = some statement) (h' : P.statementAt q = some statement')
    (hnumber : P.numberAt p = P.numberAt q) : p = q := by
  obtain ⟨line, hline, -, hnum⟩ := statementAt_eq_some h
  obtain ⟨line', hline', -, hnum'⟩ := statementAt_eq_some h'
  have hp := position_numberAt hline
  have hq := position_numberAt hline'
  rw [hnum, hnumber, ← hnum', hq] at hp
  exact (Option.some.inj hp).symm

theorem jumpLinenum_numberAt {statement : LoopStatement σ} (h : P.statementAt p = some statement)
    (c : WhileCtx σ) : P.jumpLinenum (P.numberAt p) c = { c with pos := p } := by
  obtain ⟨line, hline, -, hnum⟩ := statementAt_eq_some h
  rw [jumpLinenum, ← hnum, position_numberAt hline]

/-! ## The search for the end of a loop -/

def loopDepth : ℕ → List Token → Option ℕ
  | depth, [] => some depth
  | depth, t :: rest =>
    if t = whileToken then loopDepth (depth + 1) rest
    else if t = endwhileToken then if depth = 1 then none else loopDepth (depth - 1) rest
    else loopDepth depth rest

def loopsBalanced (lines : List (LoopLine σ)) : Bool :=
  loopDepth 1 (lines.flatMap fun line => line.statement.tokens) == some 1

theorem loopDepth_append (depth : ℕ) (ts us : List Token) :
    loopDepth depth (ts ++ us) = (loopDepth depth ts).bind fun d => loopDepth d us := by
  induction ts generalizing depth with
  | nil => rfl
  | cons t ts ih =>
    rw [List.cons_append, loopDepth, loopDepth]
    split
    · exact ih _
    · split
      · split
        · rfl
        · exact ih _
      · exact ih _

theorem seek_tokens {depth depth' line : ℕ} {ts : List Token} {rest : List SeekToken}
    (h : loopDepth depth ts = some depth') :
    seekToMatchingToken whileToken endwhileToken depth line (ts.map .token ++ rest) =
      seekToMatchingToken whileToken endwhileToken depth' line rest := by
  induction ts generalizing depth with
  | nil =>
    obtain rfl := Option.some.inj h
    rfl
  | cons t ts ih =>
    rw [loopDepth] at h
    rw [List.map_cons, List.cons_append, seekToMatchingToken]
    split at h
    · next ht => rw [if_pos ht, ih h]
    · next ht =>
      rw [if_neg ht]
      split at h
      · next ht' =>
        rw [if_pos ht']
        split at h
        · cases h
        · next hone => rw [if_neg hone, ih h]
      · next ht' => rw [if_neg ht', ih h]

theorem seek_lines {depth line : ℕ} {body rest : List (LoopLine σ)} {last : LoopLine σ}
    (hlast : last.statement = .endwhile)
    (h : loopDepth depth (body.flatMap fun line => line.statement.tokens) = some 1) :
    seekToMatchingToken whileToken endwhileToken depth line
      (.newline :: seekTokens (body ++ last :: rest)) = some last.number := by
  induction body generalizing depth line with
  | nil =>
    obtain rfl := Option.some.inj h
    have htokens : last.statement.tokens = [endwhileToken] := by rw [hlast]; rfl
    have hne : endwhileToken ≠ whileToken := by decide
    simp [seekTokens, htokens, seekToMatchingToken, hne]
  | cons l body ih =>
    rw [List.flatMap_cons, loopDepth_append] at h
    obtain ⟨depth', hl, hbody⟩ := Option.bind_eq_some_iff.mp h
    have hsplit : seekTokens (l :: body ++ last :: rest) = .number l.number ::
        (l.statement.tokens.map .token ++ .newline :: seekTokens (body ++ last :: rest)) := by
      simp [seekTokens]
    rw [hsplit, seekToMatchingToken, seek_tokens hl]
    exact ih hbody

theorem seek_body {body rest : List (LoopLine σ)} {last : LoopLine σ} (hne : body ≠ [])
    (hlast : last.statement = .endwhile) (hbody : loopsBalanced body = true) :
    seekToMatchingToken whileToken endwhileToken 1 0 (seekTokens (body ++ last :: rest)) =
      some last.number := by
  obtain ⟨l, body, rfl⟩ := List.exists_cons_of_ne_nil hne
  unfold loopsBalanced at hbody
  rw [beq_iff_eq, List.flatMap_cons, loopDepth_append] at hbody
  obtain ⟨depth', hl, hbody⟩ := Option.bind_eq_some_iff.mp hbody
  have hsplit : seekTokens (l :: body ++ last :: rest) = .number l.number ::
      (l.statement.tokens.map .token ++ .newline :: seekTokens (body ++ last :: rest)) := by
    simp [seekTokens]
  rw [hsplit, seekToMatchingToken, seek_tokens hl]
  exact seek_lines hlast hbody

end LoopProgram

end RetroRocket
