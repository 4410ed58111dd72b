import RetroRocket.BasicRelations

/-!
# The evaluator on conditions

`up_conditional` reads a clear condition up to its end and returns what it says. A condition without
operators is also read by `up_relation_i`, with the same value.
-/

namespace RetroRocket

open RetroRocket.Action BasicExpr

variable {c c' d : ParseCtx} {rest : List Char} {calls : Calls} {n : ℕ}

/-! ## Words -/

def operatorWords : List String := ["NOT", "AND", "OR"]

theorem readToken_word {word : String} (hword : word ∈ operatorWords) (hrest : EndsWord rest)
    (hptr : d.ptr = word.toList ++ rest) :
    readToken d = { d with currentToken := .keyword word, nextptr := rest } := by
  unfold operatorWords at hword
  simp only [List.mem_cons, List.not_mem_nil, or_false] at hword
  rcases hword with rfl | rfl | rfl
  · have hbucket : (keywords.filter fun w => w.toList.take 2 = "NOT".toList.take 2) = ["NOT"] := by
      decide +kernel
    exact readToken_keyword rfl (by decide) (by decide) hbucket hrest hptr
  · have hbucket : (keywords.filter fun w => w.toList.take 2 = "AND".toList.take 2) =
        ["AND", "ANIMATE"] := by
      decide +kernel
    exact readToken_keyword rfl (by decide) (by decide) hbucket hrest hptr
  · have hbucket : (keywords.filter fun w => w.toList.take 2 = "OR".toList.take 2) = ["OR"] := by
      decide +kernel
    exact readToken_keyword rfl (by decide) (by decide) hbucket hrest hptr

theorem word_head {word : String} (hword : word ∈ operatorWords) :
    ∃ ch tail, word.toList = ch :: tail ∧ isBlank ch = false := by
  unfold operatorWords at hword
  simp only [List.mem_cons, List.not_mem_nil, or_false] at hword
  rcases hword with rfl | rfl | rfl
  · exact ⟨'N', ['O', 'T'], rfl, rfl⟩
  · exact ⟨'A', ['N', 'D'], rfl, rfl⟩
  · exact ⟨'O', ['R'], rfl, rfl⟩

section Word

variable {word : String} {blanks text : List Char} (hword : word ∈ operatorWords)

include hword

theorem dropWhile_isBlank_word (hblanks : blanks.all isBlank) :
    (blanks ++ (word.toList ++ rest)).dropWhile isBlank = word.toList ++ rest := by
  obtain ⟨ch, tail, hcons, hch⟩ := word_head hword
  rw [dropWhile_isBlank_append hblanks, hcons, List.cons_append, dropWhile_isBlank_cons hch]

theorem quiet_word (hblanks : blanks.all isBlank) (hrest : EndsWord rest) :
    Quiet (blanks ++ (word.toList ++ rest)) := by
  intro d hd
  rw [dropWhile_isBlank_word hword hblanks] at hd
  rw [readToken_word hword hrest hd]
  exact ⟨rfl, rfl⟩

theorem nextToken_word {P : Token → Prop} (hblanks : blanks.all isBlank) (hrest : EndsWord rest)
    (h : P (.keyword word)) : NextToken P (blanks ++ (word.toList ++ rest)) := by
  intro d hd
  rw [dropWhile_isBlank_word hword hblanks] at hd
  rw [readToken_word hword hrest hd]
  exact h

theorem ParseCtx.Done.at_word {s : Store} (h : c.Done (blanks ++ (word.toList ++ rest)) s)
    (hblanks : blanks.all isBlank) : c.At (word.toList ++ rest) := by
  obtain ⟨ch, tail, hcons, -⟩ := word_head hword
  rcases h.place with hat | ⟨hnil, -⟩
  · rwa [dropWhile_isBlank_word hword hblanks] at hat
  · rw [hcons] at hnil
    simp at hnil

theorem ParseCtx.At.advance_word (h : c.At (word.toList ++ (blanks ++ text)))
    (hblanks : blanks.all isBlank) (hends : EndsWord (blanks ++ text))
    (htext : ∃ first more, text = first :: more ∧ isBlank first = false) :
    c.currentToken = .keyword word ∧
      ∃ d, d.ptr = text ∧ d.store = c.store ∧ tokenizerNext c = readToken d := by
  obtain ⟨ch, tail, hcons, -⟩ := word_head hword
  obtain ⟨d, hd, hptr, hnext, htoken⟩ := h.read
  rw [readToken_word hword hends hd] at hptr hnext htoken
  refine ⟨htoken, ?_⟩
  have hne : c.ptr ≠ [] := by
    rw [hptr]
    change d.ptr ≠ []
    rw [hd, hcons]
    exact List.cons_ne_nil _ _
  have hread := tokenizerNext_at hne (by rw [htoken]; exact Token.noConfusion) hnext
  obtain ⟨first, more, rfl, hfirst⟩ := htext
  rw [dropWhile_isBlank_append hblanks, dropWhile_isBlank_cons hfirst] at hread
  exact hread

end Word

theorem EndsWord.append {text : List Char} (h : EndsWord text) (hne : text ≠ []) :
    EndsWord (text ++ rest) := by
  obtain ⟨ch, more, rfl⟩ := List.exists_cons_of_ne_nil hne
  exact h

/-! ## How a condition starts -/

namespace Cond

variable {l : CondLevel}

theorem text_append_head (p : Cond l) (rest : List Char) :
    ∃ ch more, p.text ++ rest = ch :: more ∧ isBlank ch = false := by
  induction p generalizing rest with
  | relation r => exact r.text_append_head rest
  | group before inner after => exact ⟨'(', _, rfl, rfl⟩
  | ofAtom p ih => exact ih rest
  | not blanks p => exact ⟨'N', _, rfl, rfl⟩
  | ofNegation p ih => exact ih rest
  | and left before after right ih =>
    rw [text, List.append_assoc]
    exact ih _
  | ofConjunction p ih => exact ih rest
  | or left before after right ih =>
    rw [text, List.append_assoc]
    exact ih _

theorem text_ne_nil (p : Cond l) : p.text ≠ [] := by
  obtain ⟨ch, more, hcons, -⟩ := p.text_append_head []
  rw [List.append_nil] at hcons
  rw [hcons]
  exact List.cons_ne_nil _ _

theorem boundary_blanks (p : Cond l) {ch : Char} {blanks : List Char} (hblanks : blanks.all isBlank)
    (h : Phrase.Breaks ch) : p.Boundary (blanks ++ ch :: rest) := by
  induction p with
  | relation r => exact r.boundary_blanks hblanks h
  | group before inner after => trivial
  | ofAtom p ih => exact ih
  | not blanks p ih => exact ih
  | ofNegation p ih => exact ih
  | and left before after right ihl ihr => exact ihr
  | ofConjunction p ih => exact ih
  | or left before after right ihl ihr => exact ihr

theorem vars_imp {P Q : Name → Prop} (p : Cond l) (h : p.Vars P) (himp : ∀ var, P var → Q var) :
    p.Vars Q := by
  induction p with
  | relation r => exact r.vars_imp h himp
  | group before inner after ih => exact ih h
  | ofAtom p ih => exact ih h
  | not blanks p ih => exact ih h
  | ofNegation p ih => exact ih h
  | and left before after right ihl ihr => exact ⟨ihl h.1, ihr h.2⟩
  | ofConjunction p ih => exact ih h
  | or left before after right ihl ihr => exact ⟨ihl h.1, ihr h.2⟩

theorem eval_isIntVariable {s : Store} {var : Name} (h : IsIntVariable calls s var) (p : Cond l) :
    IsIntVariable calls (p.eval s).2 var := by
  induction p generalizing s with
  | relation r => exact RelPhrase.eval_isIntVariable h r
  | group before inner after ih => exact ih h
  | ofAtom p ih => exact ih h
  | not blanks p ih => exact ih h
  | ofNegation p ih => exact ih h
  | and left before after right ihl ihr => exact ihr (ihl h)
  | ofConjunction p ih => exact ih h
  | or left before after right ihl ihr => exact ihr (ihl h)

theorem endsWord_right {m : CondLevel} {right : Cond m} {after : Blanks}
    (h : EndsWord (after.1 ++ right.text)) (rest : List Char) :
    EndsWord (after.1 ++ (right.text ++ rest)) := by
  rw [← List.append_assoc]
  apply h.append
  simp [right.text_ne_nil]

theorem readToken_start (p : Cond l) (hplain : p.Plain) (hspaced : p.Spaced)
    (hboundary : p.Boundary rest) (hd : d.ptr = p.text ++ rest) :
    (readToken d).store = d.store ∧
      ((readToken d).currentToken = .openBracket ↔ 0 < p.leading) := by
  induction p generalizing rest with
  | relation r =>
    obtain ⟨hstore, -, hleading⟩ := r.readToken_start hplain hboundary hd
    exact ⟨hstore, hleading⟩
  | group before inner after =>
    rw [readToken_isSingle (by decide) hd]
    exact ⟨rfl, by simp [leading, singlecharToken]⟩
  | ofAtom p ih => exact ih hplain hspaced hboundary hd
  | not blanks p =>
    rw [text, List.append_assoc, List.append_assoc] at hd
    rw [readToken_word (by decide) (endsWord_right hspaced.1 rest) hd]
    exact ⟨rfl, by simp [leading]⟩
  | ofNegation p ih => exact ih hplain hspaced hboundary hd
  | and left before after right ih =>
    rw [text, List.append_assoc, List.append_assoc, List.append_assoc] at hd
    exact ih hplain.1 hspaced.2.2.1 (hspaced.1 _) hd
  | ofConjunction p ih => exact ih hplain hspaced hboundary hd
  | or left before after right ih =>
    rw [text, List.append_assoc, List.append_assoc, List.append_assoc] at hd
    exact ih hplain.1 hspaced.2.2.1 (hspaced.1 _) hd

theorem atom_token (p : Cond .atom) (hplain : p.Plain) (hboundary : p.Boundary rest)
    (h : c.At (p.text ++ rest)) : StartsValue c.currentToken := by
  obtain ⟨d, hd, -, -, htoken⟩ := h.read
  rw [htoken]
  cases p with
  | relation r => exact (r.readToken_start hplain hboundary hd).2.1
  | group before inner after =>
    rw [readToken_isSingle (by decide) hd]
    exact Or.inr (Or.inr (Or.inl rfl))

structure Ready (calls : Calls) (n : ℕ) (p : Cond l) (c : ParseCtx) (rest : List Char) : Prop where
  place : c.At (p.text ++ rest)
  boundary : p.Boundary rest
  quiet : Quiet rest
  vars : p.Vars (IsIntVariable calls c.store)
  fuel : p.size < n

structure Reads (p : Cond l) (c : ParseCtx) (rest : List Char) (v : Value) (c' : ParseCtx) :
    Prop where
  truth : upTruth v = (p.eval c.store).1
  done : c'.Done rest (p.eval c.store).2
  fits : ¬ p.Overflows c.store

theorem Ready.inner {before after : Blanks} {inner : Cond .disjunction} {m : ℕ}
    (h : (group before inner after).Ready calls n c rest) (hplain : inner.Plain)
    (hspaced : inner.Spaced) (hm : inner.size < m) : c.currentToken = .openBracket ∧
      (tokenizerNext c).store = c.store ∧
      ((tokenizerNext c).currentToken = .openBracket ↔ 0 < inner.leading) ∧
      inner.Ready calls m (tokenizerNext c) (after.1 ++ ')' :: rest) := by
  have hboundary : inner.Boundary (after.1 ++ ')' :: rest) :=
    inner.boundary_blanks after.2 (by decide)
  have hplace := h.place
  rw [text, List.cons_append, List.append_assoc, List.append_assoc, List.append_assoc] at hplace
  obtain ⟨htoken, d, hd, hstore, hread⟩ :=
    hplace.advance (by decide) before.2 (inner.text_append_head _)
  obtain ⟨hsame, hleading⟩ := inner.readToken_start hplain hspaced hboundary hd
  rw [hread, hsame, hstore]
  refine ⟨htoken, rfl, hleading, readToken_at hd, hboundary,
    quiet_single (by decide) after.2, ?_, hm⟩
  rw [hsame, hstore]
  exact h.vars

end Cond

/-! ## Rules for the steps of a condition -/

namespace BasicExpr

abbrev boolTermAt (calls : Calls) (n : ℕ) : Action ParseCtx Value :=
  parseBoolTerm calls (upConditional calls n) n

/-- The rest of `parse_bool_term`, when some `NOT`s have been read. -/
def boolTermFrom (calls : Calls) (n k : ℕ) (negate : Bool) : Action ParseCtx Value := do
  let negate ← upNots k negate
  let b ← upBoolOperand calls (upConditional calls n) n
  pure (upNegated negate b)

/-- The rest of `up_conditional` from its first term on, with fuel for `k` operators. -/
def condFrom (calls : Calls) (n k : ℕ) : Action ParseCtx Value := do
  let acc ← boolTermAt calls n
  upConditionalLoop (boolTermAt calls n) k acc

@[simp] theorem upTruth_ofBool (b : Bool) : upTruth (ofBool b) = b := by
  cases b <;> rfl

theorem upTruth_upNegated (negate : Bool) (v : Value) :
    upTruth (upNegated negate v) = (negate ^^ upTruth v) := by
  cases negate with
  | true => simp [upNegated]
  | false => simp [upNegated]

section Steps

variable {k : ℕ} {negate : Bool} {acc : Value} {Q : Value → ParseCtx → Prop} {R : ParseCtx → Prop}

theorem post_upConditional {Q : Bool → ParseCtx → Prop} :
    Post (upConditional calls (n + 1)) c Q R ↔
      Post (condFrom calls n n) c (fun v c' => Q (upTruth v) c') R := by
  unfold upConditional condFrom
  simp only [post_bind, post_pure]

theorem post_upRelationExpr_factor (hn : 0 < n)
    (hsign : c.currentToken ≠ .plus ∧ c.currentToken ≠ .minus)
    (h : Post (factorAt calls n) c (fun v c' => EndsRelation c'.currentToken ∧ Q v c') R) :
    Post (upRelationExpr calls (n + 1)) c Q R := by
  rw [upRelationExpr_succ]
  unfold relationFrom
  rw [post_bind]
  change Post (valueFrom calls n n) c _ R
  unfold valueFrom
  rw [post_bind]
  change Post (termFrom calls n n) c _ R
  unfold termFrom
  rw [post_bind]
  change Post (signedFrom calls n n false false) c _ R
  rw [Phrase.post_signedFrom_end hn hsign]
  refine h.mono ?_ fun _ h => h
  rintro v c' ⟨hends, hv⟩
  change Post (upTermLoop (unaryAt calls n) n v) c' _ R
  rw [Phrase.post_upTermLoop_end hn hends.1.1, Phrase.post_upValueLoop_end hn hends.1.2,
    post_upRelationLoop_end hn hends.2]
  exact hv

theorem Post.upRelationTerm
    (h : Post (upRelationExpr calls n) c (fun v c' => (∃ i, v = .int i) ∧ Q v c') R) :
    Post (upRelationTerm calls n) c Q R := by
  unfold BasicExpr.upRelationTerm
  rw [post_bind]
  refine h.mono ?_ fun _ h => h
  rintro v c' ⟨⟨i, rfl⟩, hv⟩
  exact hv

section Operand

variable {conditional : Action ParseCtx Bool}

theorem post_upBoolOperand_value (h : c.currentToken ≠ .openBracket) :
    Post (upBoolOperand calls conditional n) c Q R ↔ Post (upRelationTerm calls n) c Q R := by
  unfold upBoolOperand
  rw [post_bind, post_token, if_neg h]

theorem post_upBoolOperand_group (h : c.currentToken = .openBracket)
    (hnext : (tokenizerNext c).currentToken = .openBracket) :
    Post (upBoolOperand calls conditional n) c Q R ↔ Post conditional (tokenizerNext c)
      (fun b c' => Q (ofBool b) (accept .closeBracket c')) R := by
  unfold upBoolOperand
  rw [post_bind, post_token, if_pos h, post_bind, post_get, post_bind, post_take, accept_of_eq h,
    post_bind, post_token, if_pos hnext]
  simp only [post_bind, post_take, post_pure]

theorem post_upBoolOperand_relation (h : c.currentToken = .openBracket)
    (hnext : (tokenizerNext c).currentToken ≠ .openBracket)
    (hstore : (tokenizerNext c).store = c.store) :
    Post (upBoolOperand calls conditional n) c Q R ↔ Post (upRelationTerm calls n) c Q R := by
  unfold upBoolOperand
  rw [post_bind, post_token, if_pos h, post_bind, post_get, post_bind, post_take, accept_of_eq h,
    post_bind, post_token, if_neg hnext]
  unfold restore
  rw [post_bind, post_modify]
  unfold ParseCtx.store at hstore
  simp only [Store.mk.injEq] at hstore
  rw [hstore.1, hstore.2.1, hstore.2.2]

end Operand

theorem post_boolTermFrom_end (hk : 0 < k) (h : c.currentToken ≠ .keyword "NOT") :
    Post (boolTermFrom calls n k negate) c Q R ↔
      Post (upBoolOperand calls (upConditional calls n) n) c
        (fun v c' => Q (upNegated negate v) c') R := by
  obtain ⟨k, rfl⟩ := Nat.exists_eq_succ_of_ne_zero hk.ne'
  unfold boolTermFrom upNots
  rw [post_bind, post_bind, post_token, if_neg h, post_pure, post_bind]
  simp only [post_pure]

theorem post_boolTermFrom_not (h : c.currentToken = .keyword "NOT") :
    Post (boolTermFrom calls n (k + 1) negate) c Q R ↔
      Post (boolTermFrom calls n k (!negate)) (tokenizerNext c) Q R := by
  unfold boolTermFrom
  rw [post_bind, upNots, post_bind, post_token, if_pos h, post_bind, post_next, ← post_bind]

section Loop

variable {boolTerm : Action ParseCtx Value}

theorem post_upConditionalLoop_end (hk : 0 < k)
    (h : c.currentToken ≠ .keyword "AND" ∧ c.currentToken ≠ .keyword "OR") :
    Post (upConditionalLoop boolTerm k acc) c Q R ↔ Q acc c := by
  obtain ⟨k, rfl⟩ := Nat.exists_eq_succ_of_ne_zero hk.ne'
  unfold upConditionalLoop
  rw [post_bind, post_token, if_neg h.1, if_neg h.2, post_pure]

theorem post_upConditionalLoop_and (h : c.currentToken = .keyword "AND") :
    Post (upConditionalLoop boolTerm (k + 1) acc) c Q R ↔ Post boolTerm (tokenizerNext c)
      (fun rhs c' => Post (upConditionalLoop boolTerm k (ofBool (upTruth acc && upTruth rhs))) c'
        Q R) R := by
  rw [upConditionalLoop, post_bind, post_token, if_pos h, post_bind, post_next, post_bind]

theorem post_upConditionalLoop_or (h : c.currentToken = .keyword "OR") :
    Post (upConditionalLoop boolTerm (k + 1) acc) c Q R ↔ Post boolTerm (tokenizerNext c)
      (fun rhs c' => Post (upConditionalLoop boolTerm k (ofBool (upTruth acc || upTruth rhs))) c'
        Q R) R := by
  rw [upConditionalLoop, post_bind, post_token, if_neg (by rw [h]; decide), if_pos h, post_bind,
    post_next, post_bind]

end Loop

end Steps

end BasicExpr

end RetroRocket
