import RetroRocket.ConditionPhrases

/-!
# The evaluator on relations

`up_relation_expr` reads values and the operators between them, from the left.
-/

namespace RetroRocket

open RetroRocket.Action BasicExpr

variable {c c' d : ParseCtx} {rest : List Char} {calls : Calls} {n : ℕ}

/-! ## How a phrase starts -/

def StartsValue (tok : Token) : Prop :=
  tok = .number ∨ tok = .variable ∨ tok = .openBracket ∨ tok = .plus ∨ tok = .minus

namespace Phrase

variable {l : Level}

theorem readToken_start (p : Phrase l) (hplain : p.Plain) (hboundary : p.Boundary rest)
    (hd : d.ptr = p.text ++ rest) : StartsValue (readToken d).currentToken ∧
      ((readToken d).currentToken = .openBracket ↔ 0 < p.leading) := by
  induction p generalizing rest with
  | literal digits =>
    rw [readToken_number digits.ne_nil digits.isDigit hd hboundary hplain]
    exact ⟨Or.inl rfl, by simp [leading]⟩
  | var v =>
    rw [readToken_name v hd hboundary]
    exact ⟨Or.inr (Or.inl rfl), by simp [leading]⟩
  | brackets before inner after =>
    rw [readToken_isSingle (by decide) hd]
    exact ⟨Or.inr (Or.inr (Or.inl rfl)), by simp [leading, singlecharToken]⟩
  | ofFactor p ih => exact ih hplain hboundary hd
  | signed sign blanks p =>
    rw [readToken_isSingle (by cases sign <;> decide) hd]
    cases sign with
    | plus => exact ⟨Or.inr
        (Or.inr (Or.inr (Or.inl rfl))), by simp [leading, Sign.char, singlecharToken]⟩
    | minus => exact ⟨Or.inr
        (Or.inr (Or.inr (Or.inr rfl))), by simp [leading, Sign.char, singlecharToken]⟩
  | ofUnary p ih => exact ih hplain hboundary hd
  | product left before op after right ih =>
    rw [text, List.append_assoc, List.append_assoc, List.append_assoc] at hd
    exact ih hplain.1 (left.boundary_op op before _) hd
  | ofTerm p ih => exact ih hplain hboundary hd
  | sum left before op after right ih =>
    rw [text, List.append_assoc, List.append_assoc] at hd
    exact ih hplain.1 (left.boundary_blanks before.2 (by cases op <;> decide)) hd

theorem exists_inner (p : Phrase l) (h : 0 < p.leading) :
    ∃ (before : Blanks) (inner : Phrase .value) (more : List Char),
      p.text = '(' :: (before.1 ++ (inner.text ++ more)) ∧ p.leading = inner.leading + 1 ∧
        (p.Plain → inner.Plain) ∧ ∀ rest, inner.Boundary (more ++ rest) := by
  induction p with
  | literal digits => exact absurd h (lt_irrefl _)
  | var v => exact absurd h (lt_irrefl _)
  | brackets before inner after =>
    refine ⟨before, inner, after.1 ++ [')'], rfl, rfl, id, fun rest => ?_⟩
    rw [List.append_assoc]
    exact inner.boundary_blanks after.2 (by decide)
  | ofFactor p ih => exact ih h
  | signed sign blanks p => exact absurd h (lt_irrefl _)
  | ofUnary p ih => exact ih h
  | product left before op after right ih =>
    obtain ⟨first, inner, more, htext, hleading, hplain, hboundary⟩ := ih h
    refine ⟨first, inner, more ++ (before.1 ++ (op.text ++ (after.1 ++ right.text))), ?_, hleading,
      fun h => hplain h.1, fun rest => ?_⟩
    · rw [text, htext]
      simp only [List.cons_append, List.append_assoc]
    · rw [List.append_assoc]
      exact hboundary _
  | ofTerm p ih => exact ih h
  | sum left before op after right ih =>
    obtain ⟨first, inner, more, htext, hleading, hplain, hboundary⟩ := ih h
    refine ⟨first, inner, more ++ (before.1 ++ op.char :: (after.1 ++ right.text)), ?_, hleading,
      fun h => hplain h.1, fun rest => ?_⟩
    · rw [text, htext]
      simp only [List.cons_append, List.append_assoc]
    · rw [List.append_assoc]
      exact hboundary _

end Phrase

/-! ## Operators -/

theorem post_upOperator {l : Level} {p : Phrase l} {op : Relation} {after : Blanks}
    (hplain : p.Plain) (hboundary : p.Boundary rest)
    (h : c.At (op.text ++ (after.1 ++ (p.text ++ rest)))) :
    (c.currentToken = .lessThan ∨ c.currentToken = .greaterThan ∨ c.currentToken = .equals) ∧
      ∃ d, d.ptr = p.text ++ rest ∧ d.store = c.store ∧ ∀ Q R,
        Post (upOperator c.currentToken) (tokenizerNext c) Q R ↔ Q op (readToken d) := by
  have hsingle : ∀ ch ∈ ['<', '>', '='], IsSingle ch := List.all_eq_true.mp (by decide)
  have hhead := p.text_append_head rest
  have hone : ∀ ch ∈ ['<', '>', '='], c.At (ch :: (after.1 ++ (p.text ++ rest))) →
      c.currentToken = singlecharToken ch ∧ ∃ d, d.ptr = p.text ++ rest ∧ d.store = c.store ∧
        tokenizerNext c = readToken d ∧ StartsValue (readToken d).currentToken := by
    intro ch hch hat
    obtain ⟨htoken, d, hd, hstore, hread⟩ := hat.advance (hsingle ch hch) after.2 hhead
    exact ⟨htoken, d, hd, hstore, hread, (p.readToken_start hplain hboundary hd).1⟩
  have htwo : ∀ ch ∈ ['<', '>', '='], ∀ ch' ∈ ['<', '>', '='],
      c.At (ch :: (ch' :: (after.1 ++ (p.text ++ rest)))) → c.currentToken = singlecharToken ch ∧
        (tokenizerNext c).currentToken = singlecharToken ch' ∧ ∃ d, d.ptr = p.text ++ rest ∧
          d.store = c.store ∧ tokenizerNext (tokenizerNext c) = readToken d := by
    intro ch hch ch' hch' hat
    replace hat : c.At (ch :: ([] ++ ch' :: (after.1 ++ (p.text ++ rest)))) := hat
    obtain ⟨htoken, d, hd, hstore, hread⟩ :=
      hat.advance (hsingle ch hch) rfl ⟨ch', _, rfl, IsSingle.isBlank (hsingle ch' hch')⟩
    have hat' := readToken_at hd
    rw [← hread] at hat'
    obtain ⟨htoken', d', hd', hstore', hread'⟩ := hat'.advance (hsingle ch' hch') after.2 hhead
    refine ⟨htoken, htoken', d', hd', ?_, hread'⟩
    rw [hstore', hread, readToken_isSingle (hsingle ch' hch') hd]
    exact hstore
  cases op with
  | less =>
    obtain ⟨htoken, d, hd, hstore, hread, hstart⟩ := hone '<' (by decide) h
    refine ⟨Or.inl htoken, d, hd, hstore, fun Q R => ?_⟩
    rw [htoken, hread]
    unfold upOperator
    rw [post_bind, post_token]
    rcases hstart with h | h | h | h | h <;> rw [h] <;> exact Iff.rfl
  | greater =>
    obtain ⟨htoken, d, hd, hstore, hread, hstart⟩ := hone '>' (by decide) h
    refine ⟨Or.inr (Or.inl htoken), d, hd, hstore, fun Q R => ?_⟩
    rw [htoken, hread]
    unfold upOperator
    rw [post_bind, post_token]
    rcases hstart with h | h | h | h | h <;> rw [h] <;> exact Iff.rfl
  | equal =>
    obtain ⟨htoken, d, hd, hstore, hread, hstart⟩ := hone '=' (by decide) h
    refine ⟨Or.inr (Or.inr htoken), d, hd, hstore, fun Q R => ?_⟩
    rw [htoken, hread]
    unfold upOperator
    rw [post_bind, post_token]
    rcases hstart with h | h | h | h | h <;> rw [h] <;> exact Iff.rfl
  | lessEqual =>
    obtain ⟨htoken, htoken', d, hd, hstore, hread⟩ := htwo '<' (by decide) '=' (by decide) h
    refine ⟨Or.inl htoken, d, hd, hstore, fun Q R => ?_⟩
    unfold upOperator
    rw [post_bind, post_token, htoken, htoken', ← hread]
    exact Iff.rfl
  | greaterEqual =>
    obtain ⟨htoken, htoken', d, hd, hstore, hread⟩ := htwo '>' (by decide) '=' (by decide) h
    refine ⟨Or.inr (Or.inl htoken), d, hd, hstore, fun Q R => ?_⟩
    unfold upOperator
    rw [post_bind, post_token, htoken, htoken', ← hread]
    exact Iff.rfl
  | notEqual =>
    obtain ⟨htoken, htoken', d, hd, hstore, hread⟩ := htwo '<' (by decide) '>' (by decide) h
    refine ⟨Or.inl htoken, d, hd, hstore, fun Q R => ?_⟩
    unfold upOperator
    rw [post_bind, post_token, htoken, htoken', ← hread]
    exact Iff.rfl

/-! ## Relations -/

def EndsRelation (tok : Token) : Prop :=
  EndsArith tok ∧ tok ≠ .lessThan ∧ tok ≠ .greaterThan ∧ tok ≠ .equals

instance : DecidablePred EndsRelation := fun _ => inferInstanceAs (Decidable (_ ∧ _))

namespace BasicExpr

/-- The rest of `up_relation_expr` from its first value on, with fuel for `k` operators. -/
def relationFrom (calls : Calls) (n k : ℕ) : Action ParseCtx Value := do
  let lhs ← upValueExpr calls n
  upRelationLoop (upValueExpr calls n) k lhs

theorem upRelationExpr_succ : upRelationExpr calls (n + 1) = relationFrom calls n n := rfl

section Loop

variable {k : ℕ} {value : Action ParseCtx Value} {lhs : Value} {Q : Value → ParseCtx → Prop}
  {R : ParseCtx → Prop}

theorem post_upRelationLoop_end (hk : 0 < k)
    (h : c.currentToken ≠ .lessThan ∧ c.currentToken ≠ .greaterThan ∧ c.currentToken ≠ .equals) :
    Post (upRelationLoop value k lhs) c Q R ↔ Q lhs c := by
  obtain ⟨k, rfl⟩ := Nat.exists_eq_succ_of_ne_zero hk.ne'
  unfold upRelationLoop
  rw [post_bind, post_token, if_neg, post_pure]
  rintro (hless | hgreater | hequal)
  · exact h.1 hless
  · exact h.2.1 hgreater
  · exact h.2.2 hequal

theorem post_upRelationLoop_op
    (h : c.currentToken = .lessThan ∨ c.currentToken = .greaterThan ∨ c.currentToken = .equals) :
    Post (upRelationLoop value (k + 1) lhs) c Q R ↔
      Post (upOperator c.currentToken) (tokenizerNext c) (fun op c' => Post value c'
        (fun rhs c' => Post (upCompare op lhs rhs) c'
          (fun b c' => Post (upRelationLoop value k (ofBool b)) c' Q R) R) R) R := by
  rw [upRelationLoop, post_bind, post_token, if_pos h, post_bind, post_next]
  simp only [post_bind]

theorem post_upCompare_int {op : Relation} {a b : BitVec 64} {Q : Bool → ParseCtx → Prop} :
    Post (upCompare op (.int a) (.int b)) c Q R ↔ Q (op.test a b) c := by
  rw [← holds_compareInts]
  exact Iff.rfl

end Loop

end BasicExpr

namespace RelPhrase

theorem text_append_head (r : RelPhrase) (rest : List Char) :
    ∃ ch more, r.text ++ rest = ch :: more ∧ isBlank ch = false := by
  induction r generalizing rest with
  | value p => exact p.text_append_head rest
  | compare left before op after right ih =>
    rw [text, List.append_assoc]
    exact ih _

theorem boundary_blanks (r : RelPhrase) {ch : Char} {blanks : List Char}
    (hblanks : blanks.all isBlank) (h : Phrase.Breaks ch) : r.Boundary (blanks ++ ch :: rest) := by
  cases r with
  | value p => exact p.boundary_blanks hblanks h
  | compare left before op after right => exact right.boundary_blanks hblanks h

theorem eval_isIntVariable {s : Store} {var : Name} (h : IsIntVariable calls s var)
    (r : RelPhrase) :
    IsIntVariable calls (r.eval s).2 var := by
  induction r generalizing s with
  | value p => exact h.eval p.tree
  | compare left before op after right ih => exact (ih h).eval right.tree

theorem vars_imp {P Q : Name → Prop} (r : RelPhrase) (h : r.Vars P)
    (himp : ∀ var, P var → Q var) : r.Vars Q := by
  induction r with
  | value p => exact ArithExpr.Vars.imp h himp
  | compare left before op after right ih => exact ⟨ih h.1, ArithExpr.Vars.imp h.2 himp⟩

theorem ops_le_size (r : RelPhrase) : r.ops ≤ r.size := by
  induction r with
  | value p => exact Nat.zero_le _
  | compare left before op after right ih =>
    exact Nat.succ_le_succ (ih.trans (Nat.le_add_right _ _))

structure Ready (calls : Calls) (n : ℕ) (r : RelPhrase) (c : ParseCtx) (rest : List Char) :
    Prop where
  place : c.At (r.text ++ rest)
  boundary : r.Boundary rest
  quiet : Quiet rest
  vars : r.Vars (IsIntVariable calls c.store)
  fuel : r.size < n

structure Reads (r : RelPhrase) (c : ParseCtx) (rest : List Char) (v : Value) (c' : ParseCtx) :
    Prop where
  value : v = .int (r.eval c.store).1
  done : c'.Done rest (r.eval c.store).2
  fits : ¬ r.Overflows c.store

section Compare

variable {left : RelPhrase} {before after : Blanks} {op : Relation} {right : Phrase .value}

theorem operator_head (op : Relation) (rest : List Char) :
    ∃ ch more, op.text ++ rest = ch :: more ∧ IsSingle ch ∧ Phrase.Breaks ch ∧
      EndsArith (singlecharToken ch) := by
  cases op with
  | less => exact ⟨'<', _, rfl, by decide, by decide, by decide⟩
  | lessEqual => exact ⟨'<', _, rfl, by decide, by decide, by decide⟩
  | greater => exact ⟨'>', _, rfl, by decide, by decide, by decide⟩
  | greaterEqual => exact ⟨'>', _, rfl, by decide, by decide, by decide⟩
  | equal => exact ⟨'=', _, rfl, by decide, by decide, by decide⟩
  | notEqual => exact ⟨'<', _, rfl, by decide, by decide, by decide⟩

theorem ready_left (h : (compare left before op after right).Ready calls n c rest) :
    left.Ready calls n c (before.1 ++ (op.text ++ (after.1 ++ (right.text ++ rest)))) ∧
      NextToken EndsArith (before.1 ++ (op.text ++ (after.1 ++ (right.text ++ rest)))) := by
  obtain ⟨ch, more, hhead, hsingle, hbreaks, hends⟩ :=
    operator_head op (after.1 ++ (right.text ++ rest))
  have hplace := h.place
  rw [text, List.append_assoc, List.append_assoc, List.append_assoc, List.append_assoc] at hplace
  have hfuel : left.size + right.size + 1 < n := h.fuel
  rw [hhead] at hplace ⊢
  exact ⟨⟨hplace, left.boundary_blanks before.2 hbreaks, quiet_single hsingle before.2, h.vars.1,
    by omega⟩, nextToken_single hsingle before.2 hends⟩

theorem at_operator {s : Store}
    (h : c.Done (before.1 ++ (op.text ++ (after.1 ++ (right.text ++ rest)))) s) :
    c.At (op.text ++ (after.1 ++ (right.text ++ rest))) := by
  obtain ⟨ch, more, hhead, hsingle, -, -⟩ := operator_head op (after.1 ++ (right.text ++ rest))
  rw [hhead] at h ⊢
  exact h.at_single hsingle before.2

end Compare

section Spec

variable {Q : Value → ParseCtx → Prop} {R : ParseCtx → Prop} {k : ℕ}

/-- Behind a relation, the loop of `up_relation_expr` goes on with its value. -/
theorem post_relationFrom (r : RelPhrase) (hplain : r.Plain) (hready : r.Ready calls n c rest)
    (hnext : NextToken EndsArith rest) (hR : r.Overflows c.store → ∀ c', R c')
    (hloop : ∀ c', c'.Done rest (r.eval c.store).2 → ¬ r.Overflows c.store →
      Post (upRelationLoop (upValueExpr calls n) k (.int (r.eval c.store).1)) c' Q R) :
    Post (relationFrom calls n (k + r.ops)) c Q R := by
  induction r generalizing k rest with
  | value p =>
    have hspec : p.Spec calls := p.spec hplain
    unfold relationFrom
    rw [post_bind]
    refine (Phrase.Spec.post_value hspec
      ⟨hready.place, hready.boundary, hready.quiet, hready.vars, hready.fuel⟩ hnext hR).mono ?_
      fun _ h => h
    rintro v c' ⟨rfl, hdone, hfits⟩
    exact hloop c' hdone hfits
  | compare left before op after right ih =>
    obtain ⟨hleft, hends⟩ := ready_left hready
    have hfuel : left.size + right.size + 1 < n := hready.fuel
    change Post (relationFrom calls n (k + (left.ops + 1))) c Q R
    rw [← Nat.add_assoc, Nat.add_right_comm]
    apply ih hplain.1 hleft hends fun h => hR (Or.inl h)
    intro c₁ hdone hfitsl
    obtain ⟨htoken, d, hd, hstore, hop⟩ :=
      post_upOperator hplain.2 hready.boundary (at_operator hdone)
    rw [post_upRelationLoop_op htoken, hop]
    have hsame : (readToken d).store = (left.eval c.store).2 := by
      rw [right.readToken_store hplain.2 hready.boundary hd, hstore, hdone.store]
    have hright : right.Ready calls n (readToken d) rest := by
      refine ⟨readToken_at hd, hready.boundary, hready.quiet, ?_, by omega⟩
      rw [hsame]
      exact ArithExpr.Vars.imp hready.vars.2 fun var h => eval_isIntVariable h left
    have hspec : right.Spec calls := right.spec hplain.2
    refine (Phrase.Spec.post_value hspec hright hnext ?_).mono ?_ fun _ h => h
    · rw [hsame]
      exact fun h => hR (Or.inr h)
    rintro v c₂ ⟨rfl, hdone₂, hfitsr⟩
    rw [hsame] at hdone₂ hfitsr ⊢
    rw [post_upCompare_int]
    apply hloop c₂ hdone₂
    rintro (h | h)
    · exact hfitsl h
    · exact hfitsr h

theorem post_upRelationExpr (r : RelPhrase) (hplain : r.Plain) (hready : r.Ready calls n c rest)
    (hnext : NextToken EndsRelation rest) (hR : r.Overflows c.store → ∀ c', R c') :
    Post (upRelationExpr calls (n + 1)) c (r.Reads c rest) R := by
  have hops := r.ops_le_size
  have hfuel := hready.fuel
  obtain ⟨k, hk⟩ : ∃ k, n = k + r.ops := ⟨n - r.ops, by omega⟩
  rw [upRelationExpr_succ]
  have hpost := r.post_relationFrom (Q := r.Reads c rest) (k := k) hplain hready
    (fun d hd => (hnext d hd).1) hR ?_
  · rwa [← hk] at hpost
  intro c' hdone hfits
  rw [post_upRelationLoop_end (by omega) (hdone.token
    (P := fun tok => tok ≠ .lessThan ∧ tok ≠ .greaterThan ∧ tok ≠ .equals)
    (fun d hd => (hnext d hd).2) (by decide))]
  exact ⟨rfl, hdone, hfits⟩

end Spec

/-! ## How a relation starts -/

def first : RelPhrase → Phrase .value
  | .value p => p
  | .compare left _ _ _ _ => left.first

theorem exists_text_eq (r : RelPhrase) (hplain : r.Plain) (hboundary : r.Boundary rest) :
    ∃ more, r.text ++ rest = r.first.text ++ more ∧ r.first.Plain ∧ r.first.Boundary more ∧
      r.first.leading = r.leading := by
  induction r generalizing rest with
  | value p => exact ⟨rest, rfl, hplain, hboundary, rfl⟩
  | compare left before op after right ih =>
    obtain ⟨ch, more, hhead, -, hbreaks, -⟩ := operator_head op (after.1 ++ (right.text ++ rest))
    rw [text, List.append_assoc, List.append_assoc, List.append_assoc, List.append_assoc, hhead]
    exact ih hplain.1 (left.boundary_blanks before.2 hbreaks)

theorem readToken_start (r : RelPhrase) (hplain : r.Plain) (hboundary : r.Boundary rest)
    (hd : d.ptr = r.text ++ rest) : (readToken d).store = d.store ∧
      StartsValue (readToken d).currentToken ∧
      ((readToken d).currentToken = .openBracket ↔ 0 < r.leading) := by
  obtain ⟨more, htext, hfirst, hmore, hleading⟩ := r.exists_text_eq hplain hboundary
  rw [htext] at hd
  rw [← hleading]
  exact ⟨r.first.readToken_store hfirst hmore hd, r.first.readToken_start hfirst hmore hd⟩

theorem not_openBracket_of_leading (r : RelPhrase) (hplain : r.Plain) (hboundary : r.Boundary rest)
    (hleading : r.leading = 1) (h : c.At (r.text ++ rest)) :
    (tokenizerNext c).store = c.store ∧ (tokenizerNext c).currentToken ≠ .openBracket := by
  obtain ⟨more, htext, hfirst, hmore, heq⟩ := r.exists_text_eq hplain hboundary
  obtain ⟨before, inner, more', hinner, hcount, hplain', hboundary'⟩ :=
    r.first.exists_inner (by omega)
  rw [htext, hinner, List.cons_append, List.append_assoc, List.append_assoc] at h
  obtain ⟨-, d, hd, hstore, hread⟩ :=
    h.advance (by decide) before.2 (inner.text_append_head _)
  rw [hread, inner.readToken_store (hplain' hfirst) (hboundary' more) hd, hstore]
  refine ⟨rfl, fun htoken => ?_⟩
  have hpos := (inner.readToken_start (hplain' hfirst) (hboundary' more) hd).2.mp htoken
  omega

end RelPhrase

end RetroRocket
