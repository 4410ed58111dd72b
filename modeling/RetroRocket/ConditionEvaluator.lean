import RetroRocket.BasicConditions

/-!
# What the evaluator makes of a condition

A clear condition is read up to its end, and the result is what it says with `NOT` before `AND`
before `OR`. The parser goes wrong on an `AND` behind an `OR`, which it takes from the left, and
where a value that starts with two brackets is compared, since it takes those for brackets around a
condition.
-/

namespace RetroRocket

open RetroRocket.Action BasicExpr

variable {c c' d : ParseCtx} {rest : List Char} {calls : Calls} {n : ℕ}

namespace Cond

variable {l m : CondLevel}

/-! ## Operands -/

theorem endsRelation_word (word : String) : EndsRelation (.keyword word) := by
  refine ⟨⟨⟨?_, ?_, ?_⟩, ?_, ?_⟩, ?_, ?_, ?_⟩ <;> exact Token.noConfusion

section Operands

variable {left : Cond l} {right : Cond m} {before after : Blanks} {s : Store}

theorem ready_left (word : String) (hword : word ∈ operatorWords)
    (hplace : c.At (left.text ++ (before.1 ++ (word.toList ++ (after.1 ++ (right.text ++ rest))))))
    (hboundary : ∀ more, left.Boundary (before.1 ++ (word.toList ++ more)))
    (hends : EndsWord (after.1 ++ right.text)) (hvars : left.Vars (IsIntVariable calls c.store))
    (hfuel : left.size < n) :
    left.Ready calls n c (before.1 ++ (word.toList ++ (after.1 ++ (right.text ++ rest)))) ∧
      NextToken EndsRelation (before.1 ++ (word.toList ++ (after.1 ++ (right.text ++ rest)))) := by
  have hmore := endsWord_right hends rest
  refine ⟨⟨hplace, hboundary _, quiet_word hword before.2 hmore, hvars, hfuel⟩, ?_⟩
  exact nextToken_word hword before.2 hmore (endsRelation_word word)

theorem ready_right (word : String) (hword : word ∈ operatorWords)
    (hdone : c.Done (before.1 ++ (word.toList ++ (after.1 ++ (right.text ++ rest))))
      (left.eval s).2)
    (hends : EndsWord (after.1 ++ right.text)) (hplain : right.Plain) (hspaced : right.Spaced)
    (hboundary : right.Boundary rest) (hquiet : Quiet rest)
    (hvars : right.Vars (IsIntVariable calls s)) (hfuel : right.size < n) :
    c.currentToken = .keyword word ∧ (tokenizerNext c).store = (left.eval s).2 ∧
      right.Ready calls n (tokenizerNext c) rest := by
  obtain ⟨htoken, d, hd, hstore, hread⟩ := (hdone.at_word hword before.2).advance_word hword
    after.2 (endsWord_right hends rest) (right.text_append_head rest)
  have hsame := (right.readToken_start hplain hspaced hboundary hd).1
  rw [hstore, hdone.store] at hsame
  rw [hread]
  refine ⟨htoken, hsame, readToken_at hd, hboundary, hquiet, ?_, hfuel⟩
  rw [hsame]
  exact right.vars_imp hvars fun var h => eval_isIntVariable h left

end Operands

/-! ## Conditions without operators -/

/-- `up_relation_expr` reads a condition that has no operators. -/
theorem post_upRelationExpr {R : ParseCtx → Prop} (p : Cond l) (hpure : p.isPure)
    (hplain : p.Plain) (hspaced : p.Spaced) (hready : p.Ready calls n c rest)
    (hnext : NextToken EndsRelation rest) (hR : p.Overflows c.store → ∀ c', R c') :
    Post (upRelationExpr calls n) c (fun v c' => (∃ i, v = .int i) ∧ p.Reads c rest v c') R := by
  induction p generalizing n c rest with
  | relation r =>
    have hfuel : r.size + 1 < n := hready.fuel
    obtain ⟨n, rfl⟩ := Nat.exists_eq_succ_of_ne_zero (Nat.ne_zero_of_lt hready.fuel)
    refine (r.post_upRelationExpr hplain ⟨hready.place, hready.boundary, hready.quiet, hready.vars,
      by omega⟩ hnext hR).mono ?_ fun _ h => h
    rintro v c' ⟨rfl, hdone, hfits⟩
    exact ⟨⟨_, rfl⟩, rfl, hdone, hfits⟩
  | group before inner after ih =>
    have hfuel : inner.size + 2 < n := hready.fuel
    obtain ⟨n, rfl⟩ := Nat.exists_eq_succ_of_ne_zero (Nat.ne_zero_of_lt hready.fuel)
    obtain ⟨htoken, hstore, -, hinner⟩ :=
      hready.inner hplain hspaced (by omega : inner.size < n)
    have hpos : 0 < n := Nat.zero_lt_of_lt hinner.fuel
    apply post_upRelationExpr_factor hpos
    · rw [htoken]
      exact ⟨Token.noConfusion, Token.noConfusion⟩
    rw [post_upFactor_openBracket hpos htoken]
    refine (ih hpure hplain hspaced hinner ?_ ?_).mono ?_ fun _ h => h
    · exact nextToken_single (by decide : IsSingle ')') after.2 (by decide)
    · rw [hstore]
      exact hR
    rintro v c' ⟨hint, htruth, hdone, hfits⟩
    rw [hstore] at htruth hdone hfits
    obtain ⟨-, hclosed⟩ := hdone.at_close after.2 hready.quiet
    exact ⟨hclosed.token hnext (by decide), hint, htruth, hclosed, hfits⟩
  | ofAtom p ih =>
    exact (ih hpure hplain hspaced ⟨hready.place, hready.boundary, hready.quiet, hready.vars,
      hready.fuel⟩ hnext hR).mono (fun v c' h => ⟨h.1, h.2.truth, h.2.done, h.2.fits⟩) fun _ h => h
  | not blanks p => cases hpure
  | ofNegation p ih =>
    exact (ih hpure hplain hspaced ⟨hready.place, hready.boundary, hready.quiet, hready.vars,
      hready.fuel⟩ hnext hR).mono (fun v c' h => ⟨h.1, h.2.truth, h.2.done, h.2.fits⟩) fun _ h => h
  | and left before after right => cases hpure
  | ofConjunction p ih =>
    exact (ih hpure hplain hspaced ⟨hready.place, hready.boundary, hready.quiet, hready.vars,
      hready.fuel⟩ hnext hR).mono (fun v c' h => ⟨h.1, h.2.truth, h.2.done, h.2.fits⟩) fun _ h => h
  | or left before after right => cases hpure

theorem isPure_of_isRelation (p : Cond l) (h : p.isRelation) : p.isPure := by
  induction p with
  | relation r => rfl
  | group before inner after => cases h
  | ofAtom p ih => exact ih h
  | not blanks p => cases h
  | ofNegation p ih => exact ih h
  | and left before after right => cases h
  | ofConjunction p ih => exact ih h
  | or left before after right => cases h

/-! ## Each level -/

/-- The term of a condition has been read by `parse_bool_term`. -/
def TermSpec (calls : Calls) (p : Cond l) : Prop :=
  ∀ {n c rest R}, p.Ready calls n c rest → NextToken EndsRelation rest →
    (p.Overflows c.store → ∀ c', R c') → Post (boolTermAt calls n) c (p.Reads c rest) R

/-- Behind the condition, the loop of `up_conditional` goes on with its value. -/
def LoopSpec (calls : Calls) (p : Cond l) : Prop :=
  ∀ {n k c rest Q R}, p.Ready calls n c rest → NextToken EndsRelation rest →
    (p.Overflows c.store → ∀ c', R c') →
    (∀ v c', p.Reads c rest v c' → Post (upConditionalLoop (boolTermAt calls n) k v) c' Q R) →
    Post (condFrom calls n (k + p.ops)) c Q R

/-- What it is for a condition that its level reads it. A term without `AND` is read as a whole. -/
def Spec (calls : Calls) : {l : CondLevel} → Cond l → Prop
  | .atom, p => ∀ {n c rest R}, p.Ready calls n c rest → NextToken EndsRelation rest →
      (p.Overflows c.store → ∀ c', R c') →
      Post (upBoolOperand calls (upConditional calls n) n) c (p.Reads c rest) R
  | .negation, p => ∀ {n k : ℕ} (negate : Bool) {c rest R}, p.Ready calls n c rest → p.size < k →
      NextToken EndsRelation rest → (p.Overflows c.store → ∀ c', R c') →
      Post (boolTermFrom calls n k negate) c
        (fun v c' => upTruth v = (negate ^^ (p.eval c.store).1) ∧
        c'.Done rest (p.eval c.store).2 ∧ ¬ p.Overflows c.store) R
  | .conjunction, p => p.LoopSpec calls ∧ (p.noAnd → p.TermSpec calls)
  | .disjunction, p => p.LoopSpec calls

theorem ops_le_size (p : Cond l) : p.ops ≤ p.size := by
  induction p with
  | relation r => exact Nat.zero_le _
  | group before inner after => exact Nat.zero_le _
  | ofAtom p => exact Nat.zero_le _
  | not blanks p => exact Nat.zero_le _
  | ofNegation p => exact Nat.zero_le _
  | and left before after right ih => exact Nat.succ_le_succ (ih.trans (Nat.le_add_right _ _))
  | ofConjunction p ih => exact ih
  | or left before after right ih => exact Nat.succ_le_succ (ih.trans (Nat.le_add_right _ _))

theorem Spec.post_boolTerm {p : Cond .negation} (h : p.Spec calls) : p.TermSpec calls := by
  intro n c rest R hready hnext hR
  refine Post.mono (h (k := n) false hready hready.fuel hnext hR) ?_ fun _ h => h
  rintro v c' ⟨htruth, hdone, hfits⟩
  rw [Bool.false_xor] at htruth
  exact ⟨htruth, hdone, hfits⟩

/-! ## The cases of the grammar -/

theorem spec_relation {r : RelPhrase} (hplain : r.Plain) (hclear : r.leading < 2) :
    (relation r).Spec calls := by
  intro n c rest R hready hnext hR
  have hrelation : Post (upRelationTerm calls n) c ((relation r).Reads c rest) R := by
    apply Post.upRelationTerm
    exact post_upRelationExpr (relation r) rfl hplain trivial hready hnext hR
  obtain ⟨d, hd, -, -, htoken⟩ := hready.place.read
  have hstart := (r.readToken_start hplain hready.boundary hd).2.2
  rw [← htoken] at hstart
  by_cases hopen : c.currentToken = .openBracket
  · have hleading : r.leading = 1 := by
      have hpos := hstart.mp hopen
      omega
    obtain ⟨hstore, hinner⟩ :=
      r.not_openBracket_of_leading hplain hready.boundary hleading hready.place
    rw [post_upBoolOperand_relation hopen hinner hstore]
    exact hrelation
  · rw [post_upBoolOperand_value hopen]
    exact hrelation

theorem post_upBoolOperand_brackets {R : ParseCtx → Prop} {before after : Blanks}
    {inner : Cond .disjunction} (ih : inner.Spec calls) (hplain : inner.Plain)
    (hspaced : inner.Spaced) (hleading : 0 < inner.leading)
    (hready : (group before inner after).Ready calls n c rest)
    (hR : inner.Overflows c.store → ∀ c', R c') :
    Post (upBoolOperand calls (upConditional calls n) n) c
      ((group before inner after).Reads c rest) R := by
  have hfuel : inner.size + 2 < n := hready.fuel
  obtain ⟨n, rfl⟩ := Nat.exists_eq_succ_of_ne_zero (Nat.ne_zero_of_lt hready.fuel)
  obtain ⟨hopen, hstore, hsecond, hinner⟩ :=
    hready.inner hplain hspaced (by omega : inner.size < n)
  rw [post_upBoolOperand_group hopen (hsecond.mpr hleading), post_upConditional]
  have hops := inner.ops_le_size
  obtain ⟨k, hk⟩ : ∃ k, n = k + inner.ops := ⟨n - inner.ops, by omega⟩
  have hpost := ih (k := k) (R := R) (Q := fun v c' =>
    (group before inner after).Reads c rest (ofBool (upTruth v)) (accept .closeBracket c'))
    hinner (nextToken_single (by decide : IsSingle ')') after.2 (by decide)) ?_ ?_
  · rwa [← hk] at hpost
  · rw [hstore]
    exact hR
  · rintro v c' ⟨htruth, hdone, hfits⟩
    rw [hstore] at htruth hdone hfits
    obtain ⟨htoken, hclosed⟩ := hdone.at_close after.2 hready.quiet
    rw [post_upConditionalLoop_end (by omega)]
    · exact ⟨by rw [upTruth_ofBool]; exact htruth, hclosed, hfits⟩
    · rw [htoken]
      exact ⟨Token.noConfusion, Token.noConfusion⟩

theorem spec_group {before after : Blanks} {inner : Cond .disjunction} (ih : inner.Spec calls)
    (hplain : inner.Plain) (hspaced : inner.Spaced)
    (hclear : 0 < inner.leading ∨ inner.isRelation) : (group before inner after).Spec calls := by
  intro n c rest R hready hnext hR
  by_cases hpos : 0 < inner.leading
  · exact post_upBoolOperand_brackets ih hplain hspaced hpos hready hR
  · have hrelation : inner.isRelation := hclear.resolve_left hpos
    have hfuel : inner.size + 2 < n := hready.fuel
    obtain ⟨hopen, hstore, hsecond, -⟩ := hready.inner hplain hspaced (by omega : inner.size < n)
    rw [post_upBoolOperand_relation hopen (fun h => hpos (hsecond.mp h)) hstore]
    apply Post.upRelationTerm
    exact post_upRelationExpr (group before inner after) (inner.isPure_of_isRelation hrelation)
      hplain hspaced hready hnext hR

theorem spec_ofAtom {p : Cond .atom} (ih : p.Spec calls) (hplain : p.Plain) :
    (ofAtom p).Spec calls := by
  intro n k negate c rest R hready hk hnext hR
  have hready' : p.Ready calls n c rest :=
    ⟨hready.place, hready.boundary, hready.quiet, hready.vars, hready.fuel⟩
  have htoken : c.currentToken ≠ .keyword "NOT" := by
    rcases p.atom_token hplain hready'.boundary hready'.place with h | h | h | h | h <;>
      · rw [h]
        exact Token.noConfusion
  rw [post_boolTermFrom_end (Nat.zero_lt_of_lt hk) htoken]
  refine Post.mono (ih hready' hnext hR) ?_ fun _ h => h
  rintro v c' ⟨htruth, hdone, hfits⟩
  exact ⟨by rw [upTruth_upNegated, htruth]; rfl, hdone, hfits⟩

theorem spec_not {blanks : Blanks} {p : Cond .negation} (ih : p.Spec calls) (hplain : p.Plain)
    (hspaced : (not blanks p).Spaced) : (not blanks p).Spec calls := by
  intro n k negate c rest R hready hk hnext hR
  have hplace := hready.place
  rw [text, List.append_assoc, List.append_assoc] at hplace
  obtain ⟨htoken, d, hd, hstore, hread⟩ := hplace.advance_word (by decide) blanks.2
    (endsWord_right hspaced.1 rest) (p.text_append_head rest)
  have hsame := (p.readToken_start hplain hspaced.2 hready.boundary hd).1
  rw [hstore, ← hread] at hsame
  have hfuel : p.size + 1 < n := hready.fuel
  have hsize : p.size + 1 < k := hk
  obtain ⟨k, rfl⟩ := Nat.exists_eq_succ_of_ne_zero (Nat.ne_zero_of_lt hk)
  have hready' : p.Ready calls n (tokenizerNext c) rest := by
    refine ⟨?_, hready.boundary, hready.quiet, ?_, by omega⟩
    · rw [hread]
      exact readToken_at hd
    · rw [hsame]
      exact hready.vars
  rw [post_boolTermFrom_not htoken]
  refine Post.mono (ih (!negate) hready' (by omega) hnext ?_) ?_ fun _ h => h
  · rw [hsame]
    exact hR
  rintro v c' ⟨htruth, hdone, hfits⟩
  rw [hsame] at htruth hdone hfits
  refine ⟨?_, hdone, hfits⟩
  rw [htruth]
  change _ = (negate ^^ !(p.eval c.store).1)
  cases negate <;> simp

theorem spec_ofNegation {p : Cond .negation} (ih : p.Spec calls) : (ofNegation p).Spec calls := by
  have hterm : (ofNegation p).TermSpec calls := by
    intro n c rest R hready hnext hR
    have hready' : p.Ready calls n c rest :=
      ⟨hready.place, hready.boundary, hready.quiet, hready.vars, hready.fuel⟩
    exact (ih.post_boolTerm hready' hnext hR).mono
      (fun v c' h => ⟨h.truth, h.done, h.fits⟩) fun _ h => h
  refine ⟨?_, fun _ => hterm⟩
  intro n k c rest Q R hready hnext hR hloop
  unfold condFrom
  rw [post_bind]
  exact (hterm hready hnext hR).mono (fun v c' h => hloop v c' h) fun _ h => h

theorem spec_and {left : Cond .conjunction} {before after : Blanks} {right : Cond .negation}
    (ihl : left.Spec calls) (ihr : right.Spec calls) (hplain : right.Plain)
    (hspaced : (and left before after right).Spaced) :
    (and left before after right).Spec calls := by
  refine ⟨?_, fun h => Bool.noConfusion h⟩
  intro n k c rest Q R hready hnext hR hloop
  obtain ⟨hboundary, hends, -, hspaced⟩ := hspaced
  have hword : "AND" ∈ operatorWords := by decide
  have hfuel : left.size + right.size + 1 < n := hready.fuel
  have hplace := hready.place
  rw [text, List.append_assoc, List.append_assoc, List.append_assoc, List.append_assoc] at hplace
  obtain ⟨hleft, hnextl⟩ := ready_left "AND" hword hplace hboundary hends hready.vars.1
    (by omega : left.size < n)
  change Post (condFrom calls n (k + (left.ops + 1))) c Q R
  rw [← Nat.add_assoc, Nat.add_right_comm]
  apply ihl.1 hleft hnextl fun h => hR (Or.inl h)
  rintro a c₁ ⟨htruthl, hdonel, hfitsl⟩
  obtain ⟨htoken, hstore, hright⟩ := ready_right "AND" hword hdonel hends hplain hspaced
    hready.boundary hready.quiet hready.vars.2 (by omega : right.size < n)
  rw [post_upConditionalLoop_and htoken]
  refine (ihr.post_boolTerm hright hnext ?_).mono ?_ fun _ h => h
  · rw [hstore]
    exact fun h => hR (Or.inr h)
  rintro b c₂ ⟨htruthr, hdoner, hfitsr⟩
  rw [hstore] at htruthr hdoner hfitsr
  apply hloop
  refine ⟨?_, hdoner, ?_⟩
  · rw [upTruth_ofBool, htruthl, htruthr]
    rfl
  · rintro (h | h)
    · exact hfitsl h
    · exact hfitsr h

theorem spec_ofConjunction {p : Cond .conjunction} (ih : p.Spec calls) :
    (ofConjunction p).Spec calls := by
  intro n k c rest Q R hready hnext hR hloop
  have hready' : p.Ready calls n c rest :=
    ⟨hready.place, hready.boundary, hready.quiet, hready.vars, hready.fuel⟩
  exact ih.1 hready' hnext hR fun v c' h => hloop v c' ⟨h.truth, h.done, h.fits⟩

theorem spec_or {left : Cond .disjunction} {before after : Blanks} {right : Cond .conjunction}
    (ihl : left.Spec calls) (ihr : right.Spec calls) (hplain : right.Plain)
    (hspaced : (or left before after right).Spaced) (hterm : right.noAnd) :
    (or left before after right).Spec calls := by
  intro n k c rest Q R hready hnext hR hloop
  obtain ⟨hboundary, hends, -, hspaced⟩ := hspaced
  have hword : "OR" ∈ operatorWords := by decide
  have hfuel : left.size + right.size + 1 < n := hready.fuel
  have hplace := hready.place
  rw [text, List.append_assoc, List.append_assoc, List.append_assoc, List.append_assoc] at hplace
  obtain ⟨hleft, hnextl⟩ := ready_left "OR" hword hplace hboundary hends hready.vars.1
    (by omega : left.size < n)
  change Post (condFrom calls n (k + (left.ops + 1))) c Q R
  rw [← Nat.add_assoc, Nat.add_right_comm]
  apply ihl hleft hnextl fun h => hR (Or.inl h)
  rintro a c₁ ⟨htruthl, hdonel, hfitsl⟩
  obtain ⟨htoken, hstore, hright⟩ := ready_right "OR" hword hdonel hends hplain hspaced
    hready.boundary hready.quiet hready.vars.2 (by omega : right.size < n)
  rw [post_upConditionalLoop_or htoken]
  refine (ihr.2 hterm hright hnext ?_).mono ?_ fun _ h => h
  · rw [hstore]
    exact fun h => hR (Or.inr h)
  rintro b c₂ ⟨htruthr, hdoner, hfitsr⟩
  rw [hstore] at htruthr hdoner hfitsr
  apply hloop
  refine ⟨?_, hdoner, ?_⟩
  · rw [upTruth_ofBool, htruthl, htruthr]
    rfl
  · rintro (h | h)
    · exact hfitsl h
    · exact hfitsr h

theorem spec (p : Cond l) (hplain : p.Plain) (hspaced : p.Spaced) (hclear : p.Clear) :
    p.Spec calls := by
  induction p with
  | relation r => exact spec_relation hplain hclear
  | group before inner after ih =>
    exact spec_group (ih hplain hspaced hclear.1) hplain hspaced hclear.2
  | ofAtom p ih => exact spec_ofAtom (ih hplain hspaced hclear) hplain
  | not blanks p ih => exact spec_not (ih hplain hspaced.2 hclear) hplain hspaced
  | ofNegation p ih => exact spec_ofNegation (ih hplain hspaced hclear)
  | and left before after right ihl ihr =>
    exact spec_and (ihl hplain.1 hspaced.2.2.1 hclear.1) (ihr hplain.2 hspaced.2.2.2 hclear.2)
      hplain.2 hspaced
  | ofConjunction p ih => exact spec_ofConjunction (ih hplain hspaced hclear)
  | or left before after right ihl ihr =>
    exact spec_or (ihl hplain.1 hspaced.2.2.1 hclear.1) (ihr hplain.2 hspaced.2.2.2 hclear.2.1)
      hplain.2 hspaced hclear.2.2

end Cond

/-! ## The evaluator and the documented grammar -/

def EndsCondition (tok : Token) : Prop :=
  EndsRelation tok ∧ tok ≠ .keyword "AND" ∧ tok ≠ .keyword "OR"

instance : DecidablePred EndsCondition := fun _ => inferInstanceAs (Decidable (_ ∧ _))

/-- With enough fuel, `up_conditional` stops where the rest of the text starts and returns what the
condition says, and so does `up_relation_i` if the condition has no operators. -/
def ParseCtx.Decides (calls : Calls) (c : ParseCtx) (p : Cond .disjunction) (rest : List Char) :
    Prop :=
  ∃ fuel, ∀ n ≥ fuel,
    (∃ c', upConditional calls n c = (some (p.eval c.store).1, c') ∧
      c'.ptr = rest.dropWhile isBlank ∧ c'.store = (p.eval c.store).2) ∧
    (p.isPure → ∃ i c', upRelationI calls n c = (some i, c') ∧ (i != 0) = (p.eval c.store).1 ∧
      c'.ptr = rest.dropWhile isBlank ∧ c'.store = (p.eval c.store).2)

namespace Cond

section Conditional

variable {R : ParseCtx → Prop}

/-- A condition that the loop of `up_conditional` goes on behind, up to the end of the text. -/
theorem LoopSpec.post_upConditional {l : CondLevel} {p : Cond l} (h : p.LoopSpec calls)
    (hready : p.Ready calls n c rest) (hnext : NextToken EndsCondition rest)
    (hR : p.Overflows c.store → ∀ c', R c') :
    Post (upConditional calls (n + 1)) c (fun b c' => p.Reads c rest (ofBool b) c') R := by
  have hops := p.ops_le_size
  have hfuel := hready.fuel
  obtain ⟨k, hk⟩ : ∃ k, n = k + p.ops := ⟨n - p.ops, by omega⟩
  rw [BasicExpr.post_upConditional]
  have hpost := h (k := k) (Q := fun v c' => p.Reads c rest (ofBool (upTruth v)) c') hready
    (fun d hd => (hnext d hd).1) hR ?_
  · rwa [← hk] at hpost
  rintro v c' ⟨htruth, hdone, hfits⟩
  rw [post_upConditionalLoop_end (by omega) (hdone.token
    (P := fun tok => tok ≠ .keyword "AND" ∧ tok ≠ .keyword "OR") (fun d hd => (hnext d hd).2)
    ⟨Token.noConfusion, Token.noConfusion⟩)]
  exact ⟨by rw [upTruth_ofBool]; exact htruth, hdone, hfits⟩

/-- `up_conditional` ends behind brackets around a condition, whatever comes behind them. -/
theorem post_upConditional_brackets (before : Blanks) (inner : Cond .disjunction) (after : Blanks)
    (rest : List Char) (hplain : inner.Plain) (hspaced : inner.Spaced) (hclear : inner.Clear)
    (hleading : 0 < inner.leading) (hready : (group before inner after).Ready calls n c rest)
    (hnext : NextToken (fun tok => tok ≠ .keyword "AND" ∧ tok ≠ .keyword "OR") rest)
    (hR : inner.Overflows c.store → ∀ c', R c') :
    Post (upConditional calls (n + 1)) c
      (fun b c' => (group before inner after).Reads c rest (ofBool b) c') R := by
  have hpos : 0 < n := Nat.zero_lt_of_lt hready.fuel
  have hspec : inner.Spec calls := inner.spec hplain hspaced hclear
  obtain ⟨hopen, -⟩ := hready.inner hplain hspaced (Nat.lt_succ_self inner.size)
  rw [BasicExpr.post_upConditional]
  unfold condFrom
  rw [post_bind]
  change Post (boolTermFrom calls n n false) c _ R
  rw [post_boolTermFrom_end hpos (by rw [hopen]; exact Token.noConfusion)]
  refine (post_upBoolOperand_brackets hspec hplain hspaced hleading hready hR).mono ?_ fun _ h => h
  rintro v c' ⟨htruth, hdone, hfits⟩
  rw [post_upConditionalLoop_end hpos
    (hdone.token hnext ⟨Token.noConfusion, Token.noConfusion⟩)]
  exact ⟨by rw [upTruth_ofBool]; exact htruth, hdone, hfits⟩

/-- An `AND` takes all that is to its left. -/
theorem post_upConditional_and (left : Cond .disjunction) (before after : Blanks)
    (right : Cond .negation) (rest : List Char) (hleft : left.Spec calls)
    (hright : right.Spec calls) (hplain : right.Plain) (hspaced : right.Spaced)
    (hboundary : ∀ more, left.Boundary (before.1 ++ ("AND".toList ++ more)))
    (hends : EndsWord (after.1 ++ right.text))
    (hplace : c.At (left.text ++ (before.1 ++ ("AND".toList ++ (after.1 ++ (right.text ++ rest))))))
    (hlast : right.Boundary rest) (hquiet : Quiet rest) (hnext : NextToken EndsCondition rest)
    (hvars : left.Vars (IsIntVariable calls c.store) ∧ right.Vars (IsIntVariable calls c.store))
    (hn : left.size + right.size + 1 < n) :
    Post (upConditional calls (n + 1)) c
      (fun b _ => b = ((left.eval c.store).1 && (right.eval (left.eval c.store).2).1))
      fun _ => True := by
  have hword : "AND" ∈ operatorWords := by decide
  have hops := left.ops_le_size
  obtain ⟨k, hk⟩ : ∃ k, n = k + 1 + 1 + left.ops := ⟨n - left.ops - 2, by omega⟩
  obtain ⟨hready, hnextl⟩ := ready_left "AND" hword hplace hboundary hends hvars.1
    (by omega : left.size < n)
  rw [BasicExpr.post_upConditional]
  have hpost := hleft (k := k + 1 + 1) (R := fun _ => True) (Q := fun v _ =>
    upTruth v = ((left.eval c.store).1 && (right.eval (left.eval c.store).2).1)) hready hnextl
    (fun _ _ => trivial) ?_
  · rwa [← hk] at hpost
  rintro a c₁ ⟨htruthl, hdonel, -⟩
  obtain ⟨htoken, hstore, hready₁⟩ := ready_right "AND" hword hdonel hends hplain hspaced hlast
    hquiet hvars.2 (by omega : right.size < n)
  rw [post_upConditionalLoop_and htoken]
  refine (hright.post_boolTerm hready₁ (fun d hd => (hnext d hd).1) fun _ _ => trivial).mono ?_
    fun _ h => h
  rintro b c₂ ⟨htruthr, hdoner, -⟩
  rw [hstore] at htruthr
  rw [post_upConditionalLoop_end k.succ_pos (hdoner.token
    (P := fun tok => tok ≠ .keyword "AND" ∧ tok ≠ .keyword "OR") (fun d hd => (hnext d hd).2)
    ⟨Token.noConfusion, Token.noConfusion⟩), upTruth_ofBool, htruthl, htruthr]

end Conditional

end Cond

/-- A clear condition is read as the documentation has it, if no division overflows. -/
theorem decides_of_clear {p : Cond .disjunction} (hplace : c.At (p.text ++ rest))
    (hboundary : p.Boundary rest) (hquiet : Quiet rest) (hnext : NextToken EndsCondition rest)
    (hvars : p.Vars (IsIntVariable calls c.store)) (hspaced : p.Spaced) (hplain : p.Plain)
    (hclear : p.Clear) (hfits : ¬ p.Overflows c.store) : c.Decides calls p rest := by
  refine ⟨p.size + 2, fun n hn => ⟨?_, fun hpure => ?_⟩⟩
  · obtain ⟨n, rfl⟩ := Nat.exists_eq_succ_of_ne_zero (Nat.ne_zero_of_lt hn)
    have hspec : p.LoopSpec calls := p.spec hplain hspaced hclear
    have hpost := hspec.post_upConditional (R := fun _ => False)
      ⟨hplace, hboundary, hquiet, hvars, Nat.lt_of_succ_lt_succ hn⟩ hnext fun h => absurd h hfits
    obtain ⟨result, c', hrun⟩ : ∃ r c', upConditional calls (n + 1) c = (r, c') := ⟨_, _, rfl⟩
    cases result with
    | none => exact absurd (hpost.of_eq_none hrun) id
    | some b =>
      have hreads : p.Reads c rest (ofBool b) c' := hpost.of_eq_some hrun
      obtain ⟨htruth, hdone, -⟩ := hreads
      rw [upTruth_ofBool] at htruth
      rw [htruth] at hrun
      exact ⟨c', hrun, hdone.ptr, hdone.store⟩
  · have hpost : Post (upRelationI calls n) c (fun i c' => p.Reads c rest (.int i) c')
        fun _ => False := by
      unfold upRelationI
      rw [post_bind]
      refine (p.post_upRelationExpr hpure hplain hspaced
        ⟨hplace, hboundary, hquiet, hvars, by omega⟩ (fun d hd => (hnext d hd).1)
        fun h => absurd h hfits).mono ?_ fun _ h => h
      rintro v c' ⟨⟨i, rfl⟩, hreads⟩
      exact hreads
    obtain ⟨result, c', hrun⟩ : ∃ r c', upRelationI calls n c = (r, c') := ⟨_, _, rfl⟩
    cases result with
    | none => exact absurd (hpost.of_eq_none hrun) id
    | some i =>
      have hreads : p.Reads c rest (.int i) c' := hpost.of_eq_some hrun
      obtain ⟨htruth, hdone, -⟩ := hreads
      exact ⟨i, c', hrun, htruth, hdone.ptr, hdone.store⟩

/-! ## Conditions on the variable of a program -/

def oneBlank : Blanks := ⟨[' '], rfl⟩

def valueOf (p : Phrase .factor) : Phrase .value := .ofTerm (.ofUnary (.ofFactor p))

def factorIs (p : Phrase .factor) (digits : Digits) : Cond .negation :=
  .ofAtom (.relation (.compare (.value (valueOf p)) noBlanks .equal noBlanks
    (valueOf (.literal digits))))

def bracketsOf (p : Phrase .factor) : Phrase .factor := .brackets noBlanks (valueOf p) noBlanks

/-- The text `NOT A=2 AND (A)=7`. -/
def notTwoAndSeven : Cond .disjunction :=
  .ofConjunction
    (.and (.ofNegation (.not oneBlank (factorIs (.var nameA) digitTwo))) oneBlank oneBlank
    (factorIs (bracketsOf (.var nameA)) digitSeven))

theorem decides_of_clear_notTwoAndSeven :
    (startCtx (notTwoAndSeven.text ++ ['\n'])).Decides noCalls notTwoAndSeven ['\n'] := by
  have hnewline : IsSingle '\n' := by decide
  have hblanks : ([] : List Char).all isBlank := rfl
  have hvar : IsIntVariable noCalls (startCtx (notTwoAndSeven.text ++ ['\n'])).store ['A'] :=
    ⟨⟨rfl, rfl⟩, rfl, rfl, rfl⟩
  apply decides_of_clear (startCtx_at _)
  · rintro ch ⟨⟩
    decide
  · exact quiet_single hnewline hblanks
  · exact nextToken_single hnewline hblanks (by decide)
  · exact ⟨⟨hvar, trivial⟩, hvar, trivial⟩
  · refine ⟨?_, ?_, ⟨?_, trivial⟩, trivial⟩
    · rintro more ch ⟨⟩
      decide
    · rintro ch ⟨⟩
      decide
    · rintro ch ⟨⟩
      decide
  · exact ⟨⟨trivial, (by decide : 1 < maxNumlen)⟩, trivial, (by decide : 1 < maxNumlen)⟩
  · exact ⟨(by decide : 0 < 2), (by decide : 1 < 2)⟩
  · rintro ((h | h) | (h | h)) <;> exact h

/-- The text `A=7 OR A=7 AND A=2`. -/
def sevenOrSevenAndTwo : Cond .disjunction :=
  .or (.ofConjunction (.ofNegation (factorIs (.var nameA) digitSeven))) oneBlank oneBlank
    (.and (.ofNegation (factorIs (.var nameA) digitSeven)) oneBlank oneBlank
      (factorIs (.var nameA) digitTwo))

/-- The text `((A))=7`. -/
def bracketedSeven : Cond .disjunction :=
  .ofConjunction (.ofNegation (factorIs (bracketsOf (bracketsOf (.var nameA))) digitSeven))

section Misread

variable (hvar : IsIntVariable noCalls c.store ['A'])

include hvar

theorem sevenOrSevenAndTwo_not_decides (hseven : c.store.intVariable ['A'] = some 7)
    (hplace : c.At (sevenOrSevenAndTwo.text ++ ['\n'])) :
    ¬ c.Decides noCalls sevenOrSevenAndTwo ['\n'] := by
  rintro ⟨fuel, hfuel⟩
  obtain ⟨⟨c', hrun, -, -⟩, -⟩ := hfuel (fuel + 20 + 1) (by omega)
  have hnewline : IsSingle '\n' := by decide
  have hblanks : ([] : List Char).all isBlank := rfl
  have hdigit : ∀ more, EndsNumber (' ' :: more) := by
    rintro more ch ⟨⟩
    decide
  have hblank : ∀ text, EndsWord (' ' :: text) := by
    rintro text ch ⟨⟩
    decide
  have hlast : EndsNumber ['\n'] := by
    rintro ch ⟨⟩
    decide
  have hlen : 1 < maxNumlen := by decide
  have htwo : 0 < 2 := by decide
  let right : Cond .negation := factorIs (.var nameA) digitTwo
  let left : Cond .disjunction :=
    .or (.ofConjunction (.ofNegation (factorIs (.var nameA) digitSeven))) oneBlank oneBlank
      (.ofNegation (factorIs (.var nameA) digitSeven))
  have hleft : left.Spec noCalls := left.spec ⟨⟨trivial, hlen⟩, trivial, hlen⟩
    ⟨fun _ => hdigit _, hblank _, trivial, trivial⟩ ⟨htwo, htwo, rfl⟩
  have hright : right.Spec noCalls := right.spec ⟨trivial, hlen⟩ trivial htwo
  have hsize : left.size + right.size + 1 < fuel + 20 := by
    change 14 < fuel + 20
    omega
  have hpost := Cond.post_upConditional_and left oneBlank oneBlank right ['\n'] hleft hright
    ⟨trivial, hlen⟩ trivial (fun _ => hdigit _) (hblank _) hplace hlast
    (quiet_single hnewline hblanks) (nextToken_single hnewline hblanks (by decide))
    ⟨⟨⟨hvar, trivial⟩, hvar, trivial⟩, hvar, trivial⟩ hsize
  have hvalue := hpost.of_eq_some hrun
  have hsame : ∀ d : Digits, (factorIs (.var nameA) d).eval c.store =
      (decide (7 = BitVec.ofNat 64 d.value), c.store) := by
    intro d
    have hA : (c.store.intVariable nameA.name).getD 0 = 7 := by
      rw [show nameA.name = ['A'] from rfl, hseven]
      rfl
    simp only [factorIs, valueOf, Cond.eval, RelPhrase.eval, Phrase.tree, ArithExpr.eval, hA,
      Relation.test]
    cases decide (7 = BitVec.ofNat 64 d.value) <;> rfl
  simp only [sevenOrSevenAndTwo, left, right, Cond.eval, hsame] at hvalue
  exact absurd hvalue (by decide)

theorem bracketedSeven_not_decides (hplace : c.At (bracketedSeven.text ++ ['\n'])) :
    ¬ c.Decides noCalls bracketedSeven ['\n'] := by
  rintro ⟨fuel, hfuel⟩
  obtain ⟨⟨c', hrun, hptr, -⟩, -⟩ := hfuel (fuel + 20 + 1) (by omega)
  have hequals : IsSingle '=' := by decide
  have hblanks : ([] : List Char).all isBlank := rfl
  let inner : Cond .disjunction :=
    .ofConjunction (.ofNegation (.ofAtom (.relation (.value (valueOf (bracketsOf (.var nameA)))))))
  have hready :
      (Cond.group noBlanks inner noBlanks).Ready noCalls (fuel + 20) c ['=', '7', '\n'] := by
    refine ⟨hplace, trivial, quiet_single hequals hblanks, hvar, ?_⟩
    change 5 < fuel + 20
    omega
  have hpost := Cond.post_upConditional_brackets noBlanks inner noBlanks ['=', '7', '\n'] trivial
    trivial (by decide : 1 < 2) (by decide : 0 < 1) hready
    (nextToken_single hequals hblanks (by decide)) (R := fun _ => True) fun _ _ => trivial
  have hreads := hpost.of_eq_some hrun
  have hstop := hreads.done.ptr
  rw [hptr] at hstop
  exact absurd hstop (by decide)

end Misread

/-- The parser takes `AND` and `OR` from the left, and two brackets for those of a condition. -/
theorem mixed_and_bracketed_not_decide :
    ¬ (startCtx (sevenOrSevenAndTwo.text ++ ['\n'])).Decides noCalls sevenOrSevenAndTwo ['\n'] ∧
      ¬ (startCtx (bracketedSeven.text ++ ['\n'])).Decides noCalls bracketedSeven ['\n'] :=
  ⟨sevenOrSevenAndTwo_not_decides ⟨⟨rfl, rfl⟩, rfl, rfl, rfl⟩ rfl (startCtx_at _),
    bracketedSeven_not_decides ⟨⟨rfl, rfl⟩, rfl, rfl, rfl⟩ (startCtx_at _)⟩

end RetroRocket
