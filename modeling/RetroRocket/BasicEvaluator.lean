import RetroRocket.BasicArithmetic

/-!
# What the evaluator makes of an arithmetic expression

A phrase that is not plain is not read to its end: the word `MOD` is the name of a variable, and a
long literal is no token, and either of them stops every level. So the evaluator does what the tree
of an expression says just when the phrase is plain and no division overflows.
-/

namespace RetroRocket

open RetroRocket.Action BasicExpr

variable {c c' d : ParseCtx} {rest : List Char} {calls : Calls} {n : ℕ}

structure ParseCtx.Stuck (c : ParseCtx) (rest : List Char) : Prop where
  token : c.currentToken = .variable ∨ c.currentToken = .noToken
  before : rest.length < c.ptr.length

namespace ParseCtx.Stuck

theorem report (h : c.Stuck rest) (error : String) : (tokenizerErrorPrint error c).Stuck rest :=
  ⟨h.token, h.before⟩

theorem mono {more : List Char} (h : c.Stuck (more ++ rest)) : c.Stuck rest := by
  refine ⟨h.token, lt_of_le_of_lt ?_ h.before⟩
  rw [List.length_append]
  exact Nat.le_add_left _ _

theorem currentToken_ne {tok : Token} (h : c.Stuck rest) (hvariable : Token.variable ≠ tok)
    (hnone : Token.noToken ≠ tok) : c.currentToken ≠ tok := by
  rcases h.token with htoken | htoken
  · rw [htoken]
    exact hvariable
  · rw [htoken]
    exact hnone

end ParseCtx.Stuck

section Actions

variable {k : ℕ} {Q : Value → ParseCtx → Prop} {R : ParseCtx → Prop} {v rhs : Value}

theorem Stuck.upTermLoop {unary : Action ParseCtx Value} (hk : 0 < k) (h : c.Stuck rest) :
    Post (upTermLoop unary k v) c (fun _ c' => c'.Stuck rest) fun _ => True := by
  rw [Phrase.post_upTermLoop_end hk]
  · exact h
  · exact ⟨h.currentToken_ne (by decide) (by decide), h.currentToken_ne (by decide) (by decide),
      h.currentToken_ne (by decide) (by decide)⟩

theorem Stuck.upValueLoop {term : Action ParseCtx Value} (hk : 0 < k) (h : c.Stuck rest) :
    Post (upValueLoop term k v) c (fun _ c' => c'.Stuck rest) fun _ => True := by
  rw [Phrase.post_upValueLoop_end hk]
  · exact h
  · exact ⟨h.currentToken_ne (by decide) (by decide), h.currentToken_ne (by decide) (by decide)⟩

theorem Stuck.upSigned {sawSign negate : Bool} (h : c.Stuck rest) :
    Post (upSigned sawSign negate v) c (fun _ c' => c'.Stuck rest) fun _ => True := by
  cases sawSign with
  | false => exact h
  | true =>
    cases v with
    | int i => exact h
    | double r => exact h
    | string s => exact h.report _

theorem Stuck.upNumbers {error : String} (h : c.Stuck rest) :
    Post (upNumbers error v rhs) c (fun _ c' => c'.Stuck rest) fun _ => True := by
  unfold BasicExpr.upNumbers
  split
  · exact h.report _
  · exact h

theorem Stuck.checkedDivision {divide : BitVec 64 → BitVec 64 → BitVec 64} {a b : BitVec 64}
    (h : c.Stuck rest) :
    Post (checkedDivision divide a b) c (fun _ c' => c'.Stuck rest) fun _ => True := by
  unfold BasicExpr.checkedDivision
  split_ifs
  · exact h.report _
  · trivial
  · exact h

theorem Stuck.run {op : TermOp} (h : c.Stuck rest) :
    Post (TermOp.run op v rhs) c (fun _ c' => c'.Stuck rest) fun _ => True := by
  unfold TermOp.run
  rw [post_bind]
  refine (Stuck.upNumbers h).mono ?_ fun _ h => h
  rintro pair c' h
  cases op with
  | asterisk => cases pair <;> exact h
  | slash =>
    cases pair with
    | ints a b => exact Stuck.checkedDivision h
    | doubles a b =>
      change Post (upDivide (.doubles a b)) c' _ _
      unfold upDivide
      dsimp only
      split
      · exact h.report _
      · exact h
  | percent => cases pair <;> exact Stuck.checkedDivision h
  | modWord => cases pair <;> exact Stuck.checkedDivision h

end Actions

def Phrase.Misread (calls : Calls) : {l : Level} → Phrase l → Prop
  | .factor, p => ∀ {n c rest}, p.Ready calls n c rest →
      Post (factorAt calls n) c (fun _ c' => c'.Stuck rest) fun _ => True
  | .unary, p => ∀ {n k : ℕ} (sawSign negate : Bool) {c rest}, p.Ready calls n c rest → p.size < k →
      Post (signedFrom calls n k sawSign negate) c (fun _ c' => c'.Stuck rest) fun _ => True
  | .term, p => ∀ {n k c rest}, p.Ready calls n c rest → p.ops < k →
      Post (termFrom calls n k) c (fun _ c' => c'.Stuck rest) fun _ => True
  | .value, p => ∀ {n k c rest}, p.Ready calls n c rest → p.ops < k →
      NextToken (fun tok => tok ≠ .asterisk ∧ tok ≠ .slash ∧ tok ≠ .mod) rest →
      Post (valueFrom calls n k) c (fun _ c' => c'.Stuck rest) fun _ => True

namespace Phrase

variable {l : Level}

theorem misread_literal {digits : Digits} (hlong : ¬ (literal digits).Plain) :
    (literal digits).Misread calls := by
  intro n c rest hready
  obtain ⟨d, hd, hptr, -, htoken⟩ := hready.place.read
  obtain ⟨hnone, hsame⟩ :=
    readToken_tooLong digits.ne_nil digits.isDigit hd (Nat.le_of_not_lt hlong)
  rw [hnone] at htoken
  rw [hsame, hd] at hptr
  rw [post_upFactor_noToken (by have := hready.fuel; omega) htoken]
  apply ParseCtx.Stuck.report
  refine ⟨Or.inr htoken, ?_⟩
  rw [hptr, text, List.length_append]
  have hpos := List.length_pos_iff.mpr digits.ne_nil
  omega

theorem misread_brackets {before after : Blanks} {inner : Phrase .value}
    (ih : inner.Misread calls) : (brackets before inner after).Misread calls := by
  intro n c rest hready
  have hclose : IsSingle ')' := by decide
  have hplace := hready.place
  rw [text, List.cons_append, List.append_assoc, List.append_assoc, List.append_assoc] at hplace
  obtain ⟨htoken, hat, hvars⟩ := inner.advance calls hplace (by decide) before.2
  obtain ⟨n, rfl⟩ := Nat.exists_eq_succ_of_ne_zero (Nat.ne_zero_of_lt hready.fuel)
  have hinner : inner.Ready calls n (tokenizerNext c) (after.1 ++ ')' :: rest) :=
    ⟨hat, inner.boundary_blanks after.2 (by decide), quiet_single hclose after.2,
      ArithExpr.Vars.imp hready.vars hvars, Nat.lt_of_succ_lt_succ hready.fuel⟩
  have hpos : 0 < n := Nat.zero_lt_of_lt hinner.fuel
  rw [post_upFactor_openBracket n.succ_pos htoken]
  unfold upRelationExpr upRelationOver
  rw [post_bind]
  refine (ih hinner (lt_of_le_of_lt inner.ops_le_size hinner.fuel)
    (nextToken_single hclose after.2 (by decide))).mono ?_ fun _ h => h
  intro v c' hstuck
  obtain ⟨n, rfl⟩ := Nat.exists_eq_succ_of_ne_zero hpos.ne'
  unfold upRelationLoop
  rw [post_bind, post_token, if_neg, post_pure]
  · have hclosed : Token.closeBracket ≠ c'.currentToken :=
      (hstuck.currentToken_ne (by decide) (by decide)).symm
    unfold accept
    rw [if_pos hclosed]
    apply ParseCtx.Stuck.report
    have hrest : c'.Stuck ((after.1 ++ [')']) ++ rest) := by
      rw [List.append_assoc]
      exact hstuck
    exact hrest.mono
  · rintro (h | h | h)
    · exact hstuck.currentToken_ne (by decide) (by decide) h
    · exact hstuck.currentToken_ne (by decide) (by decide) h
    · exact hstuck.currentToken_ne (by decide) (by decide) h

theorem factor_token_of_not_plain (p : Phrase .factor) (hplain : ¬ p.Plain)
    (h : c.At (p.text ++ rest)) : c.currentToken ≠ .plus ∧ c.currentToken ≠ .minus := by
  obtain ⟨d, hd, -, -, htoken⟩ := h.read
  rw [htoken]
  cases p with
  | literal digits =>
    obtain ⟨hnone, -⟩ :=
      readToken_tooLong digits.ne_nil digits.isDigit hd (Nat.le_of_not_lt hplain)
    rw [hnone]
    exact ⟨Token.noConfusion, Token.noConfusion⟩
  | var v => exact absurd trivial hplain
  | brackets before inner after =>
    rw [readToken_isSingle (by decide) hd]
    exact ⟨Token.noConfusion, Token.noConfusion⟩

theorem misread_ofFactor {p : Phrase .factor} (ih : p.Misread calls) (hplain : ¬ p.Plain) :
    (ofFactor p).Misread calls := by
  intro n k sawSign negate c rest hready hk
  have hready' : p.Ready calls n c rest :=
    ⟨hready.place, hready.boundary, hready.quiet, hready.vars, hready.fuel⟩
  rw [post_signedFrom_end (by omega) (p.factor_token_of_not_plain hplain hready'.place)]
  exact (ih hready').mono (fun v c' h => Stuck.upSigned h) fun _ h => h

theorem misread_signed {sign : Sign} {blanks : Blanks} {p : Phrase .unary} (ih : p.Misread calls) :
    (signed sign blanks p).Misread calls := by
  intro n k sawSign negate c rest hready hk
  have hplace := hready.place
  rw [text, List.cons_append, List.append_assoc] at hplace
  obtain ⟨htoken, hat, hvars⟩ :=
    p.advance calls hplace (by cases sign <;> decide) blanks.2
  have hfuel : p.size + 1 < n := hready.fuel
  have hsize : p.size + 1 < k := hk
  obtain ⟨k, rfl⟩ := Nat.exists_eq_succ_of_ne_zero (Nat.ne_zero_of_lt hk)
  rw [post_signedFrom_sign sign htoken]
  exact ih true _ ⟨hat, hready.boundary, hready.quiet,
    ArithExpr.Vars.imp (vars_operand hready.vars) hvars, by omega⟩ (by omega)

theorem misread_ofUnary {p : Phrase .unary} (ih : p.Misread calls) :
    (ofUnary p).Misread calls := by
  intro n k c rest hready hk
  have hready' : p.Ready calls n c rest :=
    ⟨hready.place, hready.boundary, hready.quiet, hready.vars, hready.fuel⟩
  unfold termFrom
  rw [post_bind]
  exact (ih false false hready' hready'.fuel).mono
    (fun v c' h => Stuck.upTermLoop (Nat.zero_lt_of_lt hk) h) fun _ h => h

/-! ## The word `MOD` -/

def modName : VarName where
  name := ['M', 'O', 'D']
  start := ⟨'M', rfl, by decide⟩
  chars := List.all_eq_true.mp (by decide)
  length := by decide
  keyword := by decide +kernel
  proc := by decide +kernel

theorem readToken_modWord {more : List Char} {before : Blanks}
    (hd : d.ptr = (before.1 ++ (TermOp.modWord.text ++ more)).dropWhile isBlank) :
    readToken d = { d with currentToken := .variable, nextptr := ' ' :: more } ∧
      d.ptr = modName.name ++ ' ' :: more := by
  rw [dropWhile_isBlank_append before.2] at hd
  refine ⟨readToken_name modName hd ?_, hd⟩
  rintro ch ⟨⟩
  exact ⟨by decide, by decide, by decide, by decide⟩

theorem quiet_op (op : TermOp) (before : Blanks) (more : List Char) :
    Quiet (before.1 ++ (op.text ++ more)) := by
  cases op with
  | asterisk => exact quiet_single (by decide : IsSingle '*') before.2
  | slash => exact quiet_single (by decide : IsSingle '/') before.2
  | percent => exact quiet_single (by decide : IsSingle '%') before.2
  | modWord =>
    intro d hd
    rw [(readToken_modWord hd).1]
    exact ⟨rfl, rfl⟩

theorem boundary_op (p : Phrase l) (op : TermOp) (before : Blanks) (more : List Char) :
    p.Boundary (before.1 ++ (op.text ++ more)) := by
  cases op <;> exact p.boundary_blanks before.2 (by decide)

section Product

variable {left : Phrase .term} {before after : Blanks} {op : TermOp} {right : Phrase .unary}

theorem ready_left (hready : (product left before op after right).Ready calls n c rest) :
    left.Ready calls n c (before.1 ++ (op.text ++ (after.1 ++ (right.text ++ rest)))) := by
  have hplace := hready.place
  rw [text, List.append_assoc, List.append_assoc, List.append_assoc, List.append_assoc] at hplace
  have hfuel : left.size + right.size + 1 < n := hready.fuel
  exact ⟨hplace, left.boundary_op op before _, quiet_op op before _, hready.vars.1, by omega⟩

theorem misread_modWord (hleft : left.Plain) :
    (product left before .modWord after right).Misread calls := by
  intro n k c rest hready hk
  have hops : left.ops + 1 < k := hk
  obtain ⟨k, rfl⟩ : ∃ m, k = m + left.ops := ⟨k - left.ops, by omega⟩
  refine left.spec hleft (ready_left hready) (fun _ _ => trivial) ?_
  intro c₁ hdone _
  apply Stuck.upTermLoop (by omega)
  rcases hdone.place with ⟨d, hd, -, -, htoken⟩ | ⟨hnil, -⟩
  · obtain ⟨hread, hptr⟩ := readToken_modWord hd
    rw [hread] at htoken
    refine ⟨Or.inl htoken, ?_⟩
    rw [hdone.ptr, ← hd, hptr]
    simp only [List.length_append, List.length_cons]
    omega
  · simp [TermOp.text] at hnil

theorem misread_product_left (ih : left.Misread calls) :
    (product left before op after right).Misread calls := by
  intro n k c rest hready hk
  have hops : left.ops + 1 < k := hk
  refine (ih (ready_left hready) (by omega)).mono ?_ fun _ h => h
  intro v c' hstuck
  have hrest : c'.Stuck ((before.1 ++ (op.text ++ (after.1 ++ right.text))) ++ rest) := by
    simpa only [List.append_assoc] using hstuck
  exact hrest.mono

theorem misread_product_right (hleft : left.Plain) (hop : op ≠ .modWord)
    (ih : right.Misread calls) : (product left before op after right).Misread calls := by
  intro n k c rest hready hk
  obtain ⟨ch, hch, hsingle, htoken⟩ := exists_single_of_ne_modWord hop
  have hfuel : left.size + right.size + 1 < n := hready.fuel
  have hops : left.ops + 1 < k := hk
  have hready' := ready_left hready
  rw [hch] at hready'
  obtain ⟨k, rfl⟩ : ∃ m, k = m + 1 + 1 + left.ops := ⟨k - left.ops - 2, by omega⟩
  refine left.spec hleft hready' (fun _ _ => trivial) ?_
  intro c₁ hdone _
  obtain ⟨htoken₁, hready₁⟩ := ready_right hdone hsingle hready.boundary hready.quiet
    hready.vars.2 (by omega : right.size < n)
  rw [post_upTermLoop_op hop (htoken₁.trans htoken)]
  refine (ih false false hready₁ hready₁.fuel).mono ?_ fun _ h => h
  intro v c₂ hstuck
  exact (Stuck.run hstuck).mono (fun v c' h => Stuck.upTermLoop k.succ_pos h) fun _ h => h

end Product

/-! ## Sums -/

theorem misread_ofTerm {p : Phrase .term} (ih : p.Misread calls) : (ofTerm p).Misread calls := by
  intro n k c rest hready hk _
  have hready' : p.Ready calls n c rest :=
    ⟨hready.place, hready.boundary, hready.quiet, hready.vars, hready.fuel⟩
  unfold valueFrom
  rw [post_bind]
  exact (ih hready' (lt_of_le_of_lt p.ops_le_size hready'.fuel)).mono
    (fun v c' h => Stuck.upValueLoop (Nat.zero_lt_of_lt hk) h) fun _ h => h

section Sum

variable {left : Phrase .value} {before after : Blanks} {op : SumOp} {right : Phrase .term}

theorem ready_left_sum (hready : (sum left before op after right).Ready calls n c rest) :
    left.Ready calls n c (before.1 ++ op.char :: (after.1 ++ (right.text ++ rest))) := by
  have hplace := hready.place
  rw [text, List.append_assoc, List.append_assoc, List.cons_append, List.append_assoc] at hplace
  have hfuel : left.size + right.size + 1 < n := hready.fuel
  exact ⟨hplace, left.boundary_blanks before.2 (by cases op <;> decide),
    quiet_single (by cases op <;> decide) before.2, hready.vars.1, by omega⟩

theorem nextToken_sum : NextToken (fun tok => tok ≠ .asterisk ∧ tok ≠ .slash ∧ tok ≠ .mod)
    (before.1 ++ op.char :: rest) :=
  nextToken_single (by cases op <;> decide) before.2 (by cases op <;> decide)

theorem misread_sum_left (ih : left.Misread calls) :
    (sum left before op after right).Misread calls := by
  intro n k c rest hready hk _
  have hops : left.ops + 1 < k := hk
  refine (ih (ready_left_sum hready) (by omega) nextToken_sum).mono ?_ fun _ h => h
  intro v c' hstuck
  have hrest : c'.Stuck ((before.1 ++ op.char :: (after.1 ++ right.text)) ++ rest) := by
    simpa only [List.append_assoc, List.cons_append] using hstuck
  exact hrest.mono

theorem misread_sum_right (hleft : left.Plain) (ih : right.Misread calls) :
    (sum left before op after right).Misread calls := by
  intro n k c rest hready hk hnext
  have hfuel : left.size + right.size + 1 < n := hready.fuel
  have hops : left.ops + 1 < k := hk
  obtain ⟨k, rfl⟩ : ∃ m, k = m + 1 + 1 + left.ops := ⟨k - left.ops - 2, by omega⟩
  refine left.spec hleft (ready_left_sum hready) nextToken_sum (fun _ _ => trivial) ?_
  intro c₁ hdone _
  obtain ⟨htoken, hready₁⟩ := ready_right hdone (by cases op <;> decide) hready.boundary
    hready.quiet hready.vars.2 (by omega : right.size < n)
  rw [post_upValueLoop_op htoken]
  refine (ih hready₁ (lt_of_le_of_lt right.ops_le_size hready₁.fuel)).mono ?_ fun _ h => h
  intro v c₂ hstuck
  rw [post_bind]
  exact (Stuck.upNumbers hstuck).mono (fun v c' h => Stuck.upValueLoop k.succ_pos h) fun _ h => h

end Sum

theorem misread (p : Phrase l) (hplain : ¬ p.Plain) : p.Misread calls := by
  induction p with
  | literal digits => exact misread_literal hplain
  | var v => exact absurd trivial hplain
  | brackets before inner after ih => exact misread_brackets (ih hplain)
  | ofFactor p ih => exact misread_ofFactor (ih hplain) hplain
  | signed sign blanks p ih => exact misread_signed (ih hplain)
  | ofUnary p ih => exact misread_ofUnary (ih hplain)
  | product left before op after right ihl ihr =>
    by_cases hleft : left.Plain
    · by_cases hop : op = .modWord
      · rw [hop]
        exact misread_modWord hleft
      · exact misread_product_right hleft hop (ihr fun hright => hplain ⟨hleft, hop, hright⟩)
    · exact misread_product_left (ihl hleft)
  | ofTerm p ih => exact misread_ofTerm (ih hplain)
  | sum left before op after right ihl ihr =>
    by_cases hleft : left.Plain
    · exact misread_sum_right hleft (ihr fun hright => hplain ⟨hleft, hright⟩)
    · exact misread_sum_left (ihl hleft)

end Phrase

/-! ## The evaluator and the tree -/

def EndsArith (tok : Token) : Prop :=
  (tok ≠ .asterisk ∧ tok ≠ .slash ∧ tok ≠ .mod) ∧ tok ≠ .plus ∧ tok ≠ .minus

instance : DecidablePred EndsArith := fun _ => inferInstanceAs (Decidable (_ ∧ _))

/-- With enough fuel, `up_value_expr` stops where the rest of the text starts. It returns the value
of the tree and changes nothing else, or has reported a division by zero. -/
def ParseCtx.Evaluates (calls : Calls) (c : ParseCtx) (e : ArithExpr) (rest : List Char) : Prop :=
  ∃ fuel, ∀ n ≥ fuel, ∃ v c', upValueExpr calls n c = (some (.int v), c') ∧
    c'.ptr = rest.dropWhile isBlank ∧
    match e.value fun var => (c.store.intVariable var).getD 0 with
    | some value => v = value ∧ c'.store = c.store
    | none => ∃ k, 0 < k ∧ c'.errors = List.replicate k "Division by zero" ++ c.errors

section Evaluates

variable {p : Phrase .value} (hplace : c.At (p.text ++ rest)) (hboundary : p.Boundary rest)
  (hquiet : Quiet rest) (hnext : NextToken EndsArith rest)
  (hvars : p.tree.Vars (IsIntVariable calls c.store))

include hplace hboundary hquiet hnext hvars

theorem evaluates_of_plain (hplain : p.Plain) (hfits : ¬ p.tree.Overflows c.store) :
    c.Evaluates calls p.tree rest := by
  refine ⟨p.size + 1, fun n hn => ?_⟩
  have hspec : p.Spec calls := p.spec hplain
  have hpost := Phrase.Spec.post_value hspec (R := fun _ => False)
    ⟨hplace, hboundary, hquiet, hvars, Nat.lt_of_succ_le hn⟩ hnext fun h => absurd h hfits
  obtain ⟨result, c', hrun⟩ : ∃ r c', upValueExpr calls n c = (r, c') := ⟨_, _, rfl⟩
  cases result with
  | none => exact absurd (hpost.of_eq_none hrun) id
  | some v =>
    have hreads : p.Reads c rest v c' := hpost.of_eq_some hrun
    obtain ⟨rfl, hdone, -⟩ := hreads
    refine ⟨_, c', hrun, hdone.ptr, ?_⟩
    cases hvalue : p.tree.value fun var => (c.store.intVariable var).getD 0 with
    | some value =>
      have heval := ArithExpr.eval_of_value hvalue
      rw [heval] at hdone ⊢
      exact ⟨rfl, hdone.store⟩
    | none =>
      obtain ⟨k, hk, herrors⟩ := ArithExpr.errors_eval_of_value hvalue
      refine ⟨k, hk, ?_⟩
      rw [← hdone.store] at herrors
      exact herrors

theorem plain_of_evaluates (h : c.Evaluates calls p.tree rest) : p.Plain := by
  by_contra hplain
  obtain ⟨fuel, hfuel⟩ := h
  have hsize : p.size < fuel + p.size + 1 := by omega
  obtain ⟨v, c', hrun, hptr, -⟩ := hfuel (fuel + p.size + 1) (by omega)
  have hmisread : p.Misread calls := p.misread hplain
  have hpost := hmisread ⟨hplace, hboundary, hquiet, hvars, hsize⟩
    (lt_of_le_of_lt p.ops_le_size hsize) fun d hd => (hnext d hd).1
  have hstuck : c'.Stuck rest := hpost.of_eq_some hrun
  have hbefore := hstuck.before
  rw [hptr] at hbefore
  exact absurd hbefore (Nat.not_lt_of_le (List.dropWhile_suffix _).length_le)

theorem fits_of_evaluates (h : c.Evaluates calls p.tree rest) : ¬ p.tree.Overflows c.store := by
  have hplain := plain_of_evaluates hplace hboundary hquiet hnext hvars h
  obtain ⟨fuel, hfuel⟩ := h
  obtain ⟨v, c', hrun, -, -⟩ := hfuel (fuel + p.size + 1) (by omega)
  have hspec : p.Spec calls := p.spec hplain
  have hpost := Phrase.Spec.post_value hspec (R := fun _ => True)
    ⟨hplace, hboundary, hquiet, hvars, (by omega : p.size < fuel + p.size + 1)⟩ hnext
    fun _ _ => trivial
  have hreads : p.Reads c rest (.int v) c' := hpost.of_eq_some hrun
  exact hreads.fits

/-- The evaluator does what the tree says just when remainders are written with the character,
literals are short, and the smallest integer is not divided by -1. -/
theorem evaluates_iff : c.Evaluates calls p.tree rest ↔ p.Plain ∧ ¬ p.tree.Overflows c.store := by
  constructor
  · intro h
    exact ⟨plain_of_evaluates hplace hboundary hquiet hnext hvars h,
      fits_of_evaluates hplace hboundary hquiet hnext hvars h⟩
  · rintro ⟨hplain, hfits⟩
    exact evaluates_of_plain hplace hboundary hquiet hnext hvars hplain hfits

end Evaluates

def noCalls : Calls := ⟨fun _ => none, fun _ => none, fun _ => none, fun _ => false⟩

def startCtx (text : List Char) : ParseCtx :=
  tokenizerInit text ⟨[], [], .noToken, 10,
    setGlobalMap .int ['A'] ⟨.int 7, false⟩ BasicCtx.init, []⟩

theorem startCtx_at (text : List Char) : (startCtx text).At text := readToken_at rfl

def nameA : VarName where
  name := ['A']
  start := ⟨'A', rfl, by decide⟩
  chars := List.all_eq_true.mp (by decide)
  length := by decide
  keyword := by decide +kernel
  proc := by decide +kernel

def digitTwo : Digits := ⟨['2'], by decide, List.all_eq_true.mp (by decide)⟩

/-- The text `A/2`. -/
def halfOfA : Phrase .value := .ofTerm (.product (.ofUnary (.ofFactor (.var nameA))) noBlanks .slash
  noBlanks (.ofFactor (.literal digitTwo)))

theorem evaluates_iff_half :
    (startCtx ['A', '/', '2', '\n']).Evaluates noCalls halfOfA.tree ['\n'] := by
  have hnewline : IsSingle '\n' := by decide
  have hblanks : ([] : List Char).all isBlank := rfl
  have hvar : IsIntVariable noCalls (startCtx ['A', '/', '2', '\n']).store ['A'] :=
    ⟨⟨rfl, rfl⟩, rfl, rfl, rfl⟩
  apply (evaluates_iff (p := halfOfA) (startCtx_at _) (by rintro ch ⟨⟩; decide)
    (quiet_single hnewline hblanks) (nextToken_single hnewline hblanks (by decide))
    ⟨hvar, trivial⟩).mpr
  refine ⟨⟨trivial, fun h => TermOp.noConfusion h, (by decide : 1 < maxNumlen)⟩, ?_⟩
  rintro (h | h | ⟨-, h, -⟩)
  · exact h
  · exact h
  · exact absurd h (by decide)

def digitOne : Digits := ⟨['1'], by decide, List.all_eq_true.mp (by decide)⟩

def digitSeven : Digits := ⟨['7'], by decide, List.all_eq_true.mp (by decide)⟩

def digitsOfLimit : Digits where
  digits := ['9', '2', '2', '3', '3', '7', '2', '0', '3', '6', '8',
    '5', '4', '7', '7', '5', '8', '0', '8']
  ne_nil := by decide
  isDigit := List.all_eq_true.mp (by decide)

/-- The text of the smallest integer, a slash and `-1`. -/
def limitByMinusOne : Phrase .value := .ofTerm (.product
  (.ofUnary (.signed .minus noBlanks (.ofFactor (.literal digitsOfLimit)))) noBlanks .slash noBlanks
  (.signed .minus noBlanks (.ofFactor (.literal digitOne))))

/-- The text `7 MOD 2`. -/
def sevenModTwo : Phrase .value := .ofTerm (.product (.ofUnary (.ofFactor (.literal digitSeven)))
  noBlanks .modWord noBlanks (.ofFactor (.literal digitTwo)))

/-- A division that overflows traps, and the word `MOD` is not an operator. -/
theorem overflow_and_word_not_evaluates :
    ¬ (startCtx (limitByMinusOne.text ++ ['\n'])).Evaluates noCalls limitByMinusOne.tree ['\n'] ∧
      ¬ (startCtx (sevenModTwo.text ++ ['\n'])).Evaluates noCalls sevenModTwo.tree ['\n'] := by
  have hnewline : IsSingle '\n' := by decide
  have hblanks : ([] : List Char).all isBlank := rfl
  have hquiet : Quiet ['\n'] := quiet_single hnewline hblanks
  have hnext : NextToken EndsArith ['\n'] := nextToken_single hnewline hblanks (by decide)
  constructor
  · intro h
    apply fits_of_evaluates (p := limitByMinusOne) (startCtx_at _) (by rintro ch ⟨⟩; decide) hquiet
      hnext ⟨trivial, trivial⟩ h
    exact Or.inr (Or.inr ⟨rfl, by decide +kernel, by decide +kernel⟩)
  · intro h
    have hplain := plain_of_evaluates (p := sevenModTwo) (startCtx_at _) (by rintro ch ⟨⟩; decide)
      hquiet hnext ⟨trivial, trivial⟩ h
    exact hplain.2.1 rfl

end RetroRocket
