import RetroRocket.BasicFactors

/-!
# The evaluator on arithmetic expressions

`up_value_expr` reads a phrase up to its end and returns the value of its tree, as long as
remainders are written with the character, literals are short, and the smallest integer is not
divided by -1, which traps. A division by zero is reported and gives zero.
-/

namespace RetroRocket

open RetroRocket.Action BasicExpr

variable {c c' d : ParseCtx} {rest : List Char} {calls : Calls} {n : ℕ}

/-! ## The texts of phrases -/

namespace Phrase

variable {l : Level}

theorem text_head (p : Phrase l) : ∃ ch more, p.text = ch :: more ∧ isBlank ch = false := by
  induction p with
  | literal digits =>
    obtain ⟨ch, more, hcons⟩ := List.exists_cons_of_ne_nil digits.ne_nil
    refine ⟨ch, more, hcons, ?_⟩
    have hch : ch.isDigit := digits.isDigit ch (by rw [hcons]; exact List.mem_cons_self)
    unfold isBlank
    rw [Bool.or_eq_false_iff, beq_eq_false_iff_ne, beq_eq_false_iff_ne]
    exact ⟨isDigit_ne hch (by decide), isDigit_ne hch (by decide)⟩
  | var v =>
    obtain ⟨ch, hch, hstart⟩ := v.start
    obtain ⟨more, hcons⟩ := List.head?_eq_some_iff.mp hch
    refine ⟨ch, more, hcons, ?_⟩
    unfold isBlank
    rw [Bool.or_eq_false_iff, beq_eq_false_iff_ne, beq_eq_false_iff_ne]
    constructor
    · rintro rfl
      exact absurd hstart (by decide)
    · rintro rfl
      exact absurd hstart (by decide)
  | brackets before inner after => exact ⟨'(', _, rfl, rfl⟩
  | ofFactor p ih => exact ih
  | signed sign blanks p =>
    refine ⟨sign.char, _, rfl, ?_⟩
    cases sign <;> rfl
  | ofUnary p ih => exact ih
  | product left before op after right ih =>
    obtain ⟨ch, more, hcons, hch⟩ := ih
    exact ⟨ch, _, by rw [text, hcons]; rfl, hch⟩
  | ofTerm p ih => exact ih
  | sum left before op after right ih =>
    obtain ⟨ch, more, hcons, hch⟩ := ih
    exact ⟨ch, _, by rw [text, hcons]; rfl, hch⟩

theorem text_append_head (p : Phrase l) (rest : List Char) :
    ∃ ch more, p.text ++ rest = ch :: more ∧ isBlank ch = false := by
  obtain ⟨ch, more, hcons, hch⟩ := p.text_head
  exact ⟨ch, more ++ rest, by rw [hcons]; rfl, hch⟩

def Breaks (ch : Char) : Bool :=
  !ch.isDigit && ch != '.' && !isVarChar ch && ch != '$' && ch != '#' && ch != '('

theorem Breaks.boundary {ch : Char} (h : Breaks ch) (p : Phrase l) : p.Boundary (ch :: rest) := by
  unfold Breaks at h
  simp only [Bool.and_eq_true, Bool.not_eq_true', bne_iff_ne] at h
  obtain ⟨⟨⟨⟨⟨hdigit, hdot⟩, hvar⟩, hdollar⟩, hhash⟩, hbracket⟩ := h
  induction p with
  | literal digits =>
    rintro c ⟨⟩ (h | h)
    · rw [hdigit] at h
      cases h
    · exact hdot h
  | var v =>
    rintro c ⟨⟩
    exact ⟨by simp [hvar], hdollar, hhash, hbracket⟩
  | brackets before inner after => trivial
  | ofFactor p ih => exact ih
  | signed sign blanks p ih => exact ih
  | ofUnary p ih => exact ih
  | product left before op after right ihl ihr => exact ihr
  | ofTerm p ih => exact ih
  | sum left before op after right ihl ihr => exact ihr

theorem breaks_of_isBlank {ch : Char} (h : isBlank ch) : Breaks ch := by
  unfold isBlank at h
  simp only [Bool.or_eq_true, beq_iff_eq] at h
  rcases h with rfl | rfl <;> decide

theorem boundary_blanks (p : Phrase l) {ch : Char} {blanks : List Char}
    (hblanks : blanks.all isBlank) (h : Breaks ch) : p.Boundary (blanks ++ ch :: rest) := by
  cases blanks with
  | nil => exact Breaks.boundary h p
  | cons b blanks =>
    rw [List.all_cons, Bool.and_eq_true] at hblanks
    exact Breaks.boundary (breaks_of_isBlank hblanks.1) p

theorem readToken_store (p : Phrase l) (hplain : p.Plain) (hboundary : p.Boundary rest)
    (hd : d.ptr = p.text ++ rest) : (readToken d).store = d.store := by
  induction p generalizing rest with
  | literal digits =>
    rw [readToken_number digits.ne_nil digits.isDigit hd hboundary hplain]
    rfl
  | var v =>
    rw [readToken_name v hd hboundary]
    rfl
  | brackets before inner after =>
    rw [readToken_isSingle (by decide) hd]
    rfl
  | ofFactor p ih => exact ih hplain hboundary hd
  | signed sign blanks p =>
    rw [readToken_isSingle (by cases sign <;> decide) hd]
    rfl
  | ofUnary p ih => exact ih hplain hboundary hd
  | product left before op after right ih =>
    rw [text, List.append_assoc, List.append_assoc] at hd
    refine ih hplain.1 ?_ hd
    cases op <;> exact left.boundary_blanks before.2 (by decide)
  | ofTerm p ih => exact ih hplain hboundary hd
  | sum left before op after right ih =>
    rw [text, List.append_assoc, List.append_assoc] at hd
    refine ih hplain.1 ?_ hd
    cases op <;> exact left.boundary_blanks before.2 (by decide)

end Phrase

/-! ## The actions of the levels -/

namespace BasicExpr

abbrev factorAt (calls : Calls) (n : ℕ) : Action ParseCtx Value :=
  upFactor calls (upRelationExpr calls n) n

abbrev unaryAt (calls : Calls) (n : ℕ) : Action ParseCtx Value := upUnary n (factorAt calls n)

abbrev termAt (calls : Calls) (n : ℕ) : Action ParseCtx Value := upTerm n (unaryAt calls n)

/-- The rest of `up_unary`, when some signs have been read. -/
def signedFrom (calls : Calls) (n k : ℕ) (sawSign negate : Bool) : Action ParseCtx Value := do
  let signs ← upSigns k sawSign negate
  let v ← factorAt calls n
  upSigned signs.1 signs.2 v

/-- The rest of `up_term` from its first factor on, with fuel for `k` operators. -/
def termFrom (calls : Calls) (n k : ℕ) : Action ParseCtx Value := do
  let acc ← unaryAt calls n
  upTermLoop (unaryAt calls n) k acc

/-- The rest of `up_value_expr` from its first term on, with fuel for `k` operators. -/
def valueFrom (calls : Calls) (n k : ℕ) : Action ParseCtx Value := do
  let acc ← termAt calls n
  upValueLoop (termAt calls n) k acc

end BasicExpr

/-- What it is for a phrase that its level reads it: what the level does behind it starts from the
value and the place that the phrase gives. -/
def Phrase.Spec (calls : Calls) : {l : Level} → Phrase l → Prop
  | .factor, p => ∀ {n c rest R}, p.Ready calls n c rest →
      (p.tree.Overflows c.store → ∀ c', R c') → Post (factorAt calls n) c (p.Reads c rest) R
  | .unary, p =>
    ∀ {n k : ℕ} (sawSign negate : Bool) {c rest R}, p.Ready calls n c rest → p.size < k →
      (negate → sawSign) → (p.tree.Overflows c.store → ∀ c', R c') →
      Post (signedFrom calls n k sawSign negate) c
        (fun v c' =>
          v = .int (if negate then -(p.tree.eval c.store).1 else (p.tree.eval c.store).1) ∧
          c'.Done rest (p.tree.eval c.store).2 ∧ ¬ p.tree.Overflows c.store) R
  | .term, p => ∀ {n k c rest Q R}, p.Ready calls n c rest →
      (p.tree.Overflows c.store → ∀ c', R c') →
      (∀ c', c'.Done rest (p.tree.eval c.store).2 → ¬ p.tree.Overflows c.store →
        Post (upTermLoop (unaryAt calls n) k (.int (p.tree.eval c.store).1)) c' Q R) →
      Post (termFrom calls n (k + p.ops)) c Q R
  | .value, p => ∀ {n k c rest Q R}, p.Ready calls n c rest →
      NextToken (fun tok => tok ≠ .asterisk ∧ tok ≠ .slash ∧ tok ≠ .mod) rest →
      (p.tree.Overflows c.store → ∀ c', R c') →
      (∀ c', c'.Done rest (p.tree.eval c.store).2 → ¬ p.tree.Overflows c.store →
        Post (upValueLoop (termAt calls n) k (.int (p.tree.eval c.store).1)) c' Q R) →
      Post (valueFrom calls n (k + p.ops)) c Q R

namespace Phrase

theorem ops_le_size {l : Level} (p : Phrase l) : p.ops ≤ p.size := by
  induction p with
  | literal digits => exact Nat.zero_le _
  | var v => exact Nat.zero_le _
  | brackets before inner after => exact Nat.zero_le _
  | ofFactor p => exact Nat.zero_le _
  | signed sign blanks p => exact Nat.zero_le _
  | ofUnary p => exact Nat.zero_le _
  | product left before op after right ih =>
    exact Nat.succ_le_succ (ih.trans (Nat.le_add_right _ _))
  | ofTerm p => exact Nat.zero_le _
  | sum left before op after right ih => exact Nat.succ_le_succ (ih.trans (Nat.le_add_right _ _))

section Spec

variable {Q : Value → ParseCtx → Prop} {R : ParseCtx → Prop}

theorem Spec.post_unary {p : Phrase .unary} (h : p.Spec calls) (hready : p.Ready calls n c rest)
    (hR : p.tree.Overflows c.store → ∀ c', R c') :
    Post (unaryAt calls n) c (p.Reads c rest) R := by
  refine (h (k := n) false false hready hready.fuel id hR).mono ?_ ?_
  · rintro v c' ⟨hv, hdone, hfits⟩
    exact ⟨hv, hdone, hfits⟩
  · exact fun _ h => h

theorem post_upTermLoop_end {unary : Action ParseCtx Value} {acc : Value} (hn : 0 < n)
    (h : c.currentToken ≠ .asterisk ∧ c.currentToken ≠ .slash ∧ c.currentToken ≠ .mod) :
    Post (upTermLoop unary n acc) c Q R ↔ Q acc c := by
  obtain ⟨n, rfl⟩ := Nat.exists_eq_succ_of_ne_zero hn.ne'
  unfold upTermLoop
  rw [post_bind, post_token]
  split
  · next heq => exact absurd heq h.1
  · next heq => exact absurd heq h.2.1
  · next heq => exact absurd heq h.2.2
  · rw [post_pure]

theorem post_upValueLoop_end {term : Action ParseCtx Value} {acc : Value} (hn : 0 < n)
    (h : c.currentToken ≠ .plus ∧ c.currentToken ≠ .minus) :
    Post (upValueLoop term n acc) c Q R ↔ Q acc c := by
  obtain ⟨n, rfl⟩ := Nat.exists_eq_succ_of_ne_zero hn.ne'
  unfold upValueLoop
  rw [post_bind, post_token]
  split
  · next heq => exact absurd heq h.1
  · next heq => exact absurd heq h.2
  · rw [post_pure]

theorem Spec.post_term {p : Phrase .term} (h : p.Spec calls) (hready : p.Ready calls n c rest)
    (hnext : NextToken (fun tok => tok ≠ .asterisk ∧ tok ≠ .slash ∧ tok ≠ .mod) rest)
    (hR : p.tree.Overflows c.store → ∀ c', R c') :
    Post (termAt calls n) c (p.Reads c rest) R := by
  have hops := p.ops_le_size
  have hfuel := hready.fuel
  obtain ⟨k, rfl⟩ : ∃ k, n = k + p.ops := ⟨n - p.ops, by omega⟩
  apply h hready hR
  intro c' hdone hfits
  rw [post_upTermLoop_end (by omega) (hdone.token hnext (by decide))]
  exact ⟨rfl, hdone, hfits⟩

theorem Spec.post_value {p : Phrase .value} (h : p.Spec calls) (hready : p.Ready calls n c rest)
    (hnext : NextToken (fun tok => (tok ≠ .asterisk ∧ tok ≠ .slash ∧ tok ≠ .mod) ∧
      tok ≠ .plus ∧ tok ≠ .minus) rest)
    (hR : p.tree.Overflows c.store → ∀ c', R c') :
    Post (upValueExpr calls n) c (p.Reads c rest) R := by
  have hops := p.ops_le_size
  have hfuel := hready.fuel
  obtain ⟨k, rfl⟩ : ∃ k, n = k + p.ops := ⟨n - p.ops, by omega⟩
  apply h hready (fun d hd => (hnext d hd).1) hR
  intro c' hdone hfits
  rw [post_upValueLoop_end (by omega)
    (hdone.token (P := fun tok => tok ≠ .plus ∧ tok ≠ .minus) (fun d hd => (hnext d hd).2)
      (by decide))]
  exact ⟨rfl, hdone, hfits⟩

end Spec

/-! ## The cases of the grammar -/

section Cases

variable {l : Level} {ch : Char} {blanks : List Char}

theorem advance (p : Phrase l) (calls : Calls) (h : c.At (ch :: (blanks ++ (p.text ++ rest))))
    (hsingle : IsSingle ch) (hblanks : blanks.all isBlank) :
    c.currentToken = singlecharToken ch ∧ (tokenizerNext c).At (p.text ++ rest) ∧
      ∀ var, IsIntVariable calls c.store var → IsIntVariable calls (tokenizerNext c).store var := by
  obtain ⟨htoken, d, hd, hstore, hread⟩ := h.advance hsingle hblanks (p.text_append_head rest)
  rw [hread, ← hstore]
  refine ⟨htoken, readToken_at hd, fun var hvar => ?_⟩
  rcases readToken_store_cases d with hsame | ⟨error, hreport⟩
  · rw [hsame]
    exact hvar
  · rw [hreport]
    exact ⟨hvar.defines.report error, hvar.int, hvar.double, hvar.builtin⟩

theorem advance_store (p : Phrase l) (h : c.At (ch :: (blanks ++ (p.text ++ rest))))
    (hsingle : IsSingle ch) (hblanks : blanks.all isBlank) (hplain : p.Plain)
    (hboundary : p.Boundary rest) : (tokenizerNext c).store = c.store := by
  obtain ⟨-, d, hd, hstore, hread⟩ := h.advance hsingle hblanks (p.text_append_head rest)
  rw [hread, p.readToken_store hplain hboundary hd, hstore]

theorem post_inner {inner : Phrase .value} {after : Blanks} {Q : Value → ParseCtx → Prop}
    {R : ParseCtx → Prop} (ih : inner.Spec calls)
    (hready : inner.Ready calls n c (after.1 ++ ')' :: rest)) (hquiet : Quiet rest)
    (hR : inner.tree.Overflows c.store → ∀ c', R c')
    (hQ : ∀ c', c'.Done rest (inner.tree.eval c.store).2 → ¬ inner.tree.Overflows c.store →
      Q (.int (inner.tree.eval c.store).1) c') :
    Post (upRelationExpr calls (n + 1)) c (fun v c' => Q v (accept .closeBracket c')) R := by
  have hclose : IsSingle ')' := by decide
  have hvalue := ih.post_value hready (nextToken_single hclose after.2 (by decide)) hR
  unfold upRelationExpr upRelationOver
  rw [post_bind]
  refine Post.mono hvalue ?_ fun _ h => h
  rintro v c' ⟨rfl, hdone, hfits⟩
  obtain ⟨htoken, hclosed⟩ := hdone.at_close after.2 hquiet
  obtain ⟨n, rfl⟩ := Nat.exists_eq_succ_of_ne_zero (Nat.ne_zero_of_lt hready.fuel)
  unfold upRelationLoop
  rw [post_bind, post_token, if_neg (by rw [htoken]; decide), post_pure]
  exact hQ _ hclosed hfits

theorem spec_brackets {before after : Blanks} {inner : Phrase .value} (ih : inner.Spec calls)
    (hplain : inner.Plain) : (brackets before inner after).Spec calls := by
  intro n c rest R hready hR
  have hopen : IsSingle '(' := by decide
  have hclose : IsSingle ')' := by decide
  have hboundary : inner.Boundary (after.1 ++ ')' :: rest) :=
    inner.boundary_blanks after.2 (by decide)
  have hplace := hready.place
  rw [text, List.cons_append, List.append_assoc, List.append_assoc, List.append_assoc] at hplace
  obtain ⟨htoken, hat, hvars⟩ := inner.advance calls hplace hopen before.2
  have hstore := inner.advance_store hplace hopen before.2 hplain hboundary
  obtain ⟨n, rfl⟩ := Nat.exists_eq_succ_of_ne_zero (Nat.ne_zero_of_lt hready.fuel)
  rw [post_upFactor_openBracket n.succ_pos htoken]
  refine post_inner ih ⟨hat, hboundary, quiet_single hclose after.2,
    ArithExpr.Vars.imp hready.vars hvars, Nat.lt_of_succ_lt_succ hready.fuel⟩ hready.quiet ?_ ?_
  · rw [hstore]
    exact hR
  · rw [hstore]
    exact fun c' hdone hfits => ⟨rfl, hdone, hfits⟩

theorem factor_token (p : Phrase .factor) (hplain : p.Plain) (hboundary : p.Boundary rest)
    (h : c.At (p.text ++ rest)) : c.currentToken ≠ .plus ∧ c.currentToken ≠ .minus := by
  obtain ⟨d, hd, -, -, htoken⟩ := h.read
  rw [htoken]
  cases p with
  | literal digits =>
    rw [readToken_number digits.ne_nil digits.isDigit hd hboundary hplain]
    exact ⟨Token.noConfusion, Token.noConfusion⟩
  | var v =>
    rw [readToken_name v hd hboundary]
    exact ⟨Token.noConfusion, Token.noConfusion⟩
  | brackets before inner after =>
    rw [readToken_isSingle (by decide) hd]
    exact ⟨Token.noConfusion, Token.noConfusion⟩

section Signs

variable {k : ℕ} {sawSign negate : Bool} {Q : Value → ParseCtx → Prop} {R : ParseCtx → Prop}

theorem post_signedFrom_end (hk : 0 < k) (h : c.currentToken ≠ .plus ∧ c.currentToken ≠ .minus) :
    Post (signedFrom calls n k sawSign negate) c Q R ↔
      Post (factorAt calls n) c (fun v c' => Post (upSigned sawSign negate v) c' Q R) R := by
  obtain ⟨k, rfl⟩ := Nat.exists_eq_succ_of_ne_zero hk.ne'
  unfold signedFrom upSigns
  rw [post_bind, post_bind, post_token]
  split
  · next heq => exact absurd heq h.1
  · next heq => exact absurd heq h.2
  · rw [post_pure, post_bind]

theorem post_signedFrom_sign (sign : Sign) (h : c.currentToken = singlecharToken sign.char) :
    Post (signedFrom calls n (k + 1) sawSign negate) c Q R ↔
      Post (signedFrom calls n k true (sign.flip negate))
        (tokenizerNext c) Q R := by
  unfold signedFrom
  rw [post_bind, upSigns, post_bind, post_token, h, post_bind]
  cases sign <;> exact Iff.rfl

theorem post_upSigned_int (h : negate → sawSign) (i : BitVec 64) :
    Post (upSigned sawSign negate (.int i)) c Q R ↔ Q (.int (if negate then -i else i)) c := by
  cases sawSign with
  | true => exact Iff.rfl
  | false =>
    obtain rfl : negate = false := by simpa using h
    exact Iff.rfl

end Signs

theorem spec_ofFactor {p : Phrase .factor} (ih : p.Spec calls) (hplain : p.Plain) :
    (ofFactor p).Spec calls := by
  intro n k sawSign negate c rest R hready hk hsaw hR
  have hready' : p.Ready calls n c rest :=
    ⟨hready.place, hready.boundary, hready.quiet, hready.vars, hready.fuel⟩
  rw [post_signedFrom_end (by omega) (p.factor_token hplain hready'.boundary hready'.place)]
  refine (ih hready' hR).mono ?_ fun _ h => h
  rintro v c' ⟨rfl, hdone, hfits⟩
  rw [post_upSigned_int hsaw]
  exact ⟨rfl, hdone, hfits⟩

theorem vars_operand {P : Name → Prop} {sign : Sign} {e : ArithExpr} (h : (sign.tree e).Vars P) :
    e.Vars P := by
  cases sign <;> exact h

theorem spec_signed {sign : Sign} {blanks : Blanks} {p : Phrase .unary} (ih : p.Spec calls)
    (hplain : p.Plain) : (signed sign blanks p).Spec calls := by
  intro n k sawSign negate c rest R hready hk hsaw hR
  have hplace := hready.place
  rw [text, List.cons_append, List.append_assoc] at hplace
  have hsingle : IsSingle sign.char := by cases sign <;> decide
  obtain ⟨htoken, hat, hvars⟩ := p.advance calls hplace hsingle blanks.2
  have hstore := p.advance_store hplace hsingle blanks.2 hplain hready.boundary
  have hfuel : p.size + 1 < n := hready.fuel
  have hsize : p.size + 1 < k := hk
  obtain ⟨k, rfl⟩ := Nat.exists_eq_succ_of_ne_zero (Nat.ne_zero_of_lt hk)
  have hready' : p.Ready calls n (tokenizerNext c) rest :=
    ⟨hat, hready.boundary, hready.quiet,
      ArithExpr.Vars.imp (vars_operand hready.vars) hvars, by omega⟩
  have hR' : p.tree.Overflows (tokenizerNext c).store → ∀ c', R c' := by
    rw [hstore]
    cases sign <;> exact hR
  rw [post_signedFrom_sign sign htoken]
  refine (ih true _ hready' (by omega) (fun _ => rfl) hR').mono ?_ fun _ h => h
  rw [hstore]
  rintro v c' ⟨rfl, hdone, hfits⟩
  cases sign with
  | plus => exact ⟨rfl, hdone, hfits⟩
  | minus =>
    refine ⟨?_, hdone, hfits⟩
    cases negate with
    | true => exact congrArg Value.int (BitVec.neg_neg).symm
    | false => rfl

theorem spec_ofUnary {p : Phrase .unary} (ih : p.Spec calls) : (ofUnary p).Spec calls := by
  intro n k c rest Q R hready hR hloop
  have hready' : p.Ready calls n c rest :=
    ⟨hready.place, hready.boundary, hready.quiet, hready.vars, hready.fuel⟩
  unfold termFrom
  rw [post_bind]
  refine (ih.post_unary hready' hR).mono ?_ fun _ h => h
  rintro v c' ⟨rfl, hdone, hfits⟩
  exact hloop c' hdone hfits

end Cases

end Phrase

/-! ## Operators -/

namespace BasicExpr

def TermOp.token : TermOp → Token
  | .asterisk => .asterisk
  | .slash => .slash
  | .percent => .mod
  | .modWord => .variable

/-- What the loop of `up_term` does with its operands. -/
def TermOp.run (op : TermOp) (acc rhs : Value) : Action ParseCtx Value := do
  let pair ← upNumbers "Numeric operator on string" acc rhs
  match op with
  | .asterisk => upMultiply pair
  | .slash => upDivide pair
  | _ => upMod pair

/-- What the loop of `up_value_expr` does with two numbers. -/
def SumOp.run : SumOp → NumberPair → Value
  | .plus => upAdd
  | .minus => upSubtract

section Operators

variable {k : ℕ} {unary term : Action ParseCtx Value} {acc : Value} {a b : BitVec 64}
  {Q : Value → ParseCtx → Prop} {R : ParseCtx → Prop}

theorem post_upTermLoop_op {op : TermOp} (hop : op ≠ .modWord)
    (h : c.currentToken = TermOp.token op) :
    Post (upTermLoop unary (k + 1) acc) c Q R ↔
      Post unary (tokenizerNext c) (fun rhs c' => Post (TermOp.run op acc rhs) c'
        (fun acc c' => Post (upTermLoop unary k acc) c' Q R) R) R := by
  rw [upTermLoop, post_bind, post_token, h]
  cases op with
  | modWord => exact absurd rfl hop
  | asterisk => simp only [TermOp.token, TermOp.run, post_bind, post_next]
  | slash => simp only [TermOp.token, TermOp.run, post_bind, post_next]
  | percent => simp only [TermOp.token, TermOp.run, post_bind, post_next]

def divided (op : ArithOp) (b : BitVec 64) (c : ParseCtx) : ParseCtx :=
  if op.Divides ∧ b = 0 then tokenizerErrorPrint "Division by zero" c else c

theorem post_checkedDivision {divide : BitVec 64 → BitVec 64 → BitVec 64}
    (hR : a = BitVec.intMin 64 ∧ b = -1 → R c)
    (hQ : ¬ (a = BitVec.intMin 64 ∧ b = -1) → Q (.int (if b = 0 then 0 else divide a b))
      (if b = 0 then tokenizerErrorPrint "Division by zero" c else c)) :
    Post (checkedDivision divide a b) c Q R := by
  unfold checkedDivision
  by_cases hzero : b = 0
  · rw [if_pos hzero]
    rw [if_pos hzero, if_pos hzero] at hQ
    apply hQ
    rintro ⟨-, hb⟩
    rw [hzero] at hb
    exact absurd hb (by decide)
  · rw [if_neg hzero]
    rw [if_neg hzero, if_neg hzero] at hQ
    by_cases hover : a = BitVec.intMin 64 ∧ b = -1
    · rw [if_pos hover]
      exact hR hover
    · rw [if_neg hover]
      exact hQ hover

theorem divided_of_divides {op : ArithOp} (h : op.Divides) :
    divided op b c = if b = 0 then tokenizerErrorPrint "Division by zero" c else c := by
  unfold divided
  rw [h]
  simp only [true_and]

theorem post_run {op : TermOp}
    (hR : op.op.Divides ∧ a = BitVec.intMin 64 ∧ b = -1 → R c)
    (hQ : ¬ (op.op.Divides ∧ a = BitVec.intMin 64 ∧ b = -1) →
      Q (.int (op.op.apply a b)) (divided op.op b c)) :
    Post (TermOp.run op (.int a) (.int b)) c Q R := by
  cases op with
  | asterisk => exact hQ fun h => absurd h.1 Bool.false_ne_true
  | slash =>
    apply post_checkedDivision fun h => hR ⟨rfl, h⟩
    rw [← divided_of_divides (show ArithOp.div.Divides from rfl)]
    exact fun h => hQ fun h' => h h'.2
  | percent =>
    apply post_checkedDivision fun h => hR ⟨rfl, h⟩
    rw [← divided_of_divides (show ArithOp.mod.Divides from rfl)]
    exact fun h => hQ fun h' => h h'.2
  | modWord =>
    apply post_checkedDivision fun h => hR ⟨rfl, h⟩
    rw [← divided_of_divides (show ArithOp.mod.Divides from rfl)]
    exact fun h => hQ fun h' => h h'.2

theorem post_upValueLoop_op {op : SumOp} (h : c.currentToken = singlecharToken op.char) :
    Post (upValueLoop term (k + 1) (.int a)) c Q R ↔
      Post term (tokenizerNext c) (fun rhs c' => Post (do
          let pair ← upNumbers "Cannot mix string and number with '+' or '-'" (.int a) rhs
          upValueLoop term k (SumOp.run op pair))
        c' Q R) R := by
  rw [upValueLoop, post_bind, post_token, h]
  cases op with
  | plus =>
    rw [show singlecharToken SumOp.plus.char = .plus from rfl]
    dsimp only
    rw [post_bind, post_next, post_bind]
    exact Iff.rfl
  | minus =>
    rw [show singlecharToken SumOp.minus.char = .minus from rfl]
    dsimp only
    rw [post_bind, post_next, post_bind]
    exact Iff.rfl

end Operators

end BasicExpr

namespace Phrase

variable {l : Level}

theorem Done.divided {s : Store} (h : c.Done rest s) (op : ArithOp) (b : BitVec 64) :
    (divided op b c).Done rest (if op.Divides ∧ b = 0 then s.report "Division by zero" else s) := by
  unfold BasicExpr.divided
  split
  · exact h.report _
  · exact h

theorem ready_right {p : Phrase l} {ch : Char} {before after : Blanks} {s : Store} {e : ArithExpr}
    (hdone : c.Done (before.1 ++ ch :: (after.1 ++ (p.text ++ rest))) (e.eval s).2)
    (hsingle : IsSingle ch) (hboundary : p.Boundary rest) (hquiet : Quiet rest)
    (hvars : p.tree.Vars (IsIntVariable calls s)) (hfuel : p.size < n) :
    c.currentToken = singlecharToken ch ∧ p.Ready calls n (tokenizerNext c) rest := by
  obtain ⟨htoken, hat, hsame⟩ :=
    p.advance calls (hdone.at_single hsingle before.2) hsingle after.2
  refine ⟨htoken, hat, hboundary, hquiet, ?_, hfuel⟩
  apply ArithExpr.Vars.imp hvars
  intro var hvar
  apply hsame
  rw [hdone.store]
  exact hvar.eval e

theorem store_right {p : Phrase l} {ch : Char} {before after : Blanks} {s : Store}
    (hdone : c.Done (before.1 ++ ch :: (after.1 ++ (p.text ++ rest))) s) (hsingle : IsSingle ch)
    (hplain : p.Plain) (hboundary : p.Boundary rest) : (tokenizerNext c).store = s := by
  rw [p.advance_store (hdone.at_single hsingle before.2) hsingle after.2 hplain hboundary,
    hdone.store]

theorem exists_single_of_ne_modWord {op : TermOp} (hop : op ≠ .modWord) :
    ∃ ch, op.text = [ch] ∧ IsSingle ch ∧ singlecharToken ch = TermOp.token op := by
  cases op with
  | modWord => exact absurd rfl hop
  | asterisk => exact ⟨'*', rfl, by decide, rfl⟩
  | slash => exact ⟨'/', rfl, by decide, rfl⟩
  | percent => exact ⟨'%', rfl, by decide, rfl⟩

theorem spec_product {left : Phrase .term} {before after : Blanks} {op : TermOp}
    {right : Phrase .unary} (ihl : left.Spec calls) (ihr : right.Spec calls)
    (hplain : (product left before op after right).Plain) :
    (product left before op after right).Spec calls := by
  intro n k c rest Q R hready hR hloop
  obtain ⟨-, hop, hright⟩ := hplain
  obtain ⟨ch, hch, hsingle, htoken⟩ := exists_single_of_ne_modWord hop
  have hbreaks : Breaks ch := by
    cases op <;> cases hch <;> decide
  have hfuel : left.size + right.size + 1 < n := hready.fuel
  have hplace := hready.place
  rw [text, hch, List.append_assoc, List.append_assoc, List.append_assoc,
    List.append_assoc] at hplace
  have hleft : left.Ready calls n c (before.1 ++ ch :: (after.1 ++ (right.text ++ rest))) :=
    ⟨hplace, left.boundary_blanks before.2 hbreaks, quiet_single hsingle before.2, hready.vars.1,
      by omega⟩
  change Post (termFrom calls n (k + (left.ops + 1))) c Q R
  rw [← Nat.add_assoc, Nat.add_right_comm]
  apply ihl hleft fun h => hR (Or.inl h)
  intro c₁ hdone hfitsl
  obtain ⟨htoken₁, hready₁⟩ := ready_right hdone hsingle hready.boundary hready.quiet
    hready.vars.2 (by omega : right.size < n)
  have hstore := store_right hdone hsingle hright hready.boundary
  rw [post_upTermLoop_op hop (htoken₁.trans htoken)]
  refine (ihr.post_unary hready₁ ?_).mono ?_ fun _ h => h
  · rw [hstore]
    exact fun h => hR (Or.inr (Or.inl h))
  rintro v c₂ ⟨rfl, hdone₂, hfitsr⟩
  rw [hstore] at hdone₂ hfitsr ⊢
  apply post_run
  · exact fun h => hR (Or.inr (Or.inr h)) c₂
  · intro hfits
    apply hloop
    · exact Done.divided hdone₂ op.op _
    · rintro (h | h | h)
      · exact hfitsl h
      · exact hfitsr h
      · exact hfits h

theorem spec_ofTerm {p : Phrase .term} (ih : p.Spec calls) : (ofTerm p).Spec calls := by
  intro n k c rest Q R hready hnext hR hloop
  have hready' : p.Ready calls n c rest :=
    ⟨hready.place, hready.boundary, hready.quiet, hready.vars, hready.fuel⟩
  unfold valueFrom
  rw [post_bind]
  refine (ih.post_term hready' hnext hR).mono ?_ fun _ h => h
  rintro v c' ⟨rfl, hdone, hfits⟩
  exact hloop c' hdone hfits

theorem spec_sum {left : Phrase .value} {before after : Blanks} {op : SumOp}
    {right : Phrase .term} (ihl : left.Spec calls) (ihr : right.Spec calls)
    (hplain : (sum left before op after right).Plain) :
    (sum left before op after right).Spec calls := by
  intro n k c rest Q R hready hnext hR hloop
  have hsingle : IsSingle op.char := by cases op <;> decide
  have hbreaks : Breaks op.char := by cases op <;> decide
  have hfuel : left.size + right.size + 1 < n := hready.fuel
  have hplace := hready.place
  rw [text, List.append_assoc, List.append_assoc, List.cons_append, List.append_assoc] at hplace
  have hleft : left.Ready calls n c (before.1 ++ op.char :: (after.1 ++ (right.text ++ rest))) :=
    ⟨hplace, left.boundary_blanks before.2 hbreaks, quiet_single hsingle before.2, hready.vars.1,
      by omega⟩
  have hdivides : op.op.Divides = false := by cases op <;> rfl
  change Post (valueFrom calls n (k + (left.ops + 1))) c Q R
  rw [← Nat.add_assoc, Nat.add_right_comm]
  apply ihl hleft
  · exact nextToken_single hsingle before.2 (by cases op <;> decide)
  · exact fun h => hR (Or.inl h)
  intro c₁ hdone hfitsl
  obtain ⟨htoken, hready₁⟩ := ready_right hdone hsingle hready.boundary hready.quiet
    hready.vars.2 (by omega : right.size < n)
  have hstore := store_right hdone hsingle hplain.2 hready.boundary
  rw [post_upValueLoop_op htoken]
  refine (ihr.post_term hready₁ hnext ?_).mono ?_ fun _ h => h
  · rw [hstore]
    exact fun h => hR (Or.inr (Or.inl h))
  rintro v c₂ ⟨rfl, hdone₂, hfitsr⟩
  rw [hstore] at hdone₂ hfitsr ⊢
  have hend : c₂.Done rest ((sum left before op after right).tree.eval c.store).2 := by
    have h := Done.divided hdone₂ op.op (right.tree.eval (left.tree.eval c.store).2).1
    unfold BasicExpr.divided at h
    rw [if_neg (by rw [hdivides]; simp)] at h
    exact h
  have hfits : ¬ (sum left before op after right).tree.Overflows c.store := by
    rintro (h | h | h)
    · exact hfitsl h
    · exact hfitsr h
    · rw [hdivides] at h
      cases h.1
  have := hloop c₂ hend hfits
  cases op <;> exact this

theorem spec (p : Phrase l) (hplain : p.Plain) : p.Spec calls := by
  induction p with
  | literal digits => exact fun hready _ => post_literal hready hplain
  | var v => exact fun hready _ => post_variable hready
  | brackets before inner after ih => exact spec_brackets (ih hplain) hplain
  | ofFactor p ih => exact spec_ofFactor (ih hplain) hplain
  | signed sign blanks p ih => exact spec_signed (ih hplain) hplain
  | ofUnary p ih => exact spec_ofUnary (ih hplain)
  | product left before op after right ihl ihr =>
    exact spec_product (ihl hplain.1) (ihr hplain.2.2) hplain
  | ofTerm p ih => exact spec_ofTerm (ih hplain)
  | sum left before op after right ihl ihr =>
    exact spec_sum (ihl hplain.1) (ihr hplain.2) hplain

end Phrase

end RetroRocket
