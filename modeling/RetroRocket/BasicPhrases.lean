import RetroRocket.BasicReading

/-!
# Arithmetic expressions and their texts

The trees of integer arithmetic with what they stand for, and the texts that they are written as. A
text is a `Phrase`, which has the levels of the grammar: a sum is made of terms, a term of signed
factors, and brackets make a factor of a sum. The tree of a phrase forgets the brackets and blanks.
-/

namespace RetroRocket

/-! ## Trees -/

structure Digits where
  digits : List Char
  ne_nil : digits ≠ []
  isDigit : ∀ c ∈ digits, c.isDigit

def Digits.value (d : Digits) : ℕ :=
  d.digits.foldl (fun n c => n * 10 + (c.toNat - '0'.toNat)) 0

inductive ArithOp where
  | add
  | sub
  | mul
  | div
  | mod
  deriving DecidableEq

def ArithOp.Divides : ArithOp → Bool
  | .div => true
  | .mod => true
  | _ => false

/-- Wrapping arithmetic, with the quotient rounded towards zero. The quotient of a division by zero
is zero, and so is the remainder. -/
def ArithOp.apply : ArithOp → BitVec 64 → BitVec 64 → BitVec 64
  | .add, a, b => a + b
  | .sub, a, b => a - b
  | .mul, a, b => a * b
  | .div, a, b => if b = 0 then 0 else a.sdiv b
  | .mod, a, b => if b = 0 then 0 else a.srem b

inductive ArithExpr where
  | literal (digits : Digits)
  | var (var : VarName)
  | pos (operand : ArithExpr)
  | neg (operand : ArithExpr)
  | binary (op : ArithOp) (left right : ArithExpr)

def Store.intVariable (s : Store) (var : Name) : Option (BitVec 64) :=
  match findVariable (s.basic.vars .int) var s.basic.callStackPtr with
  | some ⟨.int value, _⟩ => some value
  | _ => none

namespace ArithExpr

def value (env : Name → BitVec 64) : ArithExpr → Option (BitVec 64)
  | .literal d => some (BitVec.ofNat 64 d.value)
  | .var v => some (env v.name)
  | .pos e => value env e
  | .neg e => (value env e).map fun a => -a
  | .binary op l r =>
    match value env l, value env r with
    | some a, some b => if op.Divides ∧ b = 0 then none else some (op.apply a b)
    | _, _ => none

def eval : ArithExpr → Store → BitVec 64 × Store
  | .literal d, s => (BitVec.ofNat 64 d.value, s)
  | .var v, s => ((s.intVariable v.name).getD 0, s)
  | .pos e, s => e.eval s
  | .neg e, s => (-(e.eval s).1, (e.eval s).2)
  | .binary op l r, s =>
    let a := l.eval s
    let b := r.eval a.2
    (op.apply a.1 b.1, if op.Divides ∧ b.1 = 0 then b.2.report "Division by zero" else b.2)

def Overflows : ArithExpr → Store → Prop
  | .literal _, _ => False
  | .var _, _ => False
  | .pos e, s => e.Overflows s
  | .neg e, s => e.Overflows s
  | .binary op l r, s => l.Overflows s ∨ r.Overflows (l.eval s).2 ∨
      (op.Divides ∧ (l.eval s).1 = BitVec.intMin 64 ∧ (r.eval (l.eval s).2).1 = -1)

/-- The variables of a tree are among those that satisfy `P`. -/
def Vars (P : Name → Prop) : ArithExpr → Prop
  | .literal _ => True
  | .var v => P v.name
  | .pos e => e.Vars P
  | .neg e => e.Vars P
  | .binary _ l r => l.Vars P ∧ r.Vars P

end ArithExpr

/-! ## Reports keep the variables -/

section Store

variable {s : Store} {var : Name}

def Store.Defines (s : Store) (var : Name) : Prop :=
  (s.intVariable var).isSome ∧ findVariable (s.basic.vars .double) var s.basic.callStackPtr = none

theorem setError_eq (error : String) (line : BitVec 64) (ctx : BasicCtx) :
    ctx.setError error line = setGlobalMap .int "ERRLINE".toList ⟨.int line, false⟩
      (setGlobalMap .int "ERR".toList ⟨.int 1, false⟩
        (setGlobalMap .string "ERR$".toList ⟨.string (textBytes error.toList), false⟩ ctx)) := by
  unfold BasicCtx.setError basicSetStringVariable basicSetIntVariable
  rw [basicSetVariable_global ctx (by decide)]
  dsimp only [BasicCtx.afterSet]
  rw [basicSetVariable_global _ (by decide)]
  dsimp only
  rw [basicSetVariable_global _ (by decide)]

theorem vars_setGlobalMap_of_ne {kind other : VarKind} (h : other ≠ kind) (new : Variable)
    (ctx : BasicCtx) : (setGlobalMap kind var new ctx).vars other = ctx.vars other :=
  Function.update_of_ne h _ _

theorem findVariable_setGlobalMap {name : Name} {new : BitVec 64} {ctx : BasicCtx} {j : ℕ}
    (h : ∃ value global, findVariable (ctx.vars .int) var j = some ⟨.int value, global⟩) :
    ∃ value global, findVariable ((setGlobalMap .int name ⟨.int new, false⟩ ctx).vars .int) var j =
      some ⟨.int value, global⟩ := by
  induction j with
  | zero =>
    unfold findVariable at h ⊢
    unfold setGlobalMap
    dsimp only
    rw [Function.update_self]
    dsimp only
    by_cases hvar : var = name
    · rw [hvar, Function.update_self]
      exact ⟨new, false, rfl⟩
    · rw [Function.update_of_ne hvar]
      exact h
  | succ j ih =>
    have hlocals : ((setGlobalMap .int name ⟨.int new, false⟩ ctx).vars .int).locals =
        (ctx.vars .int).locals := by
      unfold setGlobalMap
      dsimp only
      rw [Function.update_self]
    unfold findVariable at h ⊢
    rw [hlocals]
    cases hfound : ((ctx.vars .int).locals (j + 1)).bind (· var) with
    | some found =>
      rw [hfound] at h
      exact h
    | none =>
      rw [hfound] at h
      exact ih h

theorem Store.intVariable_isSome : (s.intVariable var).isSome ↔ ∃ value global,
    findVariable (s.basic.vars .int) var s.basic.callStackPtr = some ⟨.int value, global⟩ := by
  unfold Store.intVariable
  split
  · next value global heq => simp [heq]
  · next hnot =>
    constructor
    · intro h
      cases h
    · rintro ⟨value, global, heq⟩
      exact absurd heq (hnot value global)

theorem Store.Defines.report (h : s.Defines var) (error : String) :
    (s.report error).Defines var := by
  refine ⟨?_, ?_⟩
  · apply Store.intVariable_isSome.mpr
    unfold Store.report
    dsimp only
    rw [setError_eq]
    apply findVariable_setGlobalMap
    apply findVariable_setGlobalMap
    rw [vars_setGlobalMap_of_ne (by decide)]
    exact Store.intVariable_isSome.mp h.1
  · unfold Store.report
    dsimp only
    rw [setError_eq, vars_setGlobalMap_of_ne (by decide), vars_setGlobalMap_of_ne (by decide),
      vars_setGlobalMap_of_ne (by decide)]
    exact h.2

end Store

namespace ArithExpr

variable {e : ArithExpr} {s : Store}

theorem Defines.eval {var : Name} (h : s.Defines var) (e : ArithExpr) :
    (e.eval s).2.Defines var := by
  induction e generalizing s with
  | literal d => exact h
  | var v => exact h
  | pos e ih => exact ih h
  | neg e ih => exact ih h
  | binary op l r ihl ihr =>
    have hr := ihr (ihl h)
    unfold ArithExpr.eval
    dsimp only
    split
    · exact hr.report _
    · exact hr

theorem Vars.imp {P Q : Name → Prop} (h : e.Vars P) (himp : ∀ var, P var → Q var) : e.Vars Q := by
  induction e with
  | literal d => trivial
  | var v => exact himp _ h
  | pos e ih => exact ih h
  | neg e ih => exact ih h
  | binary op l r ihl ihr => exact ⟨ihl h.1, ihr h.2⟩

theorem eval_of_value {v : BitVec 64}
    (h : e.value (fun var => (s.intVariable var).getD 0) = some v) : e.eval s = (v, s) := by
  induction e generalizing v with
  | literal d =>
    cases h
    rfl
  | var v =>
    cases h
    rfl
  | pos e ih => exact ih h
  | neg e ih =>
    obtain ⟨a, ha, rfl⟩ := Option.map_eq_some_iff.mp h
    unfold eval
    rw [ih ha]
  | binary op l r ihl ihr =>
    unfold value at h
    split at h
    · next a b ha hb =>
      unfold eval
      rw [ihl ha]
      dsimp only
      rw [ihr hb]
      dsimp only
      split at h
      · cases h
      · next hnot =>
        cases h
        rw [if_neg hnot]
    · cases h

theorem errors_eval (e : ArithExpr) (s : Store) :
    ∃ n, (e.eval s).2.errors = List.replicate n "Division by zero" ++ s.errors := by
  induction e generalizing s with
  | literal d => exact ⟨0, rfl⟩
  | var v => exact ⟨0, rfl⟩
  | pos e ih => exact ih s
  | neg e ih => exact ih s
  | binary op l r ihl ihr =>
    obtain ⟨n, hn⟩ := ihl s
    obtain ⟨m, hm⟩ := ihr (l.eval s).2
    rw [hn, ← List.append_assoc, List.replicate_append_replicate] at hm
    unfold eval
    dsimp only
    split
    · refine ⟨m + n + 1, ?_⟩
      unfold Store.report
      dsimp only
      rw [hm]
      rfl
    · exact ⟨m + n, hm⟩

theorem errors_eval_of_value (h : e.value (fun var => (s.intVariable var).getD 0) = none) :
    ∃ n, 0 < n ∧ (e.eval s).2.errors = List.replicate n "Division by zero" ++ s.errors := by
  induction e generalizing s with
  | literal d => cases h
  | var v => cases h
  | pos e ih => exact ih h
  | neg e ih => exact ih (Option.map_eq_none_iff.mp h)
  | binary op l r ihl ihr =>
    have hmore : ∀ n, 0 < n → (r.eval (l.eval s).2).2.errors =
        List.replicate n "Division by zero" ++ s.errors → ∃ n, 0 < n ∧
          ((binary op l r).eval s).2.errors = List.replicate n "Division by zero" ++ s.errors := by
      intro n hpos hn
      unfold eval
      dsimp only
      split
      · refine ⟨n + 1, n.succ_pos, ?_⟩
        unfold Store.report
        dsimp only
        rw [hn]
        rfl
      · exact ⟨n, hpos, hn⟩
    unfold value at h
    cases hl : l.value (fun var => (s.intVariable var).getD 0) with
    | none =>
      obtain ⟨n, hpos, hn⟩ := ihl hl
      obtain ⟨m, hm⟩ := errors_eval r (l.eval s).2
      apply hmore (m + n) (by omega)
      rw [hm, hn, ← List.append_assoc, List.replicate_append_replicate]
    | some a =>
      have ha := eval_of_value hl
      cases hr : r.value (fun var => (s.intVariable var).getD 0) with
      | none =>
        obtain ⟨n, hpos, hn⟩ := ihr hr
        apply hmore n hpos
        rw [ha]
        exact hn
      | some b =>
        rw [hl, hr] at h
        dsimp only at h
        split at h
        · next hzero =>
          refine ⟨1, one_pos, ?_⟩
          unfold eval
          rw [ha]
          dsimp only
          rw [eval_of_value hr]
          dsimp only
          rw [if_pos hzero]
          rfl
        · cases h

end ArithExpr

/-! ## Phrases -/

inductive Level where
  | factor
  | unary
  | term
  | value

abbrev Blanks := { text : List Char // text.all isBlank }

inductive Sign where
  | plus
  | minus

def Sign.char : Sign → Char
  | .plus => '+'
  | .minus => '-'

def Sign.flip : Sign → Bool → Bool
  | .plus, negate => negate
  | .minus, negate => !negate

def Sign.tree : Sign → ArithExpr → ArithExpr
  | .plus => .pos
  | .minus => .neg

/-- The operators between the signed factors of a term. That of the remainder is a character, or the
word that the documentation has for it. -/
inductive TermOp where
  | asterisk
  | slash
  | percent
  | modWord

def TermOp.text : TermOp → List Char
  | .asterisk => ['*']
  | .slash => ['/']
  | .percent => ['%']
  | .modWord => [' ', 'M', 'O', 'D', ' ']

def TermOp.op : TermOp → ArithOp
  | .asterisk => .mul
  | .slash => .div
  | .percent => .mod
  | .modWord => .mod

inductive SumOp where
  | plus
  | minus

def SumOp.char : SumOp → Char
  | .plus => '+'
  | .minus => '-'

def SumOp.op : SumOp → ArithOp
  | .plus => .add
  | .minus => .sub

inductive Phrase : Level → Type where
  | literal (digits : Digits) : Phrase .factor
  | var (var : VarName) : Phrase .factor
  | brackets (before : Blanks) (inner : Phrase .value) (after : Blanks) : Phrase .factor
  | ofFactor (factor : Phrase .factor) : Phrase .unary
  | signed (sign : Sign) (blanks : Blanks) (operand : Phrase .unary) : Phrase .unary
  | ofUnary (unary : Phrase .unary) : Phrase .term
  | product (left : Phrase .term) (before : Blanks) (op : TermOp) (after : Blanks)
      (right : Phrase .unary) : Phrase .term
  | ofTerm (term : Phrase .term) : Phrase .value
  | sum (left : Phrase .value) (before : Blanks) (op : SumOp) (after : Blanks)
      (right : Phrase .term) : Phrase .value

namespace Phrase

def text : {l : Level} → Phrase l → List Char
  | _, .literal d => d.digits
  | _, .var v => v.name
  | _, .brackets before inner after => '(' :: (before.1 ++ (inner.text ++ (after.1 ++ [')'])))
  | _, .ofFactor p => p.text
  | _, .signed sign blanks p => sign.char :: (blanks.1 ++ p.text)
  | _, .ofUnary p => p.text
  | _, .product left before op after right =>
    left.text ++ (before.1 ++ (op.text ++ (after.1 ++ right.text)))
  | _, .ofTerm p => p.text
  | _, .sum left before op after right =>
    left.text ++ (before.1 ++ (op.char :: (after.1 ++ right.text)))

def tree : {l : Level} → Phrase l → ArithExpr
  | _, .literal d => .literal d
  | _, .var v => .var v
  | _, .brackets _ inner _ => inner.tree
  | _, .ofFactor p => p.tree
  | _, .signed sign _ p => sign.tree p.tree
  | _, .ofUnary p => p.tree
  | _, .product left _ op _ right => .binary op.op left.tree right.tree
  | _, .ofTerm p => p.tree
  | _, .sum left _ op _ right => .binary op.op left.tree right.tree

/-- Remainders are written with the character, and literals are shorter than `MAX_NUMLEN`. -/
def Plain : {l : Level} → Phrase l → Prop
  | _, .literal d => d.digits.length < maxNumlen
  | _, .var _ => True
  | _, .brackets _ inner _ => inner.Plain
  | _, .ofFactor p => p.Plain
  | _, .signed _ _ p => p.Plain
  | _, .ofUnary p => p.Plain
  | _, .product left _ op _ right => left.Plain ∧ op ≠ .modWord ∧ right.Plain
  | _, .ofTerm p => p.Plain
  | _, .sum left _ _ _ right => left.Plain ∧ right.Plain

def Boundary : {l : Level} → Phrase l → List Char → Prop
  | _, .literal _, rest => EndsNumber rest
  | _, .var _, rest => EndsName rest
  | _, .brackets _ _ _, _ => True
  | _, .ofFactor p, rest => p.Boundary rest
  | _, .signed _ _ p, rest => p.Boundary rest
  | _, .ofUnary p, rest => p.Boundary rest
  | _, .product _ _ _ _ right, rest => right.Boundary rest
  | _, .ofTerm p, rest => p.Boundary rest
  | _, .sum _ _ _ _ right, rest => right.Boundary rest

def size : {l : Level} → Phrase l → ℕ
  | _, .literal _ => 1
  | _, .var _ => 1
  | _, .brackets _ inner _ => inner.size + 1
  | _, .ofFactor p => p.size
  | _, .signed _ _ p => p.size + 1
  | _, .ofUnary p => p.size
  | _, .product left _ _ _ right => left.size + right.size + 1
  | _, .ofTerm p => p.size
  | _, .sum left _ _ _ right => left.size + right.size + 1

def ops : {l : Level} → Phrase l → ℕ
  | _, .product left _ _ _ _ => left.ops + 1
  | _, .sum left _ _ _ _ => left.ops + 1
  | _, _ => 0

end Phrase

def noBlanks : Blanks := ⟨[], rfl⟩

end RetroRocket
