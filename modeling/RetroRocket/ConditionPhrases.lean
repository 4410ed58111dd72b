import RetroRocket.BasicEvaluator

/-!
# Conditions and their texts

Relations between arithmetic expressions, and conditions made of them with `NOT`, `AND`, `OR` and
brackets, in the levels that the documentation gives the operators: `NOT` before `AND` before `OR`.
A condition is clear when the parser, which has one loop for `AND` and `OR` and one token to tell a
bracket around a condition from one around a value, reads it as meant.
-/

namespace RetroRocket

open BasicExpr

/-! ## Relations -/

namespace BasicExpr

def Relation.text : Relation → List Char
  | .less => ['<']
  | .lessEqual => ['<', '=']
  | .greater => ['>']
  | .greaterEqual => ['>', '=']
  | .equal => ['=']
  | .notEqual => ['<', '>']

def Relation.test : Relation → BitVec 64 → BitVec 64 → Bool
  | .less, a, b => a.toInt < b.toInt
  | .lessEqual, a, b => a.toInt ≤ b.toInt
  | .greater, a, b => b.toInt < a.toInt
  | .greaterEqual, a, b => b.toInt ≤ a.toInt
  | .equal, a, b => a = b
  | .notEqual, a, b => a ≠ b

theorem holds_compareInts (op : Relation) (a b : BitVec 64) :
    op.holds (compareInts a b) = op.test a b := by
  unfold compareInts
  cases hcmp : compare a.toInt b.toInt with
  | lt =>
    have h : a.toInt < b.toInt := compare_lt_iff_lt.mp hcmp
    have hne : a ≠ b := by
      rintro rfl
      exact lt_irrefl _ h
    cases op <;> simp [Relation.holds, Relation.test, h, h.le, not_lt_of_gt h, not_le_of_gt h, hne]
  | eq =>
    have h : a = b := BitVec.eq_of_toInt_eq (compare_eq_iff_eq.mp hcmp)
    cases op <;> simp [Relation.holds, Relation.test, h]
  | gt =>
    have h : b.toInt < a.toInt := compare_gt_iff_gt.mp hcmp
    have hne : a ≠ b := by
      rintro rfl
      exact lt_irrefl _ h
    cases op <;> simp [Relation.holds, Relation.test, h, h.le, not_lt_of_gt h, not_le_of_gt h, hne]

end BasicExpr

def Phrase.leading : {l : Level} → Phrase l → ℕ
  | _, .literal _ => 0
  | _, .var _ => 0
  | _, .brackets _ inner _ => inner.leading + 1
  | _, .ofFactor p => p.leading
  | _, .signed _ _ _ => 0
  | _, .ofUnary p => p.leading
  | _, .product left _ _ _ _ => left.leading
  | _, .ofTerm p => p.leading
  | _, .sum left _ _ _ _ => left.leading

inductive RelPhrase where
  | value (p : Phrase .value)
  | compare (left : RelPhrase) (before : Blanks) (op : Relation) (after : Blanks)
      (right : Phrase .value)

namespace RelPhrase

def text : RelPhrase → List Char
  | .value p => p.text
  | .compare left before op after right =>
    left.text ++ (before.1 ++ (op.text ++ (after.1 ++ right.text)))

def eval : RelPhrase → Store → BitVec 64 × Store
  | .value p, s => p.tree.eval s
  | .compare left _ op _ right, s =>
    let a := left.eval s
    let b := right.tree.eval a.2
    (if op.test a.1 b.1 then 1 else 0, b.2)

def Overflows : RelPhrase → Store → Prop
  | .value p, s => p.tree.Overflows s
  | .compare left _ _ _ right, s => left.Overflows s ∨ right.tree.Overflows (left.eval s).2

def Vars (P : Name → Prop) : RelPhrase → Prop
  | .value p => p.tree.Vars P
  | .compare left _ _ _ right => left.Vars P ∧ right.tree.Vars P

def Plain : RelPhrase → Prop
  | .value p => p.Plain
  | .compare left _ _ _ right => left.Plain ∧ right.Plain

def Boundary : RelPhrase → List Char → Prop
  | .value p, rest => p.Boundary rest
  | .compare _ _ _ _ right, rest => right.Boundary rest

def leading : RelPhrase → ℕ
  | .value p => p.leading
  | .compare left _ _ _ _ => left.leading

def size : RelPhrase → ℕ
  | .value p => p.size
  | .compare left _ _ _ right => left.size + right.size + 1

def ops : RelPhrase → ℕ
  | .value _ => 0
  | .compare left _ _ _ _ => left.ops + 1

end RelPhrase

/-! ## Conditions -/

inductive CondLevel where
  | atom
  | negation
  | conjunction
  | disjunction

inductive Cond : CondLevel → Type where
  | relation (r : RelPhrase) : Cond .atom
  | group (before : Blanks) (inner : Cond .disjunction) (after : Blanks) : Cond .atom
  | ofAtom (p : Cond .atom) : Cond .negation
  | not (blanks : Blanks) (operand : Cond .negation) : Cond .negation
  | ofNegation (p : Cond .negation) : Cond .conjunction
  | and (left : Cond .conjunction) (before after : Blanks) (right : Cond .negation) :
      Cond .conjunction
  | ofConjunction (p : Cond .conjunction) : Cond .disjunction
  | or (left : Cond .disjunction) (before after : Blanks) (right : Cond .conjunction) :
      Cond .disjunction

namespace Cond

def text : {l : CondLevel} → Cond l → List Char
  | _, .relation r => r.text
  | _, .group before inner after => '(' :: (before.1 ++ (inner.text ++ (after.1 ++ [')'])))
  | _, .ofAtom p => p.text
  | _, .not blanks p => "NOT".toList ++ (blanks.1 ++ p.text)
  | _, .ofNegation p => p.text
  | _, .and left before after right =>
    left.text ++ (before.1 ++ ("AND".toList ++ (after.1 ++ right.text)))
  | _, .ofConjunction p => p.text
  | _, .or left before after right =>
    left.text ++ (before.1 ++ ("OR".toList ++ (after.1 ++ right.text)))

def eval : {l : CondLevel} → Cond l → Store → Bool × Store
  | _, .relation r, s => ((r.eval s).1 != 0, (r.eval s).2)
  | _, .group _ inner _, s => inner.eval s
  | _, .ofAtom p, s => p.eval s
  | _, .not _ p, s => (!(p.eval s).1, (p.eval s).2)
  | _, .ofNegation p, s => p.eval s
  | _, .and left _ _ right, s =>
    let a := left.eval s
    let b := right.eval a.2
    (a.1 && b.1, b.2)
  | _, .ofConjunction p, s => p.eval s
  | _, .or left _ _ right, s =>
    let a := left.eval s
    let b := right.eval a.2
    (a.1 || b.1, b.2)

def Overflows : {l : CondLevel} → Cond l → Store → Prop
  | _, .relation r, s => r.Overflows s
  | _, .group _ inner _, s => inner.Overflows s
  | _, .ofAtom p, s => p.Overflows s
  | _, .not _ p, s => p.Overflows s
  | _, .ofNegation p, s => p.Overflows s
  | _, .and left _ _ right, s => left.Overflows s ∨ right.Overflows (left.eval s).2
  | _, .ofConjunction p, s => p.Overflows s
  | _, .or left _ _ right, s => left.Overflows s ∨ right.Overflows (left.eval s).2

def Vars (P : Name → Prop) : {l : CondLevel} → Cond l → Prop
  | _, .relation r => r.Vars P
  | _, .group _ inner _ => inner.Vars P
  | _, .ofAtom p => p.Vars P
  | _, .not _ p => p.Vars P
  | _, .ofNegation p => p.Vars P
  | _, .and left _ _ right => left.Vars P ∧ right.Vars P
  | _, .ofConjunction p => p.Vars P
  | _, .or left _ _ right => left.Vars P ∧ right.Vars P

def Boundary : {l : CondLevel} → Cond l → List Char → Prop
  | _, .relation r, rest => r.Boundary rest
  | _, .group _ _ _, _ => True
  | _, .ofAtom p, rest => p.Boundary rest
  | _, .not _ p, rest => p.Boundary rest
  | _, .ofNegation p, rest => p.Boundary rest
  | _, .and _ _ _ right, rest => right.Boundary rest
  | _, .ofConjunction p, rest => p.Boundary rest
  | _, .or _ _ _ right, rest => right.Boundary rest

def Spaced : {l : CondLevel} → Cond l → Prop
  | _, .relation _ => True
  | _, .group _ inner _ => inner.Spaced
  | _, .ofAtom p => p.Spaced
  | _, .not blanks p => EndsWord (blanks.1 ++ p.text) ∧ p.Spaced
  | _, .ofNegation p => p.Spaced
  | _, .and left before after right =>
    (∀ more, left.Boundary (before.1 ++ ("AND".toList ++ more))) ∧
      EndsWord (after.1 ++ right.text) ∧ left.Spaced ∧ right.Spaced
  | _, .ofConjunction p => p.Spaced
  | _, .or left before after right =>
    (∀ more, left.Boundary (before.1 ++ ("OR".toList ++ more))) ∧
      EndsWord (after.1 ++ right.text) ∧ left.Spaced ∧ right.Spaced

def leading : {l : CondLevel} → Cond l → ℕ
  | _, .relation r => r.leading
  | _, .group _ inner _ => inner.leading + 1
  | _, .ofAtom p => p.leading
  | _, .not _ _ => 0
  | _, .ofNegation p => p.leading
  | _, .and left _ _ _ => left.leading
  | _, .ofConjunction p => p.leading
  | _, .or left _ _ _ => left.leading

def isRelation : {l : CondLevel} → Cond l → Bool
  | _, .relation _ => true
  | _, .group _ _ _ => false
  | _, .ofAtom p => p.isRelation
  | _, .not _ _ => false
  | _, .ofNegation p => p.isRelation
  | _, .and _ _ _ _ => false
  | _, .ofConjunction p => p.isRelation
  | _, .or _ _ _ _ => false

def isPure : {l : CondLevel} → Cond l → Bool
  | _, .relation _ => true
  | _, .group _ inner _ => inner.isPure
  | _, .ofAtom p => p.isPure
  | _, .not _ _ => false
  | _, .ofNegation p => p.isPure
  | _, .and _ _ _ _ => false
  | _, .ofConjunction p => p.isPure
  | _, .or _ _ _ _ => false

/-- There is no `AND` at the top. -/
def noAnd : Cond .conjunction → Bool
  | .ofNegation _ => true
  | .and _ _ _ _ => false

def Plain : {l : CondLevel} → Cond l → Prop
  | _, .relation r => r.Plain
  | _, .group _ inner _ => inner.Plain
  | _, .ofAtom p => p.Plain
  | _, .not _ p => p.Plain
  | _, .ofNegation p => p.Plain
  | _, .and left _ _ right => left.Plain ∧ right.Plain
  | _, .ofConjunction p => p.Plain
  | _, .or left _ _ right => left.Plain ∧ right.Plain

/-- The parser reads the condition as meant: a relation does not start with two brackets, brackets
around a condition with operators start with another bracket, and no `AND` follows an `OR`. -/
def Clear : {l : CondLevel} → Cond l → Prop
  | _, .relation r => r.leading < 2
  | _, .group _ inner _ => inner.Clear ∧ (0 < inner.leading ∨ inner.isRelation)
  | _, .ofAtom p => p.Clear
  | _, .not _ p => p.Clear
  | _, .ofNegation p => p.Clear
  | _, .and left _ _ right => left.Clear ∧ right.Clear
  | _, .ofConjunction p => p.Clear
  | _, .or left _ _ right => left.Clear ∧ right.Clear ∧ right.noAnd

def size : {l : CondLevel} → Cond l → ℕ
  | _, .relation r => r.size + 1
  | _, .group _ inner _ => inner.size + 2
  | _, .ofAtom p => p.size
  | _, .not _ p => p.size + 1
  | _, .ofNegation p => p.size
  | _, .and left _ _ right => left.size + right.size + 1
  | _, .ofConjunction p => p.size
  | _, .or left _ _ right => left.size + right.size + 1

def ops : {l : CondLevel} → Cond l → ℕ
  | _, .and left _ _ _ => left.ops + 1
  | _, .ofConjunction p => p.ops
  | _, .or left _ _ _ => left.ops + 1
  | _, _ => 0

end Cond

end RetroRocket
