import RetroRocket.BasicArrays

/-!
# The elements that statements on whole arrays compare

How ARRAYFIND and ARRSORTBY of `array.c` compare elements. The elements of a double array are the
bits of its values.
-/

namespace RetroRocket

/-- The place of a double among the others, from its bits: below 0 for one with a sign, and none for
one that is not a number. -/
def doublePlace (x : ℤ) : Option ℤ :=
  let bits : ℕ := (x % 2 ^ 64).toNat
  let magnitude : ℕ := bits % 2 ^ 63
  if 0x7FF0000000000000 < magnitude then none
  else some (if bits < 2 ^ 63 then (magnitude : ℤ) else -(magnitude : ℤ))

/-- `<` of doubles. -/
def doubleLt (x y : ℤ) : Bool :=
  match doublePlace x, doublePlace y with
  | some a, some b => decide (a < b)
  | _, _ => false

/-- `==` of doubles. -/
def doubleEq (x y : ℤ) : Bool :=
  match doublePlace x, doublePlace y with
  | some a, some b => a == b
  | _, _ => false

/-! ## ARRAYFIND -/

structure Needle where
  int : ℤ
  double : ℤ
  string : List Byte

/-! ## ARRSORTBY -/

def keyOutOfOrder (kind : VarKind) (descending : Bool) (text : ℤ → Option (List Byte))
    (left right : ℤ) : Option Bool :=
  match kind with
  | .int => some (if descending then left < right else right < left)
  | .double => some (if descending then doubleLt left right else doubleLt right left)
  | .string => do
    let order := BasicExpr.strcmp (← text left) (← text right)
    some (if descending then order == .lt else order == .gt)

def loadKey (keys : ℕ → Option ℤ) (index : ℤ) : Option ℤ :=
  if index < 0 then none else keys index.toNat

/-- `int_key_out_of_order` and its siblings. -/
def indexOutOfOrder (kind : VarKind) (descending : Bool) (text : ℤ → Option (List Byte))
    (keys : ℕ → Option ℤ) (left right : ℤ) : Option Bool := do
  keyOutOfOrder kind descending text (← loadKey keys left) (← loadKey keys right)

end RetroRocket
