import RetroRocket.BasicExpression
import RetroRocket.BasicVariables
import RetroRocket.BuddyShare
import RetroRocket.IndexSort

/-!
# The arrays of a BASIC program

The arrays of `array.c`, on blocks of the buddy allocator, and the texts of its errors. The elements
of an array are the cells of a block, each of eight bytes; an element of a string array points to a
block with a text.
-/

namespace RetroRocket

/-- `ub_var_int_array` and `ub_var_double_array`, and with its `value_lengths`
`ub_var_string_array`. -/
structure BasicArray where
  values : ℕ
  valueLengths : ℕ
  itemcount : ℕ

/-- What an allocation finds: the pools that `kmalloc_aligned` returns, and the cells of a new
block. -/
structure BlockSupply where
  pools : List ℕ
  cells : ℕ → ℤ

/-- What `hashmap_set` does with a new entry: whether there is room for it, and what a pointer to
another entry reads after it. -/
structure TableTurn where
  room : Bool
  found : BasicArray → BasicArray

/-- The part of `basic_ctx` that arrays are in, with the memory behind it and what the allocations
and the tables to come will do. Variables that are no arrays are `plain`. -/
structure ArrayCtx where
  session : BuddySession
  cells : ℕ → ℕ → ℤ
  text : ℕ → List Byte
  arrays : VarKind → Name → Option BasicArray
  plain : VarKind → Name → Option ℤ
  supply : List BlockSupply
  turns : List TableTurn

namespace ArrayCtx

/-- The text that an element of a string array points to, or `""`. -/
def textAt (s : ArrayCtx) (x : ℤ) : Option (List Byte) :=
  if x = 0 then some []
  else if s.session.live.any (·.1 == x.toNat) then some (s.text x.toNat) else none

end ArrayCtx

/-! ## Errors -/

def noSuchArray (var : Name) : String := "No such array variable '" ++ String.ofList var ++ "'"

def malformedName (var : Name) : String := "Malformed variable name '" ++ String.ofList var ++ "'"

def outOfMemory (var : Name) : String := "Array '" ++ String.ofList var ++ "': Out of memory"

def invalidSize (size : ℤ) : String := "Invalid array size " ++ toString size

end RetroRocket
