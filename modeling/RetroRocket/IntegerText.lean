import Mathlib.Data.Nat.Digits.Defs
import Mathlib.Logic.Equiv.Basic
import RetroRocket.Bits

/-!
# Numbers as text

`do_itoa` and `do_atoi` of `string.c`, which write an integer in a radix from 2 to 36 and read it
back. What is written of an integer is read as that integer. The most negative one has no absolute
value: its remainders are negative, and the digit table has nothing there.
-/

namespace RetroRocket

def charByte (c : Char) : Byte := BitVec.ofNat 8 c.toNat

def alphabet : List Byte := "0123456789ABCDEFGHIJKLMNOPQRSTUVWXYZ".toList.map charByte

def digitAt (radix : ℕ) (i : ℤ) : Option Byte :=
  if 0 ≤ i ∧ i < radix then alphabet[i.toNat]? else none

/-! ## Strings in memory -/

def memrev (mem : Buffer) (n : ℕ) : Buffer :=
  (List.range (n / 2)).foldl (fun mem i => mem ∘ Equiv.swap i (n - i - 1)) mem

/-- `strlen`, for a string that ends before `bound`. -/
def strlen (mem : Buffer) (bound : ℕ) : ℕ := ((List.range bound).find? (mem · == 0)).getD bound

def strrev (mem : Buffer) (bound : ℕ) : Buffer := memrev mem (strlen mem bound)

/-- The first `n` bytes of memory. -/
def textOf (mem : Buffer) (n : ℕ) : List Byte := (List.range n).map mem

/-- There is a string of length `n`. -/
def IsText (mem : Buffer) (n : ℕ) : Prop := mem n = 0 ∧ ∀ i < n, mem i ≠ 0

/-! ## Writing -/

/-- The variables of `do_itoa`: `buf` is counted from `low`, where `mem` starts. -/
structure ItoaState where
  target : BitVec 64
  mem : Buffer
  buf : ℕ
  outLen : ℕ

/-- `*buf++ = c`. -/
def ItoaState.put (s : ItoaState) (c : Byte) : ItoaState :=
  { s with mem := Function.update s.mem s.buf c, buf := s.buf + 1 }

def itoaLoop (radix : ℕ) : ℕ → ItoaState → Option ItoaState
  | 0, _ => none
  | fuel + 1, s => do
    let c ← digitAt radix (s.target.srem (BitVec.ofNat 64 radix)).toInt
    let s := { s.put c with
      outLen := s.outLen + 1
      target := s.target.sdiv (BitVec.ofNat 64 radix) }
    if s.target ≠ 0 then itoaLoop radix fuel s else some s

/-- `do_itoa`. A number has 64 digits at most. -/
def doItoa (target : BitVec 64) (mem : Buffer) (radix : ℕ) : Option (ℤ × ItoaState) := do
  if radix < 2 ∨ 36 < radix then some (-1, ⟨target, mem, 0, 0⟩)
  else
    let sign := target.slt 0
    let s ← itoaLoop radix 64 ⟨if sign then -target else target, mem, 0, 0⟩
    let s := if sign then { s.put (charByte '-') with outLen := s.outLen + 1 } else s
    let s := s.put 0
    some (0, { s with mem := strrev s.mem s.buf })

/-! ## Reading -/

structure AtoiState where
  res : BitVec 64
  looped : Bool
  sign : Bool
  succ : Bool

/-- `"\t\n\v\f\r +_"`. -/
def blanks : List Byte := [9, 10, 11, 12, 13, 32, 43, 95]

/-- `toupper`, which compares signed characters. -/
def upperByte (c : Byte) : Byte := if charByte 'a' ≤ c ∧ c ≤ charByte 'z' then c - 32 else c

def atoiLoop (radix : ℕ) : AtoiState → List Byte → AtoiState
  | s, [] => s
  | s, c :: text =>
    if c = charByte '-' then atoiLoop radix { s with sign := true } text
    else if c ∈ blanks then atoiLoop radix s text
    else
      let s := { s with looped := true }
      match alphabet.idxOf? (upperByte c) with
      | none => s
      | some pos =>
        if radix ≤ pos then s
        else
          atoiLoop radix
            { s with succ := true, res := s.res * BitVec.ofNat 64 radix + BitVec.ofNat 64 pos } text

/-- `do_atoi`, with what it stores. -/
def doAtoi (target : List Byte) (radix : ℕ) : ℤ × Option (BitVec 64) :=
  if radix < 2 ∨ 36 < radix then (-4, none)
  else
    let s := atoiLoop radix ⟨0, false, false, false⟩ target
    (if s.succ then 0 else if s.looped then -2 else -1, some (if s.sign then -s.res else s.res))

def RoundTrips (n : BitVec 64) (radix : ℕ) (mem : Buffer) : Prop :=
  ∃ s, doItoa n mem radix = some (0, s) ∧ s.buf ≤ 66 ∧ (∀ i, 66 ≤ i → s.mem i = mem i) ∧
    IsText s.mem s.outLen ∧ doAtoi (textOf s.mem s.outLen) radix = (0, some n)

end RetroRocket
