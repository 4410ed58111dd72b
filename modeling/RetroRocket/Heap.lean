import RetroRocket.Bits

/-!
# The kernel heap

The functions of `allocator.c`. Memory is seen through the block headers in it: `mem a` is the
header at address `a`. A header has 24 bytes and a null pointer is address 0. The walks along the
block list are given 2 ^ 64 steps, more than a list without a cycle has nodes; a walk that does not
end, and the halt on a double free, are `none`.
-/

namespace RetroRocket

/-- `allocator_header`. -/
structure Header where
  size : ℕ
  free : Bool
  next : ℕ
  deriving DecidableEq

structure Allocator where
  alignment : ℕ
  head : ℕ
  cursor : ℕ
  mem : ℕ → Header

namespace Allocator

def store (s : Allocator) (a : ℕ) (h : Header) : Allocator :=
  { s with mem := Function.update s.mem a h }

end Allocator

def allocatorRoundUp (v a : ℕ) : ℕ :=
  if a = 0 then v
  else
    let mask := BitVec.ofNat 64 a - 1
    ((BitVec.ofNat 64 v + mask) &&& ~~~mask).toNat

/-- The walk of `allocator_insert_region` to the last block below `h`. -/
def insertPosition (mem : ℕ → Header) (h : ℕ) : ℕ → ℕ → Option ℕ
  | 0, _ => none
  | fuel + 1, cur =>
    if (mem cur).next ≠ 0 ∧ (mem cur).next < h then insertPosition mem h fuel (mem cur).next
    else some cur

def allocatorInsertRegion (s : Allocator) (h : ℕ) : Option Allocator :=
  if s.head = 0 ∨ h < s.head then
    some { s.store h { s.mem h with next := s.head } with head := h }
  else do
    let cur ← insertPosition s.mem h (2 ^ 64) s.head
    let s := s.store h { s.mem h with next := (s.mem cur).next }
    some (s.store cur { s.mem cur with next := h })

def findPrevLoop (mem : ℕ → Header) (h : ℕ) : ℕ → ℕ → ℕ → Option ℕ
  | 0, _, _ => none
  | fuel + 1, cur, prev =>
    if cur ≠ 0 ∧ cur ≠ h then findPrevLoop mem h fuel (mem cur).next cur else some prev

def allocatorFindPrev (s : Allocator) (h : ℕ) : Option ℕ := findPrevLoop s.mem h (2 ^ 64) s.head 0

/-- The forward merge of `allocator_coalesce_local`, with the `next` it goes on with. -/
def forwardMerge (s : Allocator) (h next : ℕ) : Allocator × ℕ :=
  if next ≠ 0 ∧ (s.mem next).free = true ∧ u64 (h + 24 + (s.mem h).size) = next then
    let merged := { s.mem h with
      size := u64 ((s.mem h).size + (24 + (s.mem next).size))
      next := (s.mem next).next }
    (s.store h merged, merged.next)
  else (s, next)

/-- The backward merge of `allocator_coalesce_local`, with the `h` it goes on with. -/
def backwardMerge (s : Allocator) (prev h : ℕ) : Allocator × ℕ :=
  if prev ≠ 0 ∧ (s.mem prev).free = true ∧ u64 (prev + 24 + (s.mem prev).size) = h then
    let merged := { s.mem prev with
      size := u64 ((s.mem prev).size + (24 + (s.mem h).size))
      next := (s.mem h).next }
    (s.store prev merged, prev)
  else (s, h)

def allocatorCoalesceLocal (s : Allocator) (h : ℕ) : Option Allocator := do
  let prev ← allocatorFindPrev s h
  let (s, next) := forwardMerge s h (s.mem h).next
  let (s, h) := backwardMerge s prev h
  some (if s.cursor = 0 ∨ s.cursor = next then { s with cursor := h } else s)

def allocatorFindSuitable (mem : ℕ → Header) (size : ℕ) : ℕ → ℕ → Option ℕ
  | 0, _ => none
  | fuel + 1, cur =>
    if cur = 0 then some 0
    else if (mem cur).free = true ∧ size ≤ (mem cur).size then some cur
    else allocatorFindSuitable mem size fuel (mem cur).next

def allocatorInit (mem : ℕ → Header) (heap size alignment : ℕ) : Allocator where
  alignment := alignment
  head := heap
  cursor := heap
  mem := Function.update mem heap ⟨sub64 size 24, true, 0⟩

/-- The search of `allocator_alloc`: from the cursor, then once more from the head. -/
def findBlock (s : Allocator) (size : ℕ) : Option ℕ := do
  let start := if s.cursor ≠ 0 then s.cursor else s.head
  let current ← allocatorFindSuitable s.mem size (2 ^ 64) start
  if current = 0 ∧ start ≠ s.head then allocatorFindSuitable s.mem size (2 ^ 64) s.head
  else some current

/-- The split of `allocator_alloc`. -/
def splitBlock (s : Allocator) (current size : ℕ) : Allocator :=
  let totalSize := u64 (size + 24)
  if u64 (totalSize + (24 + s.alignment)) ≤ (s.mem current).size then
    let next := u64 (current + totalSize)
    let s := s.store next ⟨sub64 (s.mem current).size totalSize, true, (s.mem current).next⟩
    s.store current { s.mem current with size := size, next := next }
  else s

def allocatorAlloc (s : Allocator) (size : ℕ) : Option (ℕ × Allocator) := do
  let size := allocatorRoundUp size (if s.alignment ≠ 0 then s.alignment else 8)
  let current ← findBlock s size
  if current = 0 then some (0, s)
  else
    let s := splitBlock s current size
    let s := s.store current { s.mem current with free := false }
    let next := (s.mem current).next
    some (current + 24, { s with cursor := if next ≠ 0 then next else s.head })

def allocatorFree (s : Allocator) (ptr : ℕ) : Option (ℕ × Allocator) :=
  if ptr = 0 then some (0, s)
  else
    let header := sub64 ptr 24
    if (s.mem header).free = true then none
    else do
      let s := s.store header { s.mem header with free := true }
      let size := (s.mem header).size
      let s ← allocatorCoalesceLocal s header
      some (size, s)

def allocatorUsableSize (s : Allocator) (ptr : ℕ) : ℕ :=
  if ptr = 0 then 0 else (s.mem (sub64 ptr 24)).size

def allocatorAddRegion (s : Allocator) (region size : ℕ) : Option (Bool × Allocator) :=
  if region = 0 ∨ size ≤ 24 then some (false, s)
  else do
    let s := s.store region ⟨sub64 size 24, true, 0⟩
    let s ← allocatorInsertRegion s region
    let s ← allocatorCoalesceLocal s region
    some (true, if s.cursor = 0 then { s with cursor := s.head } else s)

end RetroRocket
