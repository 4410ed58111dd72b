import RetroRocket.BuddyRun
import RetroRocket.MemoryGrants

/-!
# Memory for programs

`MEMALLOC`, `MEMREALLOC` and `MEMRELEASE` of `lowlevel.c`, on the heap of a program and its tree of
grants. The nodes of the tree are allocated from the same heap. The arguments are 64-bit words, and
each request to the heap comes with the pools that `kmalloc_aligned` hands out for it.
-/

namespace RetroRocket

structure BasicMemory where
  heap : BuddyAllocator
  grants : MemoryGrants

namespace BasicMemory

variable (m : BasicMemory)

/-- `sizeof(memory_grant_t)`. -/
def nodeSize : ℕ := 48

/-- `memory_grants_add`, with the node. -/
def grantsAdd (base length : ℕ) (pools : List ℕ) : Option BasicMemory :=
  if base = 0 ∨ length = 0 then some m
  else do
    let (node, heap) ← buddyMalloc m.heap nodeSize pools
    if node = 0 then some ⟨heap, m.grants⟩
    else do
      let (grants, added) ← m.grants.add base length (some node)
      if added then some ⟨heap, grants⟩
      else do
        let heap ← buddyFree heap node
        some ⟨heap, grants⟩

/-- `memory_grants_remove`, with the node. -/
def grantsRemove (base : ℕ) : Option BasicMemory :=
  if base = 0 then some m
  else do
    match ← Links.find (m.grants.compareBase base) m.grants.fuel m.grants.links with
    | none => some m
    | some node => do
      let (grants, _) ← m.grants.remove base
      let heap ← buddyFree m.heap node
      some ⟨heap, grants⟩

/-- `basic_memalloc`. -/
def memalloc (size : ℕ) (pools nodePools : List ℕ) : Option (BasicMemory × Except String ℕ) := do
  let (p, heap) ← buddyMalloc m.heap size pools
  if p = 0 then some (⟨heap, m.grants⟩, .error "Out of memory")
  else do
    let m ← grantsAdd ⟨heap, m.grants⟩ p size nodePools
    some (m, .ok p)

/-- `basic_memrealloc`. -/
def memrealloc (handle size : ℕ) (pools nodePools : List ℕ) :
    Option (BasicMemory × Except String ℕ) := do
  let (p, heap) ← buddyRealloc m.heap handle size pools
  if p = 0 then some (⟨heap, m.grants⟩, .error "Out of memory")
  else do
    let m ← grantsRemove ⟨heap, m.grants⟩ handle
    let m ← m.grantsAdd p size nodePools
    some (m, .ok p)

/-- The format `%016lx`. -/
def hex16 (n : ℕ) : String :=
  let digits := Nat.toDigits 16 n
  String.ofList (List.replicate (16 - digits.length) '0' ++ digits)

/-- `memrelease_statement`. -/
def memrelease (ptr : ℕ) : Option (BasicMemory × Except String ℕ) := do
  if ← m.grants.validBase ptr then
    let heap ← buddyFree m.heap ptr
    let m ← grantsRemove ⟨heap, m.grants⟩ ptr
    some (m, .ok 0)
  else some (m, .error ("Bad address &" ++ hex16 ptr))

inductive Statement where
  | memalloc (size : ℕ) (pools nodePools : List ℕ)
  | memrealloc (handle size : ℕ) (pools nodePools : List ℕ)
  | memrelease (ptr : ℕ)

def exec : Statement → Option (BasicMemory × Except String ℕ)
  | .memalloc size pools nodePools => m.memalloc size pools nodePools
  | .memrealloc handle size pools nodePools => m.memrealloc handle size pools nodePools
  | .memrelease ptr => m.memrelease ptr

/-- The memory of the program that a statement hands to `buddy_realloc` or `buddy_free`. -/
def handedOver : Statement → List ℕ
  | .memalloc .. => []
  | .memrealloc handle .. => if handle = 0 then [] else [handle]
  | .memrelease ptr => if m.grants.validBase ptr = some true then [ptr] else []

end BasicMemory

end RetroRocket
