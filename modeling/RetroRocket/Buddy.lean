import RetroRocket.Bits

/-!
# The buddy allocator

The functions of `buddy_allocator.c`. The regions of an allocator are numbered in the order of their
list, a null pointer is address 0, and memory is seen through the block headers in it: `mem a` is
the header at address `a`, of 24 bytes. The pools that `kmalloc_aligned` hands out during a call
are a list; when it is used up, the next request fails. A call that does not return is `none`.
-/

namespace RetroRocket

/-- `buddy_header_t` and `buddy_block_t`. -/
structure BuddyHeader where
  next : ℕ
  order : ℕ
  region : ℕ
  deriving DecidableEq

/-- `buddy_region_t`, without its `next`. -/
structure BuddyRegion where
  pool : ℕ
  size : ℕ
  freeLists : ℕ → ℕ
  minOrder : ℕ
  maxOrder : ℕ

/-- `buddy_allocator_t` with the regions, of which there are `regions`, and the headers in
memory. -/
structure BuddyAllocator where
  regions : ℕ
  region : ℕ → BuddyRegion
  activeRegion : Option ℕ
  growOrder : ℕ
  minOrder : ℕ
  maxOrder : ℕ
  currentBytes : ℕ
  peakBytes : ℕ
  mem : ℕ → BuddyHeader

/-- The value of `prev` in `buddy_free`: the head of a free list, or the `next` of a block. -/
inductive BuddyLink where
  | head
  | next (block : ℕ)

def BuddyRegion.setHead (region : BuddyRegion) (order a : ℕ) : BuddyRegion :=
  { region with freeLists := Function.update region.freeLists order a }

namespace BuddyAllocator

def store (s : BuddyAllocator) (a : ℕ) (h : BuddyHeader) : BuddyAllocator :=
  { s with mem := Function.update s.mem a h }

/-- `region->free_lists[order] = a`. -/
def setHead (s : BuddyAllocator) (i order a : ℕ) : BuddyAllocator :=
  { s with region := Function.update s.region i ((s.region i).setHead order a) }

def push (s : BuddyAllocator) (i order block : ℕ) : BuddyAllocator :=
  (s.store block { s.mem block with next := (s.region i).freeLists order }).setHead i order block

/-- `*prev = cur->next`. -/
def unlink (s : BuddyAllocator) (i order cur : ℕ) : BuddyLink → BuddyAllocator
  | .head => s.setHead i order (s.mem cur).next
  | .next block => s.store block { s.mem block with next := (s.mem cur).next }

end BuddyAllocator

def blockOffset (region : BuddyRegion) (ptr : ℕ) : ℕ :=
  sub64 ptr region.pool &&& (region.size - 1)

def buddyOf (region : BuddyRegion) (ptr order : ℕ) : ℕ :=
  u64 (region.pool + ((blockOffset region ptr ^^^ 2 ^ order) &&& (region.size - 1)))

def alignUp (x align : ℕ) : ℕ :=
  let mask := BitVec.ofNat 64 align - 1
  ((BitVec.ofNat 64 x + mask) &&& ~~~mask).toNat

/-- The loop of `size_to_order`; a shift by 64 places is undefined. -/
def sizeToOrderLoop (size : ℕ) : ℕ → ℕ → Option ℕ
  | 0, _ => none
  | fuel + 1, order =>
    if 2 ^ order < size then sizeToOrderLoop size fuel (order + 1) else some order

def sizeToOrder (region : BuddyRegion) (size : ℕ) : Option ℕ :=
  sizeToOrderLoop (alignUp size (2 ^ region.minOrder)) (64 - region.minOrder) region.minOrder

/-- The orders that `buddy_init` accepts. -/
structure BuddyOrders (minOrder maxOrder growOrder : ℕ) : Prop where
  min : 5 ≤ minOrder
  max : maxOrder ≤ 29
  grow : growOrder ≤ maxOrder
  le : minOrder ≤ maxOrder

def buddyInit (s : BuddyAllocator) (minOrder maxOrder growOrder : ℕ) : BuddyAllocator :=
  if minOrder < 5 ∨ 29 < maxOrder ∨ maxOrder < growOrder ∨ maxOrder < minOrder then s
  else
    { s with
      regions := 0
      activeRegion := none
      minOrder := minOrder
      maxOrder := maxOrder
      growOrder := growOrder
      currentBytes := 0
      peakBytes := 0 }

/-- `buddy_grow`, when `kmalloc_aligned` returns `pool`. -/
def buddyGrow (s : BuddyAllocator) (pool : ℕ) : BuddyAllocator :=
  let grow := if s.maxOrder < s.growOrder then s.maxOrder else s.growOrder
  let region : BuddyRegion :=
    { pool := pool
      size := 2 ^ grow
      freeLists := Function.update (fun _ => 0) grow pool
      minOrder := s.minOrder
      maxOrder := s.maxOrder }
  { s.store pool { s.mem pool with next := 0 } with
    regions := s.regions + 1
    region := Function.update s.region s.regions region
    activeRegion := some s.regions }

/-- The splits from order `cur` down to `order`: each upper half goes on its free list. -/
def splitDown (i block order : ℕ) : ℕ → BuddyAllocator → BuddyAllocator
  | 0, s => s
  | cur + 1, s =>
    if order < cur + 1 then splitDown i block order cur (s.push i cur (block + 2 ^ cur)) else s

/-- The allocation in `buddy_malloc` once a block of order `cur` is found. -/
def takeBlock (s : BuddyAllocator) (i order cur : ℕ) : ℕ × BuddyAllocator :=
  let block := (s.region i).freeLists cur
  let s := s.setHead i cur (s.mem block).next
  let s := splitDown i block order cur s
  let s := s.store block { s.mem block with order := order, region := i }
  let current := u64 (s.currentBytes + 2 ^ order)
  (block + 24, { s with currentBytes := current, peakBytes := max current s.peakBytes })

/-- The first order from `order` on with a free block. -/
def findOrder (region : BuddyRegion) (order : ℕ) : Option ℕ :=
  (List.range' order (region.maxOrder + 1 - order)).find? fun cur => region.freeLists cur ≠ 0

/-- The loop of `buddy_malloc` over the regions from `i` on. -/
def mallocLoop (size : ℕ) : ℕ → BuddyAllocator → ℕ → List ℕ → Option (ℕ × BuddyAllocator)
  | 0, _, _, _ => none
  | fuel + 1, s, i, pools => do
    let order ← sizeToOrder (s.region i) (u64 (size + 24))
    if (s.region i).maxOrder < order then
      if i + 1 < s.regions then mallocLoop size fuel s (i + 1) pools else some (0, s)
    else
      match findOrder (s.region i) order with
      | some cur => some (takeBlock s i order cur)
      | none =>
        if i + 1 < s.regions then mallocLoop size fuel s (i + 1) pools
        else
          match pools with
          | [] => some (0, s)
          | pool :: pools => mallocLoop size fuel (buddyGrow s pool) s.regions pools

def buddyMalloc (s : BuddyAllocator) (size : ℕ) (pools : List ℕ) : Option (ℕ × BuddyAllocator) :=
  if size = 0 then some (0, s)
  else if sub64 (2 ^ s.maxOrder) 24 < size then some (0, s)
  else
    let fuel := s.regions + pools.length + 1
    match s.activeRegion, pools with
    | some i, pools => mallocLoop size fuel s i pools
    | none, pool :: pools => mallocLoop size fuel (buddyGrow s pool) s.regions pools
    | none, [] => some (0, s)

/-- The search of `buddy_free` for the buddy on a free list. -/
def findBuddy (mem : ℕ → BuddyHeader) (buddy : ℕ) : ℕ → ℕ → BuddyLink → Option (Option BuddyLink)
  | 0, _, _ => none
  | fuel + 1, cur, prev =>
    if cur = 0 then some none
    else if cur = buddy then some (some prev)
    else findBuddy mem buddy fuel (mem cur).next (.next cur)

/-- The merges of `buddy_free`, with the block and the order they end with. -/
def mergeLoop (i : ℕ) : ℕ → BuddyAllocator → ℕ → ℕ → Option (BuddyAllocator × ℕ × ℕ)
  | 0, _, _, _ => none
  | fuel + 1, s, block, order =>
    let region := s.region i
    let buddy := buddyOf region block order
    if region.maxOrder ≤ order then some (s, block, order)
    else if buddy < region.pool ∨ u64 (region.pool + region.size) ≤ buddy then
      some (s, block, order)
    else do
      match ← findBuddy s.mem buddy (2 ^ 64) (region.freeLists order) .head with
      | none => some (s, block, order)
      | some prev => mergeLoop i fuel (s.unlink i order buddy prev) (min block buddy) (order + 1)

def buddyFree (s : BuddyAllocator) (ptr : ℕ) : Option BuddyAllocator :=
  if ptr = 0 then some s
  else do
    let block := sub64 ptr 24
    let order := (s.mem block).order
    let i := (s.mem block).region
    let current := if 2 ^ order ≤ s.currentBytes then s.currentBytes - 2 ^ order else 0
    let (s, block, order) ←
      mergeLoop i ((s.region i).maxOrder + 1) { s with currentBytes := current } block order
    some (s.push i order block)

/-- `buddy_realloc`. The payload is not part of the model; copying it stays inside the new one. -/
def buddyRealloc (s : BuddyAllocator) (ptr size : ℕ) (pools : List ℕ) :
    Option (ℕ × BuddyAllocator) :=
  if ptr = 0 then buddyMalloc s size pools
  else if size = 0 then do
    let s ← buddyFree s ptr
    some (0, s)
  else do
    let header := sub64 ptr 24
    let oldOrder := (s.mem header).order
    let i := (s.mem header).region
    let newOrder ← sizeToOrder (s.region i) (u64 (size + 24))
    if newOrder = oldOrder then some (ptr, s)
    else if newOrder < oldOrder then
      let s := s.store header { s.mem header with order := newOrder }
      some (ptr, splitDown i header newOrder oldOrder s)
    else do
      let (new, s) ← buddyMalloc s size pools
      if new = 0 then some (0, s)
      else do
        let s ← buddyFree s ptr
        some (new, s)

end RetroRocket
