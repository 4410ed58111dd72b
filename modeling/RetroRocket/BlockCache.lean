import Mathlib.Algebra.Group.Nat.Defs
import Mathlib.Logic.Function.Basic
import Mathlib.Tactic.Common
import RetroRocket.Run

/-!
# The block cache of a storage device

The functions of `block_cache.c` and the reads and writes of a storage device that go through them.
A sector is a value of any type, and a buffer is the memory from a pointer on, sector by sector. The
hash map is a function; what depends on its buckets is given with each sector as the answers of the
memory: whether it could grow, and which entry a deletion moved.
-/

namespace RetroRocket

variable {α : Type}

/-! ## The cache -/

structure BlockCache (α : Type) where
  entries : ℕ → Option α
  lru : List ℕ
  cap : ℕ

/-- The memory that one sector asks for: its buffer, the growth of the hash map and the node of the
queue. `moved` is the entry that the deletion of this sector moves into its bucket, with what is in
the buffer of that entry once it has been freed. -/
structure SectorMemory (α : Type) where
  buffer : Bool
  grow : Bool
  node : Bool
  moved : Option (ℕ × α)

namespace BlockCache

def lruTouch (c : BlockCache α) (lba : ℕ) (node : Bool) : BlockCache α :=
  if node then { c with lru := c.lru ++ [lba] } else c

/-- `hashmap_set`. -/
def setEntry (c : BlockCache α) (lba : ℕ) (data : Option α) : BlockCache α :=
  { c with entries := Function.update c.entries lba data }

/-- The loop of `evict_one`, over the nodes of the queue from its head. -/
def evictScan (c : BlockCache α) : List ℕ → BlockCache α
  | [] => { c with lru := [] }
  | lba :: rest =>
    if (c.entries lba).isSome then { c.setEntry lba none with lru := rest }
    else evictScan c rest

def evictOne (c : BlockCache α) : BlockCache α := c.evictScan c.lru

def makeRoom : ℕ → BlockCache α → Option (BlockCache α)
  | 0, _ => none
  | fuel + 1, c => if c.cap ≤ c.lru.length then makeRoom fuel c.evictOne else some c

def rollBack (c : BlockCache α) (m : SectorMemory α) : BlockCache α :=
  match m.moved with
  | none => c
  | some (other, garbage) => if (c.entries other).isSome then c.setEntry other (some garbage) else c

/-- What `block_cache_write` does with one sector, and whether it goes on to the next one. -/
def storeSector (c : BlockCache α) (lba : ℕ) (seg : α) (m : SectorMemory α) :
    Option (BlockCache α × Bool) :=
  if (c.entries lba).isSome then some ((c.setEntry lba (some seg)).lruTouch lba m.node, true)
  else do
    let c ← c.makeRoom (c.lru.length + 1)
    if !m.buffer || !m.grow then some (c, false)
    else if m.node then some ((c.setEntry lba (some seg)).lruTouch lba true, true)
    else some (c.rollBack m, false)

/-- `sectors_for_len`, for a length in whole sectors. -/
def sectorsForLen (n : ℕ) : ℕ := if n = 0 then 1 else n

/-- The loop of `block_cache_write` over `k` sectors from number `i` on. -/
def writeLoop (start : ℕ) (src : ℕ → α) (memory : ℕ → SectorMemory α) :
    ℕ → ℕ → BlockCache α → Option (BlockCache α)
  | 0, _, c => some c
  | k + 1, i, c => do
    let (c, more) ← c.storeSector ((start + i) % 2 ^ 64) (src i) (memory i)
    if more then writeLoop start src memory k (i + 1) c else some c

/-- `block_cache_write`. Its result is not looked at. -/
def write (size : ℕ) (c : BlockCache α) (start n : ℕ) (src : ℕ → α) (memory : ℕ → SectorMemory α) :
    Option (BlockCache α) :=
  if size < (start + sectorsForLen n) % 2 ^ 64 then some c
  else writeLoop start src memory (sectorsForLen n) 0 c

/-- The loop of `block_cache_read` over `k` sectors from number `i` on: the cache, the buffer, and
whether all sectors were there. -/
def readLoop (start : ℕ) (nodes : ℕ → Bool) :
    ℕ → ℕ → BlockCache α → (ℕ → α) → BlockCache α × (ℕ → α) × Bool
  | 0, _, c, out => (c, out, true)
  | k + 1, i, c, out =>
    match c.entries ((start + i) % 2 ^ 64) with
    | none => (c, out, false)
    | some data => readLoop start nodes k (i + 1) (c.lruTouch ((start + i) % 2 ^ 64) (nodes i))
        (Function.update out i data)

/-- `block_cache_read`. -/
def read (size : ℕ) (c : BlockCache α) (start n : ℕ) (nodes : ℕ → Bool) (out : ℕ → α) :
    BlockCache α × (ℕ → α) × Bool :=
  if size < (start + sectorsForLen n) % 2 ^ 64 then (c, out, false)
  else readLoop start nodes (sectorsForLen n) 0 c out

end BlockCache

/-! ## The device -/

/-- A storage device with its cache. A driver takes a length of zero for one sector or for none. -/
structure StorageDevice (α : Type) where
  sectors : ℕ → α
  size : ℕ
  size_lt : size < 2 ^ 64
  zeroLength : ℕ
  cache : BlockCache α

namespace StorageDevice

open BlockCache

def transferred (s : StorageDevice α) (n : ℕ) : ℕ := if n = 0 then s.zeroLength else n

/-- `blockread`, which does not read past the end of the device. -/
def blockread (s : StorageDevice α) (start n : ℕ) (io : Bool) (out : ℕ → α) : Option (ℕ → α) :=
  if io ∧ start + s.transferred n ≤ s.size then
    some fun i => if i < s.transferred n then s.sectors (start + i) else out i
  else none

/-- `blockwrite`, which writes all sectors or none. -/
def blockwrite (s : StorageDevice α) (start n : ℕ) (io : Bool) (src : ℕ → α) :
    Option (StorageDevice α) :=
  if io ∧ start + s.transferred n ≤ s.size then
    some { s with sectors := fun lba =>
      if start ≤ lba ∧ lba < start + s.transferred n then src (lba - start) else s.sectors lba }
  else none

/-- `read_storage_device`: the state behind it, and the buffer if it succeeds. -/
def readStorageDevice (s : StorageDevice α) (start n : ℕ) (out : ℕ → α) (io : Bool)
    (nodes : ℕ → Bool) (memory : ℕ → SectorMemory α) :
    Option (StorageDevice α × Option (ℕ → α)) :=
  let (cache, data, hit) := s.cache.read s.size start n nodes out
  let s := { s with cache }
  if hit then some (s, some data)
  else
    match s.blockread start n io data with
    | none => some (s, none)
    | some data => do
      let cache ← s.cache.write s.size start n data memory
      some ({ s with cache }, some data)

def writeStorageDevice (s : StorageDevice α) (start n : ℕ) (src : ℕ → α) (io : Bool)
    (memory : ℕ → SectorMemory α) : Option (StorageDevice α) :=
  match s.blockwrite start n io src with
  | none => some s
  | some s => do
    let cache ← s.cache.write s.size start n src memory
    some { s with cache }

inductive Call (α : Type) where
  | read (start n : ℕ) (out : ℕ → α) (io : Bool) (nodes : ℕ → Bool) (memory : ℕ → SectorMemory α)
  | write (start n : ℕ) (src : ℕ → α) (io : Bool) (memory : ℕ → SectorMemory α)

def call (s : StorageDevice α) : Call α → Option (StorageDevice α)
  | .read start n out io nodes memory => (s.readStorageDevice start n out io nodes memory).map (·.1)
  | .write start n src io memory => s.writeStorageDevice start n src io memory

end StorageDevice

end RetroRocket
