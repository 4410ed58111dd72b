import RetroRocket.Heap

/-!
# The heap at boot

`kmalloc.c`: `init_heap` picks a window below 4 GB for `kmalloc_low`, gives the largest usable entry
of the memory map to `allocator_init`, and adds what else is usable or can be reclaimed. The window
is kept in 32-bit variables. `preboot_fail` does not return, which is `none`; the locks, the texts
it prints and what `init_heap` does behind the last region are left out.
-/

namespace RetroRocket

/-- The types of a `limine_memmap_entry`. -/
inductive MemmapType where
  | usable
  | reserved
  | acpiReclaimable
  | acpiNvs
  | badMemory
  | bootloaderReclaimable
  | kernelAndModules
  | framebuffer
  | unknown
  deriving DecidableEq

/-- `limine_memmap_entry`. -/
structure MemmapEntry where
  base : ℕ
  length : ℕ
  type : MemmapType
  deriving DecidableEq

def lowHeapSize : ℕ := 1024 * 1024 * 12

def fourGbBoundary : ℕ := 2 ^ 32

def blrMinReclaim : ℕ := 2 ^ 20

def lowHeapIn (e : MemmapEntry) : Option ℕ :=
  let stop := u64 (e.base + e.length)
  if e.type ≠ .usable ∨ fourGbBoundary ≤ e.base then none
  else
    let stop := if fourGbBoundary < stop then fourGbBoundary else stop
    if e.base < stop ∧ lowHeapSize ≤ stop - e.base then
      -- `(base + 0xFFF) & ~0xFFF`
      let start := u64 (e.base + 0xFFF) / 0x1000 * 0x1000
      if lowHeapSize ≤ sub64 stop start then some start else none
    else none

def findLowHeap (entries : List MemmapEntry) : Option ℕ := entries.findSome? lowHeapIn

/-- `best_len`, `best_addr` and `best_idx`, which is -1 while nothing is found. -/
structure BestEntry where
  len : ℕ
  addr : ℕ
  idx : Option ℕ

def betterEntry (best : BestEntry) (p : MemmapEntry × ℕ) : BestEntry :=
  if p.1.type = .usable ∧ best.len < p.1.length then ⟨p.1.length, p.1.base, some p.2⟩ else best

def findBestEntry (entries : List MemmapEntry) : BestEntry :=
  entries.zipIdx.foldl betterEntry ⟨0, 0, none⟩

def primaryRegion (lowHeapStart lowHeapMax bbase bend : ℕ) : ℕ × ℕ :=
  let leftLo := bbase
  let leftHi :=
    if bbase < lowHeapStart then (if lowHeapStart < bend then lowHeapStart else bend) else bbase
  let rightLo :=
    if bbase < lowHeapMax then (if lowHeapMax < bend then lowHeapMax else bend) else bbase
  let rightHi := bend
  let leftLen := if leftLo < leftHi then leftHi - leftLo else 0
  let rightLen := if rightLo < rightHi then rightHi - rightLo else 0
  if rightLen ≤ leftLen then (leftLo, leftLen) else (rightLo, rightLen)

/-- The variables of `kmalloc.c`, and the regions the allocator was given, in order. -/
structure KernelHeap where
  heap : Allocator
  lowHeapStart : ℕ
  lowHeapMax : ℕ
  lowMemCur : ℕ
  heaplen : ℕ
  allocated : ℕ
  regions : List (ℕ × ℕ)

namespace KernelHeap

def addRegion (s : KernelHeap) (base length : ℕ) : Option KernelHeap :=
  if 24 < length then do
    let (ok, heap) ← allocatorAddRegion s.heap base length
    some { s with
      heap
      heaplen := if ok then u64 (s.heaplen + (length - 24)) else s.heaplen
      regions := s.regions ++ [(base, length)] }
  else some s

def addBelow (s : KernelHeap) (base stop : ℕ) : Option KernelHeap :=
  if base < s.lowHeapStart then
    let segEnd := if stop < s.lowHeapStart then stop else s.lowHeapStart
    if base < segEnd then s.addRegion base (segEnd - base) else some s
  else some s

def addAbove (s : KernelHeap) (base stop : ℕ) : Option KernelHeap :=
  if s.lowHeapMax < stop then
    let segBase := if s.lowHeapMax < base then base else s.lowHeapMax
    if segBase < stop then s.addRegion segBase (stop - segBase) else some s
  else some s

def addUsable (s : KernelHeap) (e : MemmapEntry) : Option KernelHeap := do
  let stop := u64 (e.base + e.length)
  let s ← s.addBelow e.base stop
  s.addAbove e.base stop

def addUsableEntries (bestIdx : ℕ) (s : KernelHeap) : List (MemmapEntry × ℕ) → Option KernelHeap
  | [] => some s
  | (e, i) :: rest => do
    let s ← if i = bestIdx ∨ e.type ≠ .usable then some s else s.addUsable e
    addUsableEntries bestIdx s rest

def hits (ptrs : List ℕ) (e : MemmapEntry) : Bool :=
  ptrs.any fun p => p ≠ 0 ∧ e.base ≤ p ∧ p < u64 (e.base + e.length)

def reclaimEntries (ptrs : List ℕ) (s : KernelHeap) : List MemmapEntry → Option KernelHeap
  | [] => some s
  | e :: rest => do
    let s ←
      if e.type ≠ .bootloaderReclaimable ∨ e.length < blrMinReclaim ∨ hits ptrs e then some s
      else s.addRegion e.base e.length
    reclaimEntries ptrs s rest

/-- `init_heap`, on the memory `mem` with the addresses `ptrs` that `request_addresses` returns. -/
def initHeap (mem : ℕ → Header) (entries : List MemmapEntry) (ptrs : List ℕ) :
    Option KernelHeap := do
  let start ← findLowHeap entries
  let lowHeapStart := u32 start
  let lowHeapMax := u32 (start + lowHeapSize)
  let best := findBestEntry entries
  let bestIdx ← best.idx
  if best.addr = 0 ∨ best.len < 0x800000 then none
  else
    let primary := primaryRegion lowHeapStart lowHeapMax best.addr (u64 (best.addr + best.len))
    if primary.2 ≤ 24 then none
    else do
      let s ← addUsableEntries bestIdx
        { heap := allocatorInit mem primary.1 primary.2 8
          lowHeapStart
          lowHeapMax
          lowMemCur := lowHeapStart
          heaplen := primary.2 - 24
          allocated := 0
          regions := [primary] } entries.zipIdx
      reclaimEntries ptrs s entries

def kmallocLow (s : KernelHeap) (size : ℕ) : Option (ℕ × KernelHeap) :=
  let ret := s.lowMemCur
  if s.lowHeapMax ≤ u32 (ret + size) then none
  else some (ret, { s with lowMemCur := u32 (s.lowMemCur + size) })

def kmalloc (s : KernelHeap) (size : ℕ) : Option (ℕ × KernelHeap) := do
  let (p, heap) ← allocatorAlloc s.heap size
  some (p, { s with heap, allocated := u64 (s.allocated + allocatorUsableSize heap p) })

def kfree (s : KernelHeap) (ptr : ℕ) : Option KernelHeap :=
  if ptr = 0 then some s
  else if s.lowHeapStart ≤ ptr ∧ ptr < s.lowHeapMax then none
  else do
    let (_, heap) ← allocatorFree s.heap ptr
    some { s with heap, allocated := sub64 s.allocated (allocatorUsableSize s.heap ptr) }

end KernelHeap

/-- The heap with the bytes of memory and the ranges that `memcpy` has read. -/
structure ByteHeap where
  heap : KernelHeap
  bytes : ℕ → Byte
  reads : List (ℕ × ℕ)

/-- What headers and bytes read as where they lie over one another: the bytes of a header that
`kmalloc` or `kfree` has written, and a header that is read where bytes were copied. -/
structure Overlap where
  allocated : ℕ → Byte
  freed : ℕ → Byte
  header : ℕ → Header

def overwritten (old new : ℕ → Header) (b : ℕ) : Bool :=
  (List.range 24).any fun k => k ≤ b ∧ new (b - k) ≠ old (b - k)

/-- The headers in memory after `n` bytes at `dst` were written. -/
def Allocator.overlay (s : Allocator) (header : ℕ → Header) (dst n : ℕ) : Allocator :=
  { s with mem := fun a => if dst < a + 24 ∧ a < dst + n then header a else s.mem a }

namespace ByteHeap

/-- The heap has changed to `heap`, whose headers have the bytes `byte`. -/
def settle (s : ByteHeap) (byte : ℕ → Byte) (heap : KernelHeap) : ByteHeap where
  heap := heap
  bytes b := if overwritten s.heap.heap.mem heap.heap.mem b then byte b else s.bytes b
  reads := s.reads

def memcpy (s : ByteHeap) (header : ℕ → Header) (dst src n : ℕ) : ByteHeap where
  heap := { s.heap with heap := s.heap.heap.overlay header dst n }
  bytes b := if dst ≤ b ∧ b < dst + n then s.bytes (u64 (src + (b - dst))) else s.bytes b
  reads := (src, n) :: s.reads

def krealloc (s : ByteHeap) (o : Overlap) (ptr newSize : ℕ) : Option (ℕ × ByteHeap) := do
  let (newPtr, heap) ← s.heap.kmalloc newSize
  let t := s.settle o.allocated heap
  if ptr = 0 ∨ newPtr = 0 then some (newPtr, t)
  else do
    let t := t.memcpy o.header newPtr ptr newSize
    let heap ← t.heap.kfree ptr
    some (newPtr, t.settle o.freed heap)

end ByteHeap

end RetroRocket
