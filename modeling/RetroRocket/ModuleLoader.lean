import RetroRocket.Buddy
import RetroRocket.Guarded
import RetroRocket.LittleEndian

/-!
# The module loader

The functions of `module_loader.c` that place a relocatable ELF file in memory, with
`kmalloc_aligned` and `findsymbol_addr` below them. The addresses that they read have to be in the
file, and those that they write in the block of the image and in the table of placed sections.
Pointers have 64 bits.
-/

namespace RetroRocket

def int64 (n : ℕ) : ℤ := if u64 n < 2 ^ 63 then u64 n else (u64 n : ℤ) - 2 ^ 64

/-! ## The file -/

structure ElfFile where
  addr : ℕ
  bytes : List Byte
  addr_pos : 0 < addr
  fits : addr + bytes.length ≤ 2 ^ 64

structure Member where
  offset : ℕ
  size : ℕ

namespace Ehdr

def magic : Member := ⟨0, 4⟩
def fileClass : Member := ⟨4, 1⟩
def type : Member := ⟨16, 2⟩
def machine : Member := ⟨18, 2⟩
def shoff : Member := ⟨40, 8⟩
def shentsize : Member := ⟨58, 2⟩
def shnum : Member := ⟨60, 2⟩
def shstrndx : Member := ⟨62, 2⟩

end Ehdr

namespace Shdr

def type : Member := ⟨4, 4⟩
def flags : Member := ⟨8, 8⟩
def offset : Member := ⟨24, 8⟩
def size : Member := ⟨32, 8⟩
def link : Member := ⟨40, 4⟩
def info : Member := ⟨44, 4⟩
def addralign : Member := ⟨48, 8⟩

end Shdr

namespace Sym

def name : Member := ⟨0, 4⟩
def shndx : Member := ⟨6, 2⟩
def value : Member := ⟨8, 8⟩

end Sym

namespace Rela

def offset : Member := ⟨0, 8⟩
def info : Member := ⟨8, 8⟩
def addend : Member := ⟨16, 8⟩

end Rela

namespace ElfFile

def Has (f : ElfFile) (a n : ℕ) : Prop := f.addr ≤ a ∧ a + n ≤ f.addr + f.bytes.length

instance (f : ElfFile) (a n : ℕ) : Decidable (f.Has a n) :=
  inferInstanceAs (Decidable (_ ∧ _))

def byte (f : ElfFile) (a : ℕ) : Byte := f.bytes.getD (a - f.addr) 0

/-- What a member of the structure at `p` is. -/
def value (f : ElfFile) (p : ℕ) (m : Member) : ℕ := leValue f.byte (u64 (p + m.offset)) m.size

def HasMember (f : ElfFile) (p : ℕ) (m : Member) : Prop := f.Has (u64 (p + m.offset)) m.size

instance (f : ElfFile) (p : ℕ) (m : Member) : Decidable (f.HasMember p m) :=
  inferInstanceAs (Decidable (f.Has _ _))

def read (f : ElfFile) (p : ℕ) (m : Member) : Guarded ℕ := do
  .access (f.HasMember p m)
  return f.value p m

def HasText (f : ElfFile) (a : ℕ) : Prop :=
  f.addr ≤ a ∧ (f.bytes.drop (a - f.addr)).contains 0 = true

instance (f : ElfFile) (a : ℕ) : Decidable (f.HasText a) :=
  inferInstanceAs (Decidable (_ ∧ _))

def text (f : ElfFile) (a : ℕ) : List Byte := (f.bytes.drop (a - f.addr)).takeWhile (· ≠ 0)

def readText (f : ElfFile) (a : ℕ) : Guarded (List Byte) := do
  .access (f.HasText a)
  return f.text a

end ElfFile

/-- The table of section headers, and `shstr`. -/
structure ElfTable where
  sh : ℕ
  shnum : ℕ
  shstr : ℕ

/-- `&sh[i]`. -/
def ElfTable.header (t : ElfTable) (i : ℕ) : ℕ := t.sh + 64 * i

def parseElfRelHeaders (f : ElfFile) : Guarded ElfTable := do
  .test (64 ≤ f.bytes.length)
  let magic ← f.read f.addr Ehdr.magic
  .test (magic = 0x464C457F)
  let fileClass ← f.read f.addr Ehdr.fileClass
  .test (fileClass = 2)
  let machine ← f.read f.addr Ehdr.machine
  .test (machine = 62)
  let type ← f.read f.addr Ehdr.type
  .test (type = 1)
  let shoff ← f.read f.addr Ehdr.shoff
  let shentsize ← f.read f.addr Ehdr.shentsize
  let shnum ← f.read f.addr Ehdr.shnum
  .test (u64 (shoff + shentsize * shnum) ≤ f.bytes.length)
  let shstrndx ← f.read f.addr Ehdr.shstrndx
  let t : ElfTable := ⟨u64 (f.addr + shoff), shnum, 0⟩
  let names ← f.read (t.header shstrndx) Shdr.offset
  .test (names < f.bytes.length)
  return { t with shstr := u64 (f.addr + names) }

/-! ## The kernel -/

/-- `symbol_t`. -/
structure KernelSymbol where
  name : List Byte
  address : ℕ

/-- What the loader finds in the kernel: the blocks that `kmalloc` returns, 0 for NULL, the table of
the symbols by the hashes of their names, and the address of `findsymbol_addr`. -/
structure LoaderKernel where
  kmalloc : ℕ → ℕ
  kmalloc_inside : ∀ n, kmalloc n ≠ 0 → kmalloc n + n < 2 ^ 64
  hashmapSip : List Byte → ℕ
  symbolNameHash : List (Option KernelSymbol)
  findsymbolAddr : ℕ

namespace LoaderKernel

def address (k : LoaderKernel) (s : KernelSymbol) : ℕ :=
  if s.address &&& 0xFFFFFFFF00000000 = 0
  then (k.findsymbolAddr &&& 0xFFFFFFFF00000000) ||| (s.address &&& 0xFFFFFFFF)
  else s.address

/-- The loop of `findsymbol_addr`. -/
def probe (k : LoaderKernel) (name : List Byte) : ℕ → ℕ → ℕ
  | 0, _ => 0
  | probes + 1, idx =>
    match k.symbolNameHash.getD idx none with
    | none => 0
    | some s =>
      if s.name = name then k.address s
      else k.probe name probes (if idx + 1 = k.symbolNameHash.length then 0 else idx + 1)

/-- `kernel_dlsym` and `findsymbol_addr`, of the name at an address. -/
def kernelDlsym (k : LoaderKernel) (f : ElfFile) (name : ℕ) : Guarded ℕ :=
  if name = 0 ∨ k.symbolNameHash.length = 0 then return 0
  else do
    let text ← f.readText name
    return k.probe text k.symbolNameHash.length
      (k.hashmapSip text &&& (k.symbolNameHash.length - 1))

end LoaderKernel

structure KernelBlock where
  base : ℕ
  finish : ℕ

/-- The alignment that `kmalloc_aligned` goes by. -/
def kmallocAlign (align : ℕ) : ℕ := if align < 8 ∨ align &&& (align - 1) ≠ 0 then 8 else align

/-- `kmalloc_aligned`. It keeps the pointer to free just before the block. -/
def kmallocAligned (k : LoaderKernel) (size align : ℕ) : Guarded KernelBlock := do
  let align := kmallocAlign align
  let request := u64 (size + align - 1 + 8)
  let raw := k.kmalloc request
  if raw = 0 then return ⟨0, 0⟩
  else
    let aligned := alignUp (u64 (raw + 8)) align
    .access (raw + 8 ≤ aligned ∧ aligned ≤ raw + request)
    return ⟨aligned, raw + request⟩

/-! ## The sections -/

/-- `module`. The sections are those of `placed`, with the addresses that they have got. -/
structure ElfModule where
  base : ℕ
  size : ℕ
  placed : List (ℕ × ℕ)
  symtab : ℕ
  symCount : ℕ
  strtab : ℕ

def ElfModule.Has (m : ElfModule) (a n : ℕ) : Prop := m.base ≤ a ∧ a + n ≤ m.base + m.size

instance (m : ElfModule) (a n : ℕ) : Decidable (m.Has a n) :=
  inferInstanceAs (Decidable (_ ∧ _))

def isAllocSection (flags : ℕ) : Bool := flags &&& 2 != 0

def addressAlignUp (v a : ℕ) : ℕ :=
  let m := if a = 0 then 1 else a
  let r := v % m
  if r ≠ 0 then u64 (v + (m - r)) else v

/-- The alignment of a section, from `sh_addralign`. -/
def sectionAlign (addralign : ℕ) : ℕ := if addralign = 0 then 1 else addralign

/-- What `module_place_sections` sums up first. -/
structure SectionSum where
  total : ℕ
  maxAlign : ℕ
  allocSecs : ℕ

def sumSection (f : ElfFile) (t : ElfTable) (s : SectionSum) (i : ℕ) : Guarded SectionSum := do
  let flags ← f.read (t.header i) Shdr.flags
  if isAllocSection flags then
    let addralign ← f.read (t.header i) Shdr.addralign
    let a := sectionAlign addralign
    let size ← f.read (t.header i) Shdr.size
    .test (s.allocSecs + 1 < 64)
    return ⟨u64 (addressAlignUp s.total a + size), max s.maxAlign a, s.allocSecs + 1⟩
  else return s

structure Placement where
  off : ℕ
  placed : List (ℕ × ℕ)
  image : ℕ → Byte

/-- `memcpy` from the file into the image. -/
def memcpyImage (f : ElfFile) (m : ElfModule) (image : ℕ → Byte) (dest src n : ℕ) :
    Guarded (ℕ → Byte) := do
  .access (f.Has src n)
  .access (m.Has dest n)
  return fun k => if dest ≤ k ∧ k < dest + n then f.byte (src + (k - dest)) else image k

def placeSection (f : ElfFile) (t : ElfTable) (m : ElfModule) (s : Placement) (i : ℕ) :
    Guarded Placement := do
  let flags ← f.read (t.header i) Shdr.flags
  if isAllocSection flags then
    let addralign ← f.read (t.header i) Shdr.addralign
    let off := addressAlignUp s.off (sectionAlign addralign)
    .access (s.placed.length < 64)
    let placed := s.placed ++ [(i, u64 (m.base + off))]
    let type ← f.read (t.header i) Shdr.type
    let size ← f.read (t.header i) Shdr.size
    -- a section of `SHT_NOBITS` stays zero
    if type ≠ 8 ∧ 0 < size then
      let offset ← f.read (t.header i) Shdr.offset
      let image ← memcpyImage f m s.image (u64 (m.base + off)) (u64 (f.addr + offset)) size
      return ⟨u64 (off + size), placed, image⟩
    else return ⟨u64 (off + size), placed, s.image⟩
  else return s

/-- The second pass of `module_place_sections`, for a cleared image. -/
def placeSections (f : ElfFile) (t : ElfTable) (m : ElfModule) :
    Guarded (ElfModule × (ℕ → Byte)) := do
  let p ← Guarded.loop (placeSection f t m) ⟨0, [], fun _ => 0⟩ t.shnum
  return ({ m with placed := p.placed }, p.image)

/-- `module_place_sections`, with the bytes of the image after it. -/
def modulePlaceSections (f : ElfFile) (k : LoaderKernel) (t : ElfTable) :
    Guarded (ElfModule × (ℕ → Byte)) := do
  .test (t.sh ≠ 0)
  let sum ← Guarded.loop (sumSection f t) ⟨0, 16, 0⟩ t.shnum
  let size := addressAlignUp sum.total (if sum.maxAlign = 0 then 16 else sum.maxAlign)
  let block ← kmallocAligned k size (if 16 < sum.maxAlign then sum.maxAlign else 16)
  .test (block.base ≠ 0)
  -- `memset`
  .access (block.base + size ≤ block.finish)
  placeSections f t ⟨block.base, size, [], 0, 0, 0⟩

/-- `module_section_base`, 0 for NULL. -/
def ElfModule.sectionBase (m : ElfModule) (shndx : ℕ) : ℕ :=
  ((m.placed.find? fun p => p.1 = shndx).map Prod.snd).getD 0

/-! ## The symbols -/

/-- The search for the section of `SHT_SYMTAB`; `none` goes on. -/
def findSymtab (f : ElfFile) (t : ElfTable) (found : Option ℕ) (i : ℕ) : Guarded (Option ℕ) :=
  match found with
  | some i => return some i
  | none => do
    let type ← f.read (t.header i) Shdr.type
    return if type = 2 then some i else none

def moduleLoadSymbols (f : ElfFile) (t : ElfTable) (m : ElfModule) : Guarded ElfModule := do
  let found ← Guarded.loop (findSymtab f t) none t.shnum
  match found with
  | none => .rejected
  | some i =>
    let offset ← f.read (t.header i) Shdr.offset
    let size ← f.read (t.header i) Shdr.size
    let link ← f.read (t.header i) Shdr.link
    let strings ← f.read (t.header link) Shdr.offset
    let symtab := u64 (f.addr + offset)
    let strtab := u64 (f.addr + strings)
    .test (symtab ≠ 0 ∧ strtab ≠ 0)
    return { m with symtab := symtab, symCount := size / 24, strtab := strtab }

/-- `module_resolve_symbol_addr`, of the symbol at an address. -/
def moduleResolveSymbolAddr (f : ElfFile) (k : LoaderKernel) (m : ElfModule) (s : ℕ) :
    Guarded ℕ := do
  let shndx ← f.read s Sym.shndx
  if shndx = 0 then
    let name ← f.read s Sym.name
    k.kernelDlsym f (u64 (m.strtab + name))
  else if 0xFF00 ≤ shndx then return 0
  else if m.sectionBase shndx = 0 then return 0
  else
    let value ← f.read s Sym.value
    return u64 (m.sectionBase shndx + value)

/-- The symbol of a relocation: 0 if there is none of this index, and an error if the kernel has
none of this name. The error prints the name. -/
def relocationSymbol (f : ElfFile) (k : LoaderKernel) (m : ElfModule) (idx : ℕ) : Guarded ℕ := do
  let s := u64 (m.symtab + 24 * idx)
  if idx < m.symCount ∧ s ≠ 0 then
    let S ← moduleResolveSymbolAddr f k m s
    let shndx ← f.read s Sym.shndx
    if S = 0 ∧ shndx = 0 then
      let name ← f.read s Sym.name
      if u64 (m.strtab + name) = 0 then .rejected
      else
        let _ ← f.readText (u64 (m.strtab + name))
        .rejected
    else return S
  else return 0

/-! ## The relocations -/

/-- A value of type `int`. -/
def InInt (n : ℤ) : Prop := -2 ^ 31 ≤ n ∧ n < 2 ^ 31

instance (n : ℤ) : Decidable (InInt n) := inferInstanceAs (Decidable (_ ∧ _))

def relocationField (type S A P : ℕ) : Option (ℕ × ℕ) :=
  if type = 1 then some (8, u64 (S + A))
  else if type = 2 ∨ type = 4 then
    let val := sub64 (u64 (S + A)) P
    if InInt (int64 val) then some (4, u32 val) else none
  else if type = 10 then
    let val := u64 (S + A)
    if val < 2 ^ 32 then some (4, val) else none
  else if type = 11 then
    let val := u64 (S + A)
    if InInt (int64 val) then some (4, u32 val) else none
  else none

def storeRelocation (m : ElfModule) (image : ℕ → Byte) (P : ℕ) : Option (ℕ × ℕ) → Guarded (ℕ → Byte)
  | none => .rejected
  | some (width, value) => do
    .access (m.Has P width)
    return storeValue image P width value

/-- The turn of the entry at an address, for a section that is placed at `tgtBase`. -/
def applyRela (f : ElfFile) (k : LoaderKernel) (m : ElfModule) (tgtBase rela : ℕ)
    (image : ℕ → Byte) :
    Guarded (ℕ → Byte) := do
  let info ← f.read rela Rela.info
  let offset ← f.read rela Rela.offset
  let P := u64 (tgtBase + offset)
  let A ← f.read rela Rela.addend
  let S ← relocationSymbol f k m (info / 2 ^ 32)
  storeRelocation m image P (relocationField (u32 info) S A P)

def applySection (f : ElfFile) (k : LoaderKernel) (t : ElfTable) (m : ElfModule) (image : ℕ → Byte)
    (i : ℕ) : Guarded (ℕ → Byte) := do
  let type ← f.read (t.header i) Shdr.type
  if type = 4 then
    let info ← f.read (t.header i) Shdr.info
    let tgt := u16 info
    if tgt < t.shnum then
      let flags ← f.read (t.header tgt) Shdr.flags
      if isAllocSection flags then
        .test (m.sectionBase tgt ≠ 0)
        let offset ← f.read (t.header i) Shdr.offset
        let size ← f.read (t.header i) Shdr.size
        let first := u64 (f.addr + offset)
        Guarded.loop (fun image j =>
          applyRela f k m (m.sectionBase tgt) (first + 24 * j) image) image
          (size / 24)
      else return image
    else return image
  else return image

def moduleApplyRelocations (f : ElfFile) (k : LoaderKernel) (t : ElfTable) (m : ElfModule)
    (image : ℕ → Byte) : Guarded (ℕ → Byte) :=
  Guarded.loop (applySection f k t m) image t.shnum

/-- The four functions, as `module_load_from_memory` calls them. -/
def moduleLoad (f : ElfFile) (k : LoaderKernel) : Guarded (ElfModule × (ℕ → Byte)) := do
  let t ← parseElfRelHeaders f
  let (m, image) ← modulePlaceSections f k t
  let m ← moduleLoadSymbols f t m
  let image ← moduleApplyRelocations f k t m image
  return (m, image)

end RetroRocket
