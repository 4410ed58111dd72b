import Mathlib.Data.Nat.Count
import RetroRocket.BuddyBlocks
import RetroRocket.ModuleLoader

/-!
# Which files the module loader can read

The loader checks little of what it finds in a file. What the functions compute is stated here as
functions of the file and the kernel, and for each of them the accesses that have to be inside for
it to be safe. A file is loaded without an access outside of it, of the image and of the table of
placed sections if and only if it meets all of these conditions as far as the loader gets.
-/

namespace RetroRocket

open Guarded

variable {α : Type} {F A : Prop} {P : α → Prop} {g : ℕ → Guarded α} {f : ElfFile} {k : LoaderKernel}
  {t : ElfTable} {m : ElfModule} {p i : ℕ}

namespace ElfFile

theorem read_bind {field : Member}
    (h : f.HasMember p field → Follows (g (f.value p field)) F A P) :
    Follows (f.read p field >>= g) (f.HasMember p field ∧ F) A P := by
  unfold read
  rw [bind_assoc]
  exact Follows.access_bind h

theorem readHeader_bind {field : Member} (hlen : 64 ≤ f.bytes.length)
    (hfield : 0 < field.size ∧ field.offset + field.size ≤ 64)
    (h : Follows (g (f.value f.addr field)) F A P) : Follows (f.read f.addr field >>= g) F A P := by
  have hfits := f.fits
  have hhas : f.HasMember f.addr field := by
    unfold HasMember Has
    rw [u64_of_lt (by omega)]
    omega
  exact (read_bind fun _ => h).congr (and_iff_right hhas) (fun _ => Iff.rfl) fun _ _ _ h => h

variable (f)

/-! ## The headers -/

def sh : ℕ := u64 (f.addr + f.value f.addr Ehdr.shoff)

def namesHeader : ℕ := f.sh + 64 * f.value f.addr Ehdr.shstrndx

def names : ℕ := f.value f.namesHeader Shdr.offset

def table : ElfTable := ⟨f.sh, f.value f.addr Ehdr.shnum, u64 (f.addr + f.names)⟩

structure Headed : Prop where
  length : 64 ≤ f.bytes.length
  magic : f.value f.addr Ehdr.magic = 0x464C457F
  fileClass : f.value f.addr Ehdr.fileClass = 2
  machine : f.value f.addr Ehdr.machine = 62
  type : f.value f.addr Ehdr.type = 1
  table : u64
    (f.value f.addr Ehdr.shoff + f.value f.addr Ehdr.shentsize * f.value f.addr Ehdr.shnum) ≤
    f.bytes.length

theorem parseElfRelHeaders_follows :
    Follows (parseElfRelHeaders f) (f.Headed → f.HasMember f.namesHeader Shdr.offset)
      (f.Headed ∧ f.names < f.bytes.length) (· = f.table) := by
  apply Follows.congr (P := (· = f.table))
  · unfold parseElfRelHeaders
    apply Follows.test_bind
    intro hlen
    apply readHeader_bind hlen (by decide)
    apply Follows.test_bind
    intro _
    apply readHeader_bind hlen (by decide)
    apply Follows.test_bind
    intro _
    apply readHeader_bind hlen (by decide)
    apply Follows.test_bind
    intro _
    apply readHeader_bind hlen (by decide)
    apply Follows.test_bind
    intro _
    apply readHeader_bind hlen (by decide)
    apply readHeader_bind hlen (by decide)
    apply readHeader_bind hlen (by decide)
    apply Follows.test_bind
    intro _
    apply readHeader_bind hlen (by decide)
    apply read_bind
    intro _
    apply Follows.test_bind
    intro _
    exact Follows.result _
  · constructor
    · exact fun h hheaded => (h hheaded.length hheaded.magic hheaded.fileClass hheaded.machine
        hheaded.type hheaded.table).1
    · exact fun h h1 h2 h3 h4 h5 h6 => ⟨h ⟨h1, h2, h3, h4, h5, h6⟩, fun _ => trivial⟩
  · intro _
    constructor
    · rintro ⟨h1, h2, h3, h4, h5, h6, h7, -⟩
      exact ⟨⟨h1, h2, h3, h4, h5, h6⟩, h7⟩
    · rintro ⟨⟨h1, h2, h3, h4, h5, h6⟩, h7⟩
      exact ⟨h1, h2, h3, h4, h5, h6, h7, trivial⟩
  · exact fun _ _ _ h => h

/-! ## The sections -/

variable (t)

def alloc (i : ℕ) : Bool := isAllocSection (f.value (t.header i) Shdr.flags)

def align (i : ℕ) : ℕ :=
  if f.alloc t i then sectionAlign (f.value (t.header i) Shdr.addralign) else 1

def size (i : ℕ) : ℕ := if f.alloc t i then f.value (t.header i) Shdr.size else 0

/-- The end of the first `n` sections in the image. -/
def total : ℕ → ℕ
  | 0 => 0
  | n + 1 => u64 (addressAlignUp (total n) (f.align t n) + f.size t n)

def maxAlign : ℕ → ℕ
  | 0 => 16
  | n + 1 => max (maxAlign n) (f.align t n)

def allocSecs (n : ℕ) : ℕ := n.count fun i => f.alloc t i = true

def offset (i : ℕ) : ℕ := addressAlignUp (f.total t i) (f.align t i)

def HasSizes (i : ℕ) : Prop :=
  f.HasMember (t.header i) Shdr.flags ∧
    (f.alloc t i = true → f.HasMember (t.header i) Shdr.addralign ∧
      f.HasMember (t.header i) Shdr.size)

def Listed (i : ℕ) : Prop := f.alloc t i = true → f.allocSecs t i + 1 < 64

variable {f t}

theorem total_lt (n : ℕ) : f.total t n < 2 ^ 64 := by
  cases n with
  | zero => exact Nat.two_pow_pos 64
  | succ n => exact u64_lt _

theorem le_maxAlign (n : ℕ) : 16 ≤ f.maxAlign t n := by
  induction n with
  | zero => exact le_rfl
  | succ n ih => exact ih.trans (le_max_left _ _)

theorem allocSecs_succ (n : ℕ) :
    f.allocSecs t (n + 1) = f.allocSecs t n + if f.alloc t n = true then 1 else 0 :=
  Nat.count_succ _ n

theorem addressAlignUp_one (v : ℕ) : addressAlignUp v 1 = v := by
  simp [addressAlignUp, Nat.mod_one]

theorem value_lt (p : ℕ) (field : Member) : f.value p field < 2 ^ (8 * field.size) :=
  leValue_lt _ _ _

theorem align_lt (i : ℕ) : f.align t i < 2 ^ 64 := by
  have hlt := f.value_lt (t.header i) Shdr.addralign
  have hpos := Nat.two_pow_pos 64
  unfold align sectionAlign
  split
  · split
    · omega
    · exact hlt
  · omega

theorem maxAlign_lt (n : ℕ) : f.maxAlign t n < 2 ^ 64 := by
  induction n with
  | zero => exact (by decide : 16 < 2 ^ 64)
  | succ n ih => exact max_lt ih (align_lt n)

theorem addressAlignUp_lt {v a : ℕ} (hv : v < 2 ^ 64) : addressAlignUp v a < 2 ^ 64 := by
  unfold addressAlignUp
  dsimp only
  by_cases hrest : v % (if a = 0 then 1 else a) ≠ 0
  · rw [if_pos hrest]
    exact u64_lt _
  · rw [if_neg hrest]
    exact hv

theorem total_skip {n : ℕ} (h : ¬ f.alloc t n = true) : f.total t (n + 1) = f.total t n := by
  rw [total, align, size, if_neg h, if_neg h, addressAlignUp_one]
  exact u64_of_lt (total_lt n)

theorem sumSection_follows (i : ℕ) :
    Follows (sumSection f t ⟨f.total t i, f.maxAlign t i, f.allocSecs t i⟩ i) (f.HasSizes t i)
      (f.Listed t i) (· = ⟨f.total t (i + 1), f.maxAlign t (i + 1), f.allocSecs t (i + 1)⟩) := by
  unfold HasSizes Listed
  by_cases h : f.alloc t i = true
  · apply Follows.congr
    · unfold sumSection
      apply read_bind
      intro _
      rw [if_pos (show isAllocSection _ = true from h)]
      apply read_bind
      intro _
      apply read_bind
      intro _
      apply Follows.test_bind
      intro _
      exact Follows.result _
    · simp [h]
    · simp [h]
    · rintro - - s rfl
      rw [total, maxAlign, allocSecs_succ, if_pos h, align, if_pos h, size, if_pos h]
  · apply Follows.congr
    · unfold sumSection
      apply read_bind
      intro _
      rw [if_neg (show ¬ isAllocSection _ = true from h)]
      exact Follows.result _
    · simp [h]
    · simp [h]
    · rintro - - s rfl
      have hle := le_maxAlign (f := f) (t := t) i
      rw [total_skip h, maxAlign, allocSecs_succ, if_neg h, align, if_neg h,
        max_eq_left (by omega)]
      rfl

theorem sumSections_follows (n : ℕ) :
    Follows (loop (sumSection f t) ⟨0, 16, 0⟩ n)
      (∀ i < n, (∀ j < i, f.Listed t j) → f.HasSizes t i) (∀ i < n, f.Listed t i)
      (· = ⟨f.total t n, f.maxAlign t n, f.allocSecs t n⟩) := by
  apply Follows.loop
  · rintro i - s rfl
    exact sumSection_follows i
  · rw [allocSecs, Nat.count_zero]
    rfl

/-! ## The image -/

theorem kmallocAlign_eq {align : ℕ} (h : align < 2 ^ 64) :
    ∃ n, 3 ≤ n ∧ n ≤ 63 ∧ kmallocAlign align = 2 ^ n := by
  unfold kmallocAlign
  by_cases hbad : align < 8 ∨ align &&& (align - 1) ≠ 0
  · rw [if_pos hbad]
    exact ⟨3, le_rfl, by decide, rfl⟩
  · rw [if_neg hbad]
    have hsmall : 8 ≤ align := not_lt.mp fun h => hbad (Or.inl h)
    have hand : align &&& (align - 1) = 0 := not_not.mp fun h => hbad (Or.inr h)
    obtain ⟨n, rfl⟩ := (Nat.and_sub_one_eq_zero_iff_isPowerOfTwo (by omega)).mp hand
    have hlow : 3 ≤ n := (Nat.pow_le_pow_iff_right (by decide : 1 < 2)).mp hsmall
    have hhigh : n < 64 := (Nat.pow_lt_pow_iff_right (by decide : 1 < 2)).mp h
    exact ⟨n, hlow, by omega, rfl⟩

/-- The request of `kmalloc_aligned`, before it is cut to 64 bits. -/
def blockRequest (size align : ℕ) : ℕ := size + kmallocAlign align + 7

/-- The block that `kmalloc` returns for it. -/
def rawBlock (k : LoaderKernel) (size align : ℕ) : ℕ := k.kmalloc (u64 (blockRequest size align))

def alignedBlock (k : LoaderKernel) (size align : ℕ) : ℕ :=
  alignUp (u64 (rawBlock k size align + 8)) (kmallocAlign align)

theorem alignedBlock_inside {size align : ℕ} (hsize : size < 2 ^ 64) (halign : align < 2 ^ 64)
    (hraw : rawBlock k size align ≠ 0) :
    ((rawBlock k size align + 8 ≤ alignedBlock k size align ∧
        alignedBlock k size align ≤ rawBlock k size align + u64 (blockRequest size align)) ∧
      (alignedBlock k size align ≠ 0 → alignedBlock k size align + size ≤
        rawBlock k size align + u64 (blockRequest size align))) ↔
      blockRequest size align < 2 ^ 64 := by
  obtain ⟨n, hlow, hhigh, hn⟩ := kmallocAlign_eq halign
  have hpow : 2 ^ n ≤ 2 ^ 63 := Nat.pow_le_pow_right (by decide) hhigh
  have hpow' : 2 ^ 3 ≤ 2 ^ n := Nat.pow_le_pow_right (by decide) hlow
  have hend := k.kmalloc_inside (u64 (blockRequest size align)) hraw
  change rawBlock k size align + _ < _ at hend
  have halignUp := alignUp_eq_u64 (x := u64 (rawBlock k size align + 8)) (by omega : 2 ^ n ≤ 2 ^ 64)
  rw [← hn] at halignUp hpow hpow'
  have hdiv := Nat.div_add_mod (u64 (u64 (rawBlock k size align + 8) + (kmallocAlign align - 1)))
    (kmallocAlign align)
  have hmod := Nat.mod_lt (u64 (u64 (rawBlock k size align + 8) + (kmallocAlign align - 1)))
    (by omega : 0 < kmallocAlign align)
  change alignedBlock k size align = _ at halignUp
  rw [← halignUp] at hdiv
  generalize alignedBlock k size align = base at *
  constructor
  · rintro ⟨⟨hstart, -⟩, hmemset⟩
    have hmemset := hmemset (by omega)
    by_contra hwraps
    have hrequest : u64 (blockRequest size align) = blockRequest size align - 2 ^ 64 := by
      unfold u64 blockRequest at *
      omega
    -- a block at a multiple of the alignment ends at least that far behind its size
    have hmultiple : kmallocAlign align ≤ base := by
      rw [halignUp]
      apply Nat.le_mul_of_pos_right
      by_contra hzero
      rw [Nat.eq_zero_of_not_pos hzero, Nat.mul_zero] at halignUp
      omega
    unfold blockRequest at *
    omega
  · intro hfits
    rw [u64_of_lt hfits] at hend ⊢
    unfold blockRequest at *
    have hstart : u64 (rawBlock k size align + 8) = rawBlock k size align + 8 :=
      u64_of_lt (by omega)
    rw [hstart, u64_of_lt (by omega)] at hdiv hmod
    omega

/-- `memset` of the block that `kmalloc_aligned` returns. -/
theorem kmallocAligned_follows {size align : ℕ} (hsize : size < 2 ^ 64) (halign : align < 2 ^ 64)
    (hg : Follows (g (alignedBlock k size align)) F A P) :
    Follows
      (do
        let block ← kmallocAligned k size align
        Guarded.test (block.base ≠ 0)
        Guarded.access (block.base + size ≤ block.finish)
        g block.base)
      (rawBlock k size align ≠ 0 → blockRequest size align < 2 ^ 64 ∧ F)
      (rawBlock k size align ≠ 0 ∧ A) P := by
  obtain ⟨n, hlow, -, hn⟩ := kmallocAlign_eq halign
  have hpow : 2 ^ 3 ≤ 2 ^ n := Nat.pow_le_pow_right (by decide) hlow
  have hrequest : size + kmallocAlign align - 1 + 8 = blockRequest size align := by
    unfold blockRequest
    omega
  unfold kmallocAligned
  dsimp only
  rw [hrequest]
  change Follows (ite (rawBlock k size align = 0) _ _ >>= _) _ _ _
  by_cases hraw : rawBlock k size align = 0
  · rw [if_pos hraw]
    change Follows .rejected _ _ _
    exact Follows.reject.congr (by simp [hraw]) (by simp [hraw]) fun _ _ _ h => h
  · have hinside := alignedBlock_inside hsize halign hraw
    rw [if_neg hraw, Guarded.bind_assoc]
    apply Follows.congr
    · apply Follows.access_bind
      intro _
      apply Follows.test_bind
      intro _
      apply Follows.access_bind
      intro _
      exact hg
    · constructor
      · rintro ⟨hheader, hmemset⟩ -
        have hbase : alignedBlock k size align ≠ 0 := by
          have hstart : _ ≤ alignedBlock k size align := hheader.1
          omega
        exact ⟨hinside.mp ⟨hheader, fun _ => (hmemset hbase).1⟩, (hmemset hbase).2⟩
      · intro hfits
        obtain ⟨hfits, hF⟩ := hfits hraw
        obtain ⟨hheader, hmemset⟩ := hinside.mpr hfits
        exact ⟨hheader, fun hbase => ⟨hmemset hbase, hF⟩⟩
    · rintro ⟨hheader, -⟩
      have hstart := hheader.1
      change _ ≤ alignedBlock k size align at hstart
      constructor
      · exact fun h => ⟨hraw, h.2⟩
      · exact fun h => ⟨by change alignedBlock k size align ≠ 0; omega, h.2⟩
    · exact fun _ _ _ h => h

/-! ## Placing the sections -/

variable (f t)

def Copied (i : ℕ) : Prop :=
  f.alloc t i = true ∧ f.value (t.header i) Shdr.type ≠ 8 ∧ 0 < f.value (t.header i) Shdr.size

instance (i : ℕ) : Decidable (f.Copied t i) := inferInstanceAs (Decidable (_ ∧ _))

def source (i : ℕ) : ℕ := u64 (f.addr + f.value (t.header i) Shdr.offset)

def target (base i : ℕ) : ℕ := u64 (base + f.offset t i)

/-- The table of the first `n` sections, for an image at `base`. -/
def placedSections (base : ℕ) : ℕ → List (ℕ × ℕ)
  | 0 => []
  | n + 1 =>
    if f.alloc t n = true then placedSections base n ++ [(n, f.target t base n)]
    else placedSections base n

/-- The bytes of the image when the first `n` sections are placed. -/
def placedBytes (base : ℕ) : ℕ → ℕ → Byte
  | 0 => fun _ => 0
  | n + 1 =>
    if f.Copied t n then fun a =>
      if f.target t base n ≤ a ∧ a < f.target t base n + f.value (t.header n) Shdr.size
      then f.byte (f.source t n + (a - f.target t base n)) else placedBytes base n a
    else placedBytes base n

def HasContents (m : ElfModule) (i : ℕ) : Prop :=
  f.alloc t i = true → f.HasMember (t.header i) Shdr.type ∧
    (f.Copied t i → f.HasMember (t.header i) Shdr.offset ∧
      f.Has (f.source t i) (f.value (t.header i) Shdr.size) ∧
      m.Has (f.target t m.base i) (f.value (t.header i) Shdr.size))

variable {f t}

theorem length_placedSections (base n : ℕ) :
    (f.placedSections t base n).length = f.allocSecs t n := by
  induction n with
  | zero => exact (Nat.count_zero _).symm
  | succ n ih =>
    rw [placedSections, allocSecs_succ]
    by_cases h : f.alloc t n = true
    · rw [if_pos h, if_pos h, List.length_append, ih, List.length_singleton]
    · rw [if_neg h, if_neg h, ih]
      rfl

theorem placeSection_follows (hsizes : f.HasSizes t i) (hlisted : f.Listed t i) :
    Follows
      (placeSection f t m ⟨f.total t i, f.placedSections t m.base i, f.placedBytes t m.base i⟩ i)
      (f.HasContents t m i) True
      (· = ⟨f.total t (i + 1), f.placedSections t m.base (i + 1),
        f.placedBytes t m.base (i + 1)⟩) := by
  unfold HasContents
  by_cases h : f.alloc t i = true
  · obtain ⟨halign, hsize⟩ := hsizes.2 h
    have hlength := length_placedSections (f := f) (t := t) m.base i
    have hroom := hlisted h
    have htarget : f.target t m.base i = u64 (m.base + addressAlignUp (f.total t i)
        (sectionAlign (f.value (t.header i) Shdr.addralign))) := by
      rw [target, offset, align, if_pos h]
    rw [total, placedSections, if_pos h, placedBytes, align, if_pos h, size, if_pos h, htarget]
    by_cases hcopied : f.Copied t i
    · apply Follows.congr
      · unfold placeSection
        apply read_bind
        intro _
        rw [if_pos (show isAllocSection _ = true from h)]
        apply read_bind
        intro _
        apply Follows.access_bind
        intro _
        apply read_bind
        intro _
        apply read_bind
        intro _
        rw [if_pos hcopied.2]
        apply read_bind
        intro _
        unfold memcpyImage
        rw [Guarded.bind_assoc]
        apply Follows.access_bind
        intro _
        rw [Guarded.bind_assoc]
        apply Follows.access_bind
        intro _
        exact Follows.result _
      · constructor
        · exact fun ⟨_, _, _, htype, _, hoffset, hsrc, hdest, _⟩ _ =>
            ⟨htype, fun _ => ⟨hoffset, hsrc, hdest⟩⟩
        · intro hfits
          obtain ⟨htype, hcopy⟩ := hfits h
          obtain ⟨hoffset, hsrc, hdest⟩ := hcopy hcopied
          exact ⟨hsizes.1,
            halign, by dsimp only; omega, htype, hsize, hoffset, hsrc, hdest, trivial⟩
      · exact fun _ => Iff.rfl
      · rintro - - s rfl
        rw [if_pos hcopied]
        rfl
    · apply Follows.congr
      · unfold placeSection
        apply read_bind
        intro _
        rw [if_pos (show isAllocSection _ = true from h)]
        apply read_bind
        intro _
        apply Follows.access_bind
        intro _
        apply read_bind
        intro _
        apply read_bind
        intro _
        rw [if_neg fun hcopy => hcopied ⟨h, hcopy⟩]
        exact Follows.result _
      · constructor
        · exact fun ⟨_, _, _, htype, _⟩ _ => ⟨htype, fun hcopy => absurd hcopy hcopied⟩
        · exact fun hfits => ⟨hsizes.1, halign, by dsimp only; omega, (hfits h).1, hsize, trivial⟩
      · exact fun _ => Iff.rfl
      · rintro - - s rfl
        rw [if_neg hcopied]
  · apply Follows.congr
    · unfold placeSection
      apply read_bind
      intro _
      rw [if_neg (show ¬ isAllocSection _ = true from h)]
      exact Follows.result _
    · simp [h, hsizes.1]
    · simp
    · rintro - - s rfl
      rw [total_skip h, placedSections, if_neg h, placedBytes, if_neg fun hcopied => h hcopied.1]

theorem placeLoop_follows {n : ℕ} (hsizes : ∀ i < n, f.HasSizes t i)
    (hlisted : ∀ i < n, f.Listed t i) :
    Follows (loop (placeSection f t m) ⟨0, [], fun _ => 0⟩ n)
      (∀ i < n, (∀ j < i, True) → f.HasContents t m i) (∀ i < n, True)
      (· = ⟨f.total t n, f.placedSections t m.base n, f.placedBytes t m.base n⟩) := by
  apply Follows.loop
  · rintro i hi s rfl
    exact placeSection_follows (hsizes i hi) (hlisted i hi)
  · rfl

theorem placeSections_follows (hsizes : ∀ i < t.shnum, f.HasSizes t i)
    (hlisted : ∀ i < t.shnum, f.Listed t i) :
    Follows (placeSections f t m) (∀ i < t.shnum, f.HasContents t m i) True
      (· = ({ m with placed := f.placedSections t m.base t.shnum },
        f.placedBytes t m.base t.shnum)) := by
  apply Follows.congr
  · apply (placeLoop_follows hsizes hlisted).bind
    rintro - - s rfl
    exact Follows.result _
  · simp
  · simp
  · exact fun _ _ _ h => h

variable (f t k)

def imageSize : ℕ := addressAlignUp (f.total t t.shnum) (f.maxAlign t t.shnum)

def image : ElfModule :=
  let base := alignedBlock k (f.imageSize t) (f.maxAlign t t.shnum)
  ⟨base, f.imageSize t, f.placedSections t base t.shnum, 0, 0, 0⟩

def Placeable : Prop :=
  t.sh ≠ 0 ∧ (∀ i < t.shnum, f.Listed t i) ∧ rawBlock k (f.imageSize t) (f.maxAlign t t.shnum) ≠ 0

variable {f t k}

theorem modulePlaceSections_follows :
    Follows (modulePlaceSections f k t)
      (t.sh ≠ 0 → (∀ i < t.shnum, (∀ j < i, f.Listed t j) → f.HasSizes t i) ∧
        (f.Placeable k t → blockRequest (f.imageSize t) (f.maxAlign t t.shnum) < 2 ^ 64 ∧
          ∀ i < t.shnum, f.HasContents t (f.image k t) i))
      (f.Placeable k t)
      (· = (f.image k t, f.placedBytes t (f.image k t).base t.shnum)) := by
  apply Follows.congr
  · unfold modulePlaceSections
    apply Follows.test_bind
    intro _
    apply (sumSections_follows t.shnum).bind
    rintro hsizes hlisted s rfl
    have hle := le_maxAlign (f := f) (t := t) t.shnum
    have halign : (if 16 < f.maxAlign t t.shnum then f.maxAlign t t.shnum else 16) =
        f.maxAlign t t.shnum := by split <;> omega
    dsimp only
    rw [if_neg (by omega : ¬ f.maxAlign t t.shnum = 0), halign]
    apply kmallocAligned_follows (addressAlignUp_lt (total_lt _)) (maxAlign_lt _)
      (g := fun base => placeSections f t ⟨base, f.imageSize t, [], 0, 0, 0⟩)
    exact placeSections_follows (fun i hi => hsizes i hi fun j hj =>
      hlisted j (hj.trans hi)) hlisted
  · constructor
    · exact fun h hsh => ⟨(h hsh).1, fun hplace => (h hsh).2 hplace.2.1 hplace.2.2⟩
    · exact fun h hsh => ⟨(h hsh).1, fun hlisted hraw => (h hsh).2 ⟨hsh, hlisted, hraw⟩⟩
  · exact fun _ => ⟨fun ⟨hsh, hlisted, hraw, _⟩ => ⟨hsh, hlisted, hraw⟩,
      fun ⟨hsh, hlisted, hraw⟩ => ⟨hsh, hlisted, hraw, trivial⟩⟩
  · exact fun _ _ _ h => h

/-! ## The symbols -/

variable (f t)

/-- The symbol table among the first `n` sections. -/
def symtabBefore : ℕ → Option ℕ
  | 0 => none
  | n + 1 => (symtabBefore n).or (if f.value (t.header n) Shdr.type = 2 then some n else none)

def symtab : ℕ := (f.symtabBefore t t.shnum).getD 0

def strings : ℕ := t.header (f.value (t.header (f.symtab t)) Shdr.link)

def withSymbols (m : ElfModule) : ElfModule :=
  { m with
    symtab := f.source t (f.symtab t)
    symCount := f.value (t.header (f.symtab t)) Shdr.size / 24
    strtab := u64 (f.addr + f.value (f.strings t) Shdr.offset) }

/-- The members that `module_load_symbols` reads of the symbol table that it has found. -/
structure HasSymtab : Prop where
  offset : f.HasMember (t.header (f.symtab t)) Shdr.offset
  size : f.HasMember (t.header (f.symtab t)) Shdr.size
  link : f.HasMember (t.header (f.symtab t)) Shdr.link
  strings : f.HasMember (f.strings t) Shdr.offset

def Symbolic (m : ElfModule) : Prop :=
  f.symtabBefore t t.shnum ≠ none ∧ (f.withSymbols t m).symtab ≠ 0 ∧ (f.withSymbols t m).strtab ≠ 0

variable {f t}

theorem findSymtab_follows (i : ℕ) :
    Follows (findSymtab f t (f.symtabBefore t i) i)
      (f.symtabBefore t i = none → f.HasMember (t.header i) Shdr.type) True
      (· = f.symtabBefore t (i + 1)) := by
  cases h : f.symtabBefore t i with
  | some j =>
    apply (Follows.result (some j)).congr
    · simp
    · simp
    · rintro - - a rfl
      rw [symtabBefore, h]
      rfl
  | none =>
    apply Follows.congr
    · unfold findSymtab
      apply read_bind
      intro _
      exact Follows.result _
    · simp
    · simp
    · rintro - - a rfl
      rw [symtabBefore, h]
      rfl

theorem findSymtabs_follows (n : ℕ) :
    Follows (loop (findSymtab f t) none n)
      (∀ i < n, (∀ j < i, True) → f.symtabBefore t i = none → f.HasMember (t.header i) Shdr.type)
      (∀ i < n, True) (· = f.symtabBefore t n) := by
  apply Follows.loop
  · rintro i - s rfl
    exact findSymtab_follows i
  · rfl

theorem moduleLoadSymbols_follows :
    Follows (moduleLoadSymbols f t m)
      ((∀ i < t.shnum, f.symtabBefore t i = none → f.HasMember (t.header i) Shdr.type) ∧
        (f.symtabBefore t t.shnum ≠ none → f.HasSymtab t))
      (f.Symbolic t m) (· = f.withSymbols t m) := by
  apply Follows.congr (F := (∀ i < t.shnum, (∀ j < i, True) → f.symtabBefore t i = none →
    f.HasMember (t.header i) Shdr.type) ∧ ((∀ i < t.shnum, True) → f.symtabBefore t t.shnum ≠ none →
      f.HasSymtab t)) (A := (∀ i < t.shnum, True) ∧ f.Symbolic t m) (P := (· = f.withSymbols t m))
  · unfold moduleLoadSymbols
    apply (findSymtabs_follows t.shnum).bind
    rintro - - found rfl
    cases h : f.symtabBefore t t.shnum with
    | none => exact Follows.reject.congr (by simp) (by simp [Symbolic, h]) fun _ _ _ h => h
    | some i =>
      obtain rfl : f.symtab t = i := by rw [symtab, h]; rfl
      apply Follows.congr
      · apply read_bind
        intro _
        apply read_bind
        intro _
        apply read_bind
        intro _
        apply read_bind
        intro _
        apply Follows.test_bind
        intro _
        exact Follows.result _
      · constructor
        · exact fun ⟨hoffset, hsize, hlink, hstrings, _⟩ _ => ⟨hoffset, hsize, hlink, hstrings⟩
        · intro hfits
          obtain ⟨hoffset, hsize, hlink, hstrings⟩ := hfits (by simp)
          exact ⟨hoffset, hsize, hlink, hstrings, fun _ => trivial⟩
      · intro _
        constructor
        · exact fun ⟨htables, _⟩ => ⟨by simp [h], htables⟩
        · exact fun ⟨_, htables⟩ => ⟨htables, trivial⟩
      · exact fun _ _ _ h => h
  · simp
  · simp
  · exact fun _ _ _ h => h

/-! ## The addresses of symbols -/

variable (f k m)

def kernelAddress (name : ℕ) : ℕ :=
  if name = 0 ∨ k.symbolNameHash.length = 0 then 0
  else k.probe (f.text name) k.symbolNameHash.length
    (k.hashmapSip (f.text name) &&& (k.symbolNameHash.length - 1))

def symbolName (s : ℕ) : ℕ := u64 (m.strtab + f.value s Sym.name)

def symbolAddress (s : ℕ) : ℕ :=
  if f.value s Sym.shndx = 0 then f.kernelAddress k (f.symbolName m s)
  else if 0xFF00 ≤ f.value s Sym.shndx then 0
  else if m.sectionBase (f.value s Sym.shndx) = 0 then 0
  else u64 (m.sectionBase (f.value s Sym.shndx) + f.value s Sym.value)

structure HasSymbol (s : ℕ) : Prop where
  shndx : f.HasMember s Sym.shndx
  name : f.value s Sym.shndx = 0 → f.HasMember s Sym.name ∧
    (f.symbolName m s ≠ 0 → f.HasText (f.symbolName m s))
  value : f.value s Sym.shndx ≠ 0 → f.value s Sym.shndx < 0xFF00 →
    m.sectionBase (f.value s Sym.shndx) ≠ 0 → f.HasMember s Sym.value

def Resolved (s : ℕ) : Prop := f.value s Sym.shndx = 0 → f.symbolAddress k m s ≠ 0

def symbolAt (idx : ℕ) : ℕ := u64 (m.symtab + 24 * idx)

def Indexed (idx : ℕ) : Prop := idx < m.symCount ∧ symbolAt m idx ≠ 0

instance (idx : ℕ) : Decidable (Indexed m idx) := inferInstanceAs (Decidable (_ ∧ _))

def relocationAddress (idx : ℕ) : ℕ :=
  if Indexed m idx then f.symbolAddress k m (symbolAt m idx) else 0

variable {f k m}

theorem kernelDlsym_follows (name : ℕ) :
    Follows (k.kernelDlsym f name)
      (¬ (name = 0 ∨ k.symbolNameHash.length = 0) → f.HasText name) True
      (· = f.kernelAddress k name) := by
  unfold LoaderKernel.kernelDlsym kernelAddress
  by_cases h : name = 0 ∨ k.symbolNameHash.length = 0
  · rw [if_pos h, if_pos h]
    exact (Follows.result 0).congr (iff_of_true trivial (absurd h))
      (fun _ => Iff.rfl) fun _ _ _ h => h
  · rw [if_neg h, if_neg h]
    apply Follows.congr
    · unfold readText
      rw [Guarded.bind_assoc]
      apply Follows.access_bind
      intro _
      exact Follows.result _
    · exact ⟨fun htext _ => htext.1, fun htext => ⟨htext h, trivial⟩⟩
    · exact fun _ => Iff.rfl
    · exact fun _ _ _ h => h

theorem moduleResolveSymbolAddr_follows (s : ℕ) :
    Follows (moduleResolveSymbolAddr f k m s)
      (f.HasMember s Sym.shndx ∧
        (f.value s Sym.shndx = 0 → f.HasMember s Sym.name ∧
          (¬ (f.symbolName m s = 0 ∨ k.symbolNameHash.length = 0) → f.HasText (f.symbolName m s))) ∧
        (f.value s Sym.shndx ≠ 0 → f.value s Sym.shndx < 0xFF00 →
          m.sectionBase (f.value s Sym.shndx) ≠ 0 → f.HasMember s Sym.value))
      True (· = f.symbolAddress k m s) := by
  unfold moduleResolveSymbolAddr symbolAddress
  by_cases hundef : f.value s Sym.shndx = 0
  · apply Follows.congr
    · apply read_bind
      intro _
      rw [if_pos hundef]
      apply read_bind
      intro _
      exact kernelDlsym_follows _
    · simp only [hundef, true_imp_iff, ne_eq, not_true_eq_false, false_imp_iff, and_true]
      exact Iff.rfl
    · exact fun _ => Iff.rfl
    · rintro - - a rfl
      rw [if_pos hundef]
      rfl
  · by_cases hvalue : f.value s Sym.shndx < 0xFF00 ∧ m.sectionBase (f.value s Sym.shndx) ≠ 0
    · apply Follows.congr
      · apply read_bind
        intro _
        rw [if_neg hundef, if_neg (by omega), if_neg hvalue.2]
        apply read_bind
        intro _
        exact Follows.result _
      · simp [hundef, hvalue]
      · exact fun _ => Iff.rfl
      · rintro - - a rfl
        rw [if_neg hundef, if_neg (by omega), if_neg hvalue.2]
    · have hzero : ∀ (β : Type) (x y : β), (if 0xFF00 ≤ f.value s Sym.shndx then x
          else if m.sectionBase (f.value s Sym.shndx) = 0 then x else y) = x := by
        intro β x y
        split
        · rfl
        · rw [if_pos (by omega)]
      apply Follows.congr
      · apply read_bind
        intro _
        rw [if_neg hundef, hzero]
        exact Follows.result _
      · simp only [hundef, false_imp_iff, true_and, and_true]
        exact ⟨fun h => ⟨h, fun _ hlow hbase => absurd ⟨hlow, hbase⟩ hvalue⟩, fun h => h.1⟩
      · exact fun _ => Iff.rfl
      · rintro - - a rfl
        rw [if_neg hundef, hzero]

theorem relocationSymbol_follows (idx : ℕ) :
    Follows (relocationSymbol f k m idx) (Indexed m idx → f.HasSymbol m (symbolAt m idx))
      (Indexed m idx → f.Resolved k m (symbolAt m idx)) (· = f.relocationAddress k m idx) := by
  unfold relocationSymbol relocationAddress
  dsimp only
  have hsymbol : u64 (m.symtab + 24 * idx) = symbolAt m idx := rfl
  by_cases hindexed : Indexed m idx
  · rw [if_pos hindexed, hsymbol, if_pos (show idx < m.symCount ∧ symbolAt m idx ≠ 0 from hindexed)]
    generalize symbolAt m idx = s
    apply Follows.congr (P := (· = f.symbolAddress k m s))
    · apply (moduleResolveSymbolAddr_follows s).bind
      rintro - - S rfl
      apply read_bind
      intro _
      apply Follows.branch
      · intro _
        apply read_bind
        intro _
        apply Follows.branch
        · exact fun _ => Follows.reject
        · intro _
          unfold readText
          rw [Guarded.bind_assoc]
          apply Follows.access_bind
          exact fun _ => Follows.reject
      · exact fun _ => Follows.result _
    · rw [true_imp_iff, imp_iff_right hindexed]
      constructor
      · rintro ⟨⟨hshndx, hname, hvalue⟩, -, herror⟩
        refine ⟨hshndx, fun hundef => ⟨(hname hundef).1, fun hnamed => ?_⟩, hvalue⟩
        by_cases hzero : f.symbolAddress k m s = 0
        · rw [if_pos ⟨hzero, hundef⟩, if_neg (show ¬ u64 (m.strtab + _) = 0 from hnamed)] at herror
          exact herror.2.1
        · apply (hname hundef).2
          intro hnone
          rw [symbolAddress, if_pos hundef, kernelAddress, if_pos hnone] at hzero
          exact hzero rfl
      · intro h
        refine ⟨⟨h.shndx, fun hundef => ⟨(h.name hundef).1, fun hnone => ?_⟩, h.value⟩, h.shndx, ?_⟩
        · exact (h.name hundef).2 fun hzero => hnone (Or.inl hzero)
        · split
          · next herror =>
            refine ⟨(h.name herror.2).1, ?_⟩
            split
            · exact trivial
            · next hnamed => exact ⟨(h.name herror.2).2 hnamed, trivial⟩
          · exact trivial
    · intro _
      rw [true_and, imp_iff_right hindexed]
      constructor
      · intro haccept hundef hzero
        rw [if_pos ⟨hzero, hundef⟩] at haccept
        split at haccept <;> simp at haccept
      · intro hresolved
        rw [if_neg fun herror => hresolved herror.2 herror.1]
        exact trivial
    · exact fun _ _ _ h => h
  · rw [if_neg hindexed, hsymbol, if_neg (show ¬ (idx < m.symCount ∧ _ ≠ 0) from hindexed)]
    exact (Follows.result 0).congr (iff_of_true trivial fun h => absurd h hindexed)
      (fun _ => iff_of_true trivial fun h => absurd h hindexed) fun _ _ _ h => h

/-! ## The relocations -/

def stored (bytes : ℕ → Byte) (P : ℕ) : Option (ℕ × ℕ) → ℕ → Byte
  | none => bytes
  | some (width, value) => storeValue bytes P width value

theorem storeRelocation_follows (bytes : ℕ → Byte) (P : ℕ) (field : Option (ℕ × ℕ)) :
    Follows (storeRelocation m bytes P field)
      (∀ width value, field = some (width, value) → m.Has P width)
      (field ≠ none) (· = stored bytes P field) := by
  cases field with
  | none => exact Follows.reject.congr (by simp) (by simp) fun _ _ _ h => h
  | some field =>
    apply Follows.congr
    · apply Follows.access_bind
      intro _
      exact Follows.result _
    · constructor
      · rintro ⟨hhas, -⟩ width value ⟨⟩
        exact hhas
      · exact fun h => ⟨h _ _ rfl, trivial⟩
    · simp
    · exact fun _ _ _ h => h

variable (f k t m)

/-- Where the entry at `rela` stores, for a section at `base`. -/
def relaTarget (base rela : ℕ) : ℕ := u64 (base + f.value rela Rela.offset)

def relaField (base rela : ℕ) : Option (ℕ × ℕ) :=
  relocationField (u32 (f.value rela Rela.info))
    (f.relocationAddress k m (f.value rela Rela.info / 2 ^ 32)) (f.value rela Rela.addend)
    (f.relaTarget base rela)

def storeRela (base rela : ℕ) (bytes : ℕ → Byte) : ℕ → Byte :=
  stored bytes (f.relaTarget base rela) (f.relaField k m base rela)

/-- The symbol of the entry at `rela`. -/
def relaSymbol (rela : ℕ) : ℕ := symbolAt m (f.value rela Rela.info / 2 ^ 32)

def Symbolized (rela : ℕ) : Prop := Indexed m (f.value rela Rela.info / 2 ^ 32)

/-- The accesses of the entry at `rela`. -/
structure HasRela (base rela : ℕ) : Prop where
  info : f.HasMember rela Rela.info
  offset : f.HasMember rela Rela.offset
  addend : f.HasMember rela Rela.addend
  symbol : f.Symbolized m rela → f.HasSymbol m (f.relaSymbol m rela)
  target : (f.Symbolized m rela → f.Resolved k m (f.relaSymbol m rela)) →
    ∀ width value, f.relaField k m base rela = some (width, value) →
      m.Has (f.relaTarget base rela) width

def RelaApplies (base rela : ℕ) : Prop :=
  (f.Symbolized m rela → f.Resolved k m (f.relaSymbol m rela)) ∧ f.relaField k m base rela ≠ none

def relocated (i : ℕ) : ℕ := u16 (f.value (t.header i) Shdr.info)

def Relocates (i : ℕ) : Prop :=
  f.value (t.header i) Shdr.type = 4 ∧ f.relocated t i < t.shnum ∧
    f.alloc t (f.relocated t i) = true

instance (i : ℕ) : Decidable (f.Relocates t i) := inferInstanceAs (Decidable (_ ∧ _))

def relaCount (i : ℕ) : ℕ := f.value (t.header i) Shdr.size / 24

def relaAt (i j : ℕ) : ℕ := f.source t i + 24 * j

def relocatedBase (i : ℕ) : ℕ := m.sectionBase (f.relocated t i)

structure HasRelocations (i : ℕ) : Prop where
  type : f.HasMember (t.header i) Shdr.type
  info : f.value (t.header i) Shdr.type = 4 → f.HasMember (t.header i) Shdr.info ∧
    (f.relocated t i < t.shnum → f.HasMember (t.header (f.relocated t i)) Shdr.flags)
  entries : f.Relocates t i → f.relocatedBase t m i ≠ 0 →
    f.HasMember (t.header i) Shdr.offset ∧ f.HasMember (t.header i) Shdr.size ∧
      ∀ j < f.relaCount t i, (∀ l < j, f.RelaApplies k m (f.relocatedBase t m i) (f.relaAt t i l)) →
        f.HasRela k m (f.relocatedBase t m i) (f.relaAt t i j)

def Applies (i : ℕ) : Prop :=
  f.Relocates t i → f.relocatedBase t m i ≠ 0 ∧
    ∀ j < f.relaCount t i, f.RelaApplies k m (f.relocatedBase t m i) (f.relaAt t i j)

/-- The image after the turns of the first `n` entries of a section. -/
def storeRelas (i : ℕ) (bytes : ℕ → Byte) : ℕ → ℕ → Byte
  | 0 => bytes
  | n + 1 => f.storeRela k m (f.relocatedBase t m i) (f.relaAt t i n) (storeRelas i bytes n)

/-- The image after the turns of the first `n` sections. -/
def storeSections (bytes : ℕ → Byte) : ℕ → ℕ → Byte
  | 0 => bytes
  | n + 1 =>
    if f.Relocates t n then f.storeRelas k t m n (storeSections bytes n) (f.relaCount t n)
    else storeSections bytes n

variable {f k t m}

theorem applyRela_follows (base rela : ℕ) (bytes : ℕ → Byte) :
    Follows (applyRela f k m base rela bytes) (f.HasRela k m base rela)
      (f.RelaApplies k m base rela) (· = f.storeRela k m base rela bytes) := by
  apply Follows.congr (P := (· = f.storeRela k m base rela bytes))
  · unfold applyRela
    apply read_bind
    intro _
    apply read_bind
    intro _
    apply read_bind
    intro _
    apply (relocationSymbol_follows _).bind
    rintro - - S rfl
    exact storeRelocation_follows _ _ _
  · constructor
    · exact fun ⟨hinfo, hoffset, haddend, hsymbol, htarget⟩ =>
        ⟨hinfo, hoffset, haddend, hsymbol, htarget⟩
    · exact fun h => ⟨h.info, h.offset, h.addend, h.symbol, h.target⟩
  · exact fun _ => Iff.rfl
  · exact fun _ _ _ h => h

theorem applyRelas_follows (i n : ℕ) (bytes : ℕ → Byte) :
    Follows
      (loop (fun bytes j =>
        applyRela f k m (f.relocatedBase t m i) (f.source t i + 24 * j) bytes) bytes n)
      (∀ j < n, (∀ l < j, f.RelaApplies k m (f.relocatedBase t m i) (f.relaAt t i l)) →
        f.HasRela k m (f.relocatedBase t m i) (f.relaAt t i j))
      (∀ j < n, f.RelaApplies k m (f.relocatedBase t m i) (f.relaAt t i j))
      (· = f.storeRelas k t m i bytes n) := by
  apply Follows.loop
  · rintro j - s rfl
    exact applyRela_follows _ _ _
  · rfl

theorem applySection_follows (i : ℕ) (bytes : ℕ → Byte) :
    Follows (applySection f k t m bytes i) (f.HasRelocations k t m i) (f.Applies k t m i)
      (· = if f.Relocates t i then f.storeRelas k t m i bytes (f.relaCount t i) else bytes) := by
  have hskip (hnot : ¬ f.Relocates t i) : Follows (.ok bytes) True True
      (· = if f.Relocates t i then f.storeRelas k t m i bytes (f.relaCount t i) else bytes) := by
    rw [if_neg hnot]
    exact Follows.result bytes
  apply Follows.congr
    (P := (· = if f.Relocates t i then f.storeRelas k t m i bytes (f.relaCount t i) else bytes))
  · unfold applySection
    apply read_bind
    intro _
    apply Follows.branch
    · intro htype
      apply read_bind
      intro _
      apply Follows.branch
      · intro htgt
        apply read_bind
        intro _
        apply Follows.branch
        · intro halloc
          rw [if_pos (show f.Relocates t i from ⟨htype, htgt, halloc⟩)]
          apply Follows.test_bind
          intro _
          apply read_bind
          intro _
          apply read_bind
          intro _
          exact applyRelas_follows i _ bytes
        · exact fun hnot => hskip fun h => hnot h.2.2
      · exact fun hnot => hskip fun h => hnot h.2.1
    · exact fun hnot => hskip fun h => hnot h.1
  · constructor
    · rintro ⟨htype, h⟩
      refine ⟨htype, fun hrela => ?_, fun hrel hbase => ?_⟩
      · rw [if_pos hrela] at h
        refine ⟨h.1, fun htgt => ?_⟩
        have h := h.2
        rw [if_pos (show u16 _ < _ from htgt)] at h
        exact h.1
      · obtain ⟨hrela, htgt, halloc⟩ := hrel
        rw [if_pos hrela, if_pos (show u16 _ < _ from htgt),
          if_pos (show isAllocSection (f.value (t.header (u16 _)) _) = true from halloc)] at h
        exact h.2.2 hbase
    · intro h
      refine ⟨h.type, ?_⟩
      split
      · next hrela =>
        refine ⟨(h.info hrela).1, ?_⟩
        split
        · next htgt =>
          refine ⟨(h.info hrela).2 htgt, ?_⟩
          split
          · next halloc => exact h.entries ⟨hrela, htgt, halloc⟩
          · exact trivial
        · exact trivial
      · exact trivial
  · intro _
    constructor
    · rintro haccept ⟨hrela, htgt, halloc⟩
      rw [if_pos hrela, if_pos (show u16 _ < _ from htgt),
        if_pos (show isAllocSection (f.value (t.header (u16 _)) _) = true from halloc)] at haccept
      exact haccept
    · intro h
      split
      · next hrela =>
        split
        · next htgt =>
          split
          · next halloc => exact h ⟨hrela, htgt, halloc⟩
          · exact trivial
        · exact trivial
      · exact trivial
  · exact fun _ _ _ h => h

theorem applySections_follows (bytes : ℕ → Byte) (n : ℕ) :
    Follows (loop (applySection f k t m) bytes n)
      (∀ i < n, (∀ j < i, f.Applies k t m j) → f.HasRelocations k t m i)
      (∀ i < n, f.Applies k t m i) (· = f.storeSections k t m bytes n) := by
  apply Follows.loop
  · rintro i - s rfl
    exact applySection_follows i _
  · rfl

/-! ## The whole file -/

variable (f k) in
def module : ElfModule := f.withSymbols f.table (f.image k f.table)

variable (f) in
def Accepted : Prop := f.Headed ∧ f.names < f.bytes.length

variable (f k) in
structure LoadsSafely : Prop where
  names : f.Headed → f.HasMember f.namesHeader Shdr.offset
  sizes : f.Accepted → f.table.sh ≠ 0 →
    ∀ i < f.table.shnum, (∀ j < i, f.Listed f.table j) → f.HasSizes f.table i
  request : f.Accepted → f.Placeable k f.table →
    blockRequest (f.imageSize f.table) (f.maxAlign f.table f.table.shnum) < 2 ^ 64
  contents : f.Accepted → f.Placeable k f.table →
    ∀ i < f.table.shnum, f.HasContents f.table (f.image k f.table) i
  types : f.Accepted → f.Placeable k f.table →
    ∀ i < f.table.shnum, f.symtabBefore f.table i = none → f.HasMember (f.table.header i) Shdr.type
  symtab : f.Accepted → f.Placeable k f.table →
    f.symtabBefore f.table f.table.shnum ≠ none → f.HasSymtab f.table
  relocations : f.Accepted → f.Placeable k f.table → f.Symbolic f.table (f.image k f.table) →
    ∀ i < f.table.shnum, (∀ j < i, f.Applies k f.table (f.module k) j) →
      f.HasRelocations k f.table (f.module k) i

theorem moduleLoad_follows :
    Follows (moduleLoad f k) (f.LoadsSafely k)
      (f.Accepted ∧ f.Placeable k f.table ∧ f.Symbolic f.table (f.image k f.table) ∧
        ∀ i < f.table.shnum, f.Applies k f.table (f.module k) i)
      (· = (f.module k, f.storeSections k f.table (f.module k)
        (f.placedBytes f.table (f.module k).base f.table.shnum) f.table.shnum)) := by
  apply Follows.congr
  · unfold moduleLoad moduleApplyRelocations
    apply (parseElfRelHeaders_follows f).bind
    rintro - - s rfl
    apply modulePlaceSections_follows.bind
    rintro - - s rfl
    apply moduleLoadSymbols_follows.bind
    rintro - - s rfl
    apply (applySections_follows _ _).bind
    rintro - - s rfl
    exact Follows.result _
  · constructor
    · intro h
      constructor
      · exact h.1
      · exact fun haccepted hsh => ((h.2 haccepted).1 hsh).1
      · exact fun haccepted hplace => (((h.2 haccepted).1 hplace.1).2 hplace).1
      · exact fun haccepted hplace => (((h.2 haccepted).1 hplace.1).2 hplace).2
      · exact fun haccepted hplace => ((h.2 haccepted).2 hplace).1.1
      · exact fun haccepted hplace => ((h.2 haccepted).2 hplace).1.2
      · exact fun haccepted hplace hsymbolic => (((h.2 haccepted).2 hplace).2 hsymbolic).1
    · intro h
      refine ⟨h.names, fun haccepted => ⟨fun hsh => ⟨h.sizes haccepted hsh, fun hplace =>
        ⟨h.request haccepted hplace, h.contents haccepted hplace⟩⟩, fun hplace =>
        ⟨⟨h.types haccepted hplace, h.symtab haccepted hplace⟩, fun hsymbolic =>
          ⟨h.relocations haccepted hplace hsymbolic, fun _ => trivial⟩⟩⟩⟩
  · intro _
    constructor
    · exact fun ⟨haccepted, hplace, hsymbolic, happlies, _⟩ =>
        ⟨haccepted, hplace, hsymbolic, happlies⟩
    · exact fun ⟨haccepted, hplace, hsymbolic, happlies⟩ =>
        ⟨haccepted, hplace, hsymbolic, happlies, trivial⟩
  · exact fun _ _ _ h => h

/-- A file is loaded without an access outside of it, of the image and of the table of sections just
if it meets the conditions. -/
theorem moduleLoad_safe_iff (f : ElfFile) (k : LoaderKernel) :
    (moduleLoad f k).Safe ↔ f.LoadsSafely k :=
  moduleLoad_follows.safe

/-- A file gets through the four functions just if it meets the conditions and each of them accepts
it, and then they leave this module and these bytes in the image. -/
theorem moduleLoad_eq_ok_iff (f : ElfFile) (k : LoaderKernel) (m : ElfModule) (image : ℕ → Byte) :
    moduleLoad f k = .ok (m, image) ↔ f.LoadsSafely k ∧
      (f.Accepted ∧ f.Placeable k f.table ∧ f.Symbolic f.table (f.image k f.table) ∧
        ∀ i < f.table.shnum, f.Applies k f.table (f.module k) i) ∧
      (m, image) = (f.module k, f.storeSections k f.table (f.module k)
        (f.placedBytes f.table (f.module k).base f.table.shnum) f.table.shnum) :=
  moduleLoad_follows.eq_ok_iff

def headerBytes : List Byte :=
  [0x7F, 0x45, 0x4C, 0x46, 2] ++ List.replicate 11 0 ++ [1, 0, 62,
    0] ++ List.replicate 42 0 ++ [1, 0]

theorem headerAddr_pos : 0 < 0x1000 := by decide

theorem headerBytes_fits : 0x1000 + headerBytes.length ≤ 2 ^ 64 := by decide

def headerOnly : ElfFile := ⟨0x1000, headerBytes, headerAddr_pos, headerBytes_fits⟩

def bareKernel : LoaderKernel where
  kmalloc _ := 0
  kmalloc_inside _ h := absurd rfl h
  hashmapSip _ := 0
  symbolNameHash := []
  findsymbolAddr := 0

/-- The header of the names is read behind the end of the file. -/
theorem not_safe_headerOnly : ¬ (moduleLoad headerOnly bareKernel).Safe := fun h => h rfl

end ElfFile

end RetroRocket
