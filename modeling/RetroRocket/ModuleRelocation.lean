import Mathlib.Data.Int.ModEq
import RetroRocket.AlignedLayout
import RetroRocket.ModuleSafety

/-!
# What a loaded module is

The sections of a module that has been loaded are apart from each other in its image, and its
relocations have stored the addresses that their symbols have. This fails for symbols with an
absolute value, which the loader takes for 0, and where the sum of the sizes of the sections wraps.
-/

namespace RetroRocket

namespace ElfFile

variable {f : ElfFile} {k : LoaderKernel} {t : ElfTable} {m : ElfModule}
    {image : ℕ → Byte} {i j n a : ℕ}

/-! ## The layout of the image -/

theorem addressAlignUp_eq {v a : ℕ} (ha : 0 < a) (hv : v < 2 ^ 64) :
    addressAlignUp v a = u64 (alignNext v a) := by
  have hrest := Nat.mod_lt v ha
  unfold addressAlignUp alignNext
  rw [if_neg ha.ne']
  by_cases hzero : v % a = 0
  · rw [hzero, Nat.sub_zero, Nat.mod_self, Nat.add_zero, u64_of_lt hv]
    exact if_neg fun h => h hzero
  · rw [Nat.mod_eq_of_lt (by omega : a - v % a < a)]
    exact if_pos hzero

theorem align_pos (i : ℕ) : 0 < f.align t i := by
  unfold align sectionAlign
  split
  · split <;> omega
  · exact Nat.one_pos

theorem total_eq (n : ℕ) : f.total t n = wrappedEnd (f.align t) (f.size t) n := by
  induction n with
  | zero => rfl
  | succ n ih =>
    rw [total, addressAlignUp_eq (align_pos n) (total_lt n), ih]
    rfl

theorem offset_eq (i : ℕ) : f.offset t i = wrappedStart (f.align t) (f.size t) i := by
  rw [offset, addressAlignUp_eq (align_pos i) (total_lt i), total_eq]
  rfl

theorem imageSize_eq :
    f.imageSize t = u64
      (alignNext (wrappedEnd (f.align t) (f.size t) t.shnum) (f.maxAlign t t.shnum)) := by
  have hle := le_maxAlign (f := f) (t := t) t.shnum
  rw [imageSize, addressAlignUp_eq (by omega) (total_lt _), total_eq]

variable (f t) in
def Fits : Prop :=
  alignNext (layoutEnd (f.align t) (f.size t) t.shnum) (f.maxAlign t t.shnum) < 2 ^ 64

theorem Fits.offset (h : f.Fits t) (hi : i < t.shnum) :
    f.offset t i = layoutStart (f.align t) (f.size t) i := by
  rw [offset_eq]
  apply wrappedStart_eq
  have hle := layoutStart_le (a := f.align t) (s := f.size t) hi
  have hend := (le_alignNext (layoutEnd (f.align t) (f.size t) t.shnum) _).trans_lt h
  omega

theorem Fits.offset_add_le (h : f.Fits t) (hi : i < t.shnum) :
    f.offset t i + f.size t i ≤ f.imageSize t := by
  have hle := le_alignNext (layoutEnd (f.align t) (f.size t) t.shnum) (f.maxAlign t t.shnum)
  rw [imageSize_eq, wrappedEnd_eq (hle.trans_lt h), u64_of_lt h, h.offset hi]
  exact (layoutStart_le hi).trans hle

theorem Fits.offset_mono (h : f.Fits t) (hj : j < t.shnum) (hij : i < j) :
    f.offset t i + f.size t i ≤ f.offset t j := by
  rw [h.offset (hij.trans hj), h.offset hj]
  exact layoutStart_add_le hij

theorem Fits.dvd_offset (h : f.Fits t) (hi : i < t.shnum) : f.align t i ∣ f.offset t i := by
  rw [h.offset hi]
  exact dvd_alignNext _ (align_pos i)

theorem find_placedSections (base : ℕ) :
    (f.placedSections t base n).find? (fun p => p.1 = i) =
      if i < n ∧ f.alloc t i = true then some (i, f.target t base i) else none := by
  induction n with
  | zero => simp [placedSections]
  | succ n ih =>
    rw [placedSections]
    by_cases halloc : f.alloc t n = true
    · rw [if_pos halloc, List.find?_append, ih]
      by_cases hlast : i = n
      · subst hlast
        simp [halloc]
      · simp [Ne.symm hlast, show i < n + 1 ↔ i < n by omega]
    · rw [if_neg halloc, ih]
      by_cases hlast : i = n
      · subst hlast
        simp [halloc]
      · simp [show i < n + 1 ↔ i < n by omega]

theorem sectionBase_module (i : ℕ) : (f.module k).sectionBase i =
    if i < f.table.shnum ∧ f.alloc f.table i = true then f.target f.table
      (f.module k).base i else 0 := by
  change (((f.placedSections f.table (f.module k).base f.table.shnum).find? fun p => p.1 = i).map
    Prod.snd).getD 0 = _
  rw [find_placedSections]
  split <;> rfl

/-! ## The bytes of the image -/

theorem base_add_size_lt (h : f.Placeable k t)
    (hrequest : blockRequest (f.imageSize t) (f.maxAlign t t.shnum) < 2 ^ 64) :
    (f.image k t).base + f.imageSize t < 2 ^ 64 := by
  have hsize : f.imageSize t < 2 ^ 64 := addressAlignUp_lt (total_lt _)
  obtain ⟨⟨hstart, -⟩, hend⟩ := (alignedBlock_inside hsize (maxAlign_lt _) h.2.2).mpr hrequest
  have hinside : rawBlock k (f.imageSize t) (f.maxAlign t t.shnum) + _ < _ :=
    k.kmalloc_inside _ h.2.2
  exact (hend (by omega)).trans_lt hinside

theorem Fits.target (h : f.Fits t) {base : ℕ} (hbase : base + f.imageSize t < 2 ^ 64)
    (hi : i < t.shnum) : f.target t base i = base + f.offset t i := by
  have hle := h.offset_add_le hi
  exact u64_of_lt (by omega)

theorem placedBytes_of_not_mem {base : ℕ}
    (h : ∀ i < n, f.alloc t i = true →
      ¬ (f.target t base i ≤ a ∧ a < f.target t base i + f.size t i)) :
    f.placedBytes t base n a = 0 := by
  induction n with
  | zero => rfl
  | succ n ih =>
    have hbefore := ih fun i hi => h i (hi.trans (Nat.lt_succ_self n))
    rw [placedBytes]
    by_cases hcopied : f.Copied t n
    · have hlast := h n (Nat.lt_succ_self n) hcopied.1
      rw [size, if_pos hcopied.1] at hlast
      rw [if_pos hcopied, if_neg hlast, hbefore]
    · rw [if_neg hcopied, hbefore]

theorem Fits.placedBytes (h : f.Fits t) {base b : ℕ} (hbase : base + f.imageSize t < 2 ^ 64)
    (hn : n ≤ t.shnum) (hi : i < n) (halloc : f.alloc t i = true) (hb : b < f.size t i) :
    f.placedBytes t base n (base + f.offset t i + b) =
      if f.value (t.header i) Shdr.type = 8 then 0 else f.byte (f.source t i + b) := by
  induction n with
  | zero => exact absurd hi (Nat.not_lt_zero i)
  | succ n ih =>
    rw [ElfFile.placedBytes]
    by_cases hlast : i = n
    · subst hlast
      have hsize : f.size t i = f.value (t.header i) Shdr.size := if_pos halloc
      have hnone : f.placedBytes t base i (base + f.offset t i + b) = 0 := by
        apply placedBytes_of_not_mem
        intro j hj _
        have hbefore := h.offset_mono hn hj
        rw [h.target hbase (by omega)]
        omega
      by_cases hbits : f.value (t.header i) Shdr.type = 8
      · rw [if_neg fun hcopied => hcopied.2.1 hbits, hnone, if_pos hbits]
      · rw [if_pos ⟨halloc, hbits, by omega⟩, h.target hbase hn, if_pos (by omega), if_neg hbits,
          Nat.add_sub_cancel_left]
    · have hother : f.placedBytes t base n (base + f.offset t i + b) = _ := ih (by omega) (by omega)
      by_cases hcopied : f.Copied t n
      · have hafter := h.offset_mono hn (by omega : i < n)
        rw [if_pos hcopied, h.target hbase hn, if_neg (by omega), hother]
      · rw [if_neg hcopied, hother]

/-! ## The fields of relocations -/

variable (f) in
/-- The number of bytes that the entry at `rela` stores. -/
def relaWidth (rela : ℕ) : ℕ := if u32 (f.value rela Rela.info) = 1 then 8 else 4

variable (f) in
/-- The field of the entry at `rela` has the byte at `a`. -/
def Covers (base rela a : ℕ) : Prop :=
  f.relaTarget base rela ≤ a ∧ a < f.relaTarget base rela + f.relaWidth rela

theorem relocationField_cases {type S A P width value : ℕ}
    (h : relocationField type S A P = some (width, value)) :
    (type = 1 ∧ width = 8 ∧ value = u64 (S + A)) ∨
    ((type = 2 ∨ type = 4) ∧ width = 4 ∧ value = u32 (sub64 (u64 (S + A)) P) ∧
      InInt (int64 (sub64 (u64 (S + A)) P))) ∨
    (type = 10 ∧ width = 4 ∧ value = u64 (S + A) ∧ value < 2 ^ 32) ∨
    (type = 11 ∧ width = 4 ∧ value = u32 (u64 (S + A)) ∧ InInt (int64 (u64 (S + A)))) := by
  unfold relocationField at h
  by_cases h1 : type = 1
  · rw [if_pos h1] at h
    obtain ⟨rfl, rfl⟩ := Prod.mk.inj (Option.some.inj h)
    exact Or.inl ⟨h1, rfl, rfl⟩
  rw [if_neg h1] at h
  by_cases h2 : type = 2 ∨ type = 4
  · rw [if_pos h2] at h
    obtain ⟨hfits, h⟩ := Option.ite_none_right_eq_some.mp h
    obtain ⟨rfl, rfl⟩ := Prod.mk.inj (Option.some.inj h)
    exact Or.inr (Or.inl ⟨h2, rfl, rfl, hfits⟩)
  rw [if_neg h2] at h
  by_cases h10 : type = 10
  · rw [if_pos h10] at h
    obtain ⟨hfits, h⟩ := Option.ite_none_right_eq_some.mp h
    obtain ⟨rfl, rfl⟩ := Prod.mk.inj (Option.some.inj h)
    exact Or.inr (Or.inr (Or.inl ⟨h10, rfl, rfl, hfits⟩))
  rw [if_neg h10] at h
  obtain ⟨h11, h⟩ := Option.ite_none_right_eq_some.mp h
  obtain ⟨hfits, h⟩ := Option.ite_none_right_eq_some.mp h
  obtain ⟨rfl, rfl⟩ := Prod.mk.inj (Option.some.inj h)
  exact Or.inr (Or.inr (Or.inr ⟨h11, rfl, rfl, hfits⟩))

theorem relaField_width {base rela width value : ℕ}
    (h : f.relaField k m base rela = some (width, value)) :
    width = f.relaWidth rela ∧ value < 2 ^ (8 * f.relaWidth rela) := by
  unfold relaField at h
  unfold relaWidth
  rcases relocationField_cases h with ⟨htype, hwidth, hvalue⟩ | ⟨htype, hwidth, hvalue, -⟩ |
    ⟨htype, hwidth, -, hlt⟩ | ⟨htype, hwidth, hvalue, -⟩
  · rw [if_pos htype, hvalue]
    exact ⟨hwidth, u64_lt _⟩
  · rw [if_neg (by omega), hvalue]
    exact ⟨hwidth, Nat.mod_lt _ (by decide)⟩
  · rw [if_neg (by omega)]
    exact ⟨hwidth, hlt⟩
  · rw [if_neg (by omega), hvalue]
    exact ⟨hwidth, Nat.mod_lt _ (by decide)⟩

theorem storeRela_of_not_covers {base rela : ℕ} (bytes : ℕ → Byte) (h : ¬ f.Covers base rela a) :
    f.storeRela k m base rela bytes a = bytes a := by
  unfold storeRela
  cases hfield : f.relaField k m base rela with
  | none => rfl
  | some field =>
    obtain ⟨width, value⟩ := field
    obtain ⟨hwidth, -⟩ := relaField_width hfield
    unfold Covers at h
    rw [stored, storeValue, hwidth, if_neg h]

theorem storeRelas_of_not_covers {i l : ℕ} (bytes : ℕ → Byte) (hl : l ≤ n)
    (h : ∀ j < n, l ≤ j → ¬ f.Covers (f.relocatedBase t m i) (f.relaAt t i j) a) :
    f.storeRelas k t m i bytes n a = f.storeRelas k t m i bytes l a := by
  induction n, hl using Nat.le_induction with
  | base => rfl
  | succ n hl ih =>
    rw [storeRelas, storeRela_of_not_covers _ (h n (Nat.lt_succ_self n) hl)]
    exact ih fun j hj => h j (hj.trans (Nat.lt_succ_self n))

theorem storeSections_of_not_covers {l : ℕ} (bytes : ℕ → Byte) (hl : l ≤ n)
    (h : ∀ i < n, l ≤ i → f.Relocates t i → ∀ j < f.relaCount t i,
      ¬ f.Covers (f.relocatedBase t m i) (f.relaAt t i j) a) :
    f.storeSections k t m bytes n a = f.storeSections k t m bytes l a := by
  induction n, hl using Nat.le_induction with
  | base => rfl
  | succ n hl ih =>
    have hbefore := ih fun i hi => h i (hi.trans (Nat.lt_succ_self n))
    rw [storeSections]
    by_cases hrel : f.Relocates t n
    · rw [if_pos hrel, storeRelas_of_not_covers _ (Nat.zero_le _) fun j hj _ =>
        h n (Nat.lt_succ_self n) hl hrel j hj]
      exact hbefore
    · rw [if_neg hrel]
      exact hbefore

theorem leValue_storeSections {width value : ℕ} {bytes : ℕ → Byte} (hi : i < n)
    (hrel : f.Relocates t i) (hj : j < f.relaCount t i)
    (hfield : f.relaField k m (f.relocatedBase t m i) (f.relaAt t i j) = some (width, value))
    (hlater : ∀ i' < n, ∀ j' < f.relaCount t i', f.Relocates t i' → i < i' ∨
      (i = i' ∧ j < j') → ∀ a,
      f.Covers (f.relocatedBase t m i) (f.relaAt t i j) a →
        ¬ f.Covers (f.relocatedBase t m i') (f.relaAt t i' j') a) :
    leValue (f.storeSections k t m bytes n) (f.relaTarget (f.relocatedBase t m i) (f.relaAt t i j))
      (f.relaWidth (f.relaAt t i j)) = value := by
  obtain ⟨rfl, hlt⟩ := relaField_width hfield
  rw [leValue_storeValue (p := f.storeRelas k t m i (f.storeSections k t m bytes i) j),
    Nat.mod_eq_of_lt hlt]
  intro b hlow hhigh
  rw [storeSections_of_not_covers bytes hi fun i' hi' hle hrel' j' hj' =>
    hlater i' hi' j' hj' hrel' (Or.inl hle) b ⟨hlow, hhigh⟩]
  rw [storeSections, if_pos hrel, storeRelas_of_not_covers _ hj fun j' hj' hle =>
    hlater i hi j' hj' hrel (Or.inr ⟨rfl, hle⟩) b ⟨hlow, hhigh⟩]
  rw [storeRelas, storeRela, hfield]
  rfl

/-! ## What relocations should store -/

def int32 (n : ℕ) : ℤ := if n < 2 ^ 31 then n else (n : ℤ) - 2 ^ 32

/-- The number of a field, extended to 64 bits, is the address `S` of the symbol with the addend,
and for `R_X86_64_PC32` and `R_X86_64_PLT32` less the place. -/
structure FieldExact (type S A P value : ℕ) : Prop where
  known : type ∈ [1, 2, 4, 10, 11]
  whole : type = 1 ∨ type = 10 → value = (S + A) % 2 ^ 64
  signed : type = 11 → Int.ModEq (2 ^ 64) (int32 value) (S + A)
  relative : type = 2 ∨ type = 4 → Int.ModEq (2 ^ 64) (int32 value) (S + A - P)

theorem int32_u32 {n : ℕ} (hn : n < 2 ^ 64) (h : InInt (int64 n)) :
    Int.ModEq (2 ^ 64) (int32 (u32 n)) n := by
  unfold InInt int64 at h
  rw [u64_of_lt hn] at h
  apply (Int.modEq_iff_dvd.mpr _).symm
  unfold int32 u32
  split at h
  · exact ⟨0, by split <;> omega⟩
  · exact ⟨-1, by split <;> omega⟩

theorem fieldExact_of_relocationField {type S A P width value : ℕ} (hP : P < 2 ^ 64)
    (h : relocationField type S A P = some (width, value)) : FieldExact type S A P value := by
  have hsum : Int.ModEq (2 ^ 64) (u64 (S + A)) (S + A) := by
    apply (Int.modEq_iff_dvd.mpr _).symm
    exact ⟨-((S + A) / 2 ^ 64), by unfold u64; omega⟩
  have hdiff : Int.ModEq (2 ^ 64) (sub64 (u64 (S + A)) P) (u64 (S + A) - P) := by
    have hlt := u64_lt (S + A)
    apply (Int.modEq_iff_dvd.mpr _).symm
    unfold sub64 u64 at *
    by_cases hle : P ≤ (S + A) % 2 ^ 64
    · exact ⟨0, by omega⟩
    · exact ⟨1, by omega⟩
  rcases relocationField_cases h with ⟨rfl, -, hvalue⟩ | ⟨htype, -, hvalue, hfits⟩ |
    ⟨rfl, -, hvalue, -⟩ | ⟨rfl, -, hvalue, hfits⟩
  · exact ⟨by decide, fun _ => hvalue, fun h => by omega, fun h => by omega⟩
  · refine ⟨?_, fun h => by omega, fun h => by omega, fun _ => ?_⟩
    · rcases htype with rfl | rfl <;> decide
    · rw [hvalue]
      exact ((int32_u32 (u64_lt _) hfits).trans hdiff).trans (hsum.sub_right P)
  · exact ⟨by decide, fun _ => hvalue, fun h => by omega, fun h => by omega⟩
  · refine ⟨by decide, fun h => by omega, fun _ => ?_, fun h => by omega⟩
    rw [hvalue]
    exact (int32_u32 (u64_lt _) hfits).trans hsum

theorem eq_zero_of_fieldExact {type S A P value : ℕ} (hS : S < 2 ^ 64)
    (h : FieldExact type S A P value) (hzero : FieldExact type 0 A P value) : S = 0 := by
  have hcases : (type = 1 ∨ type = 10) ∨ type = 11 ∨ type = 2 ∨ type = 4 := by
    have hknown := h.known
    simp only [List.mem_cons, List.not_mem_nil, or_false] at hknown
    omega
  rcases hcases with htype | htype | htype
  · have hvalue := h.whole htype
    have hvalue' := hzero.whole htype
    omega
  · have hdvd := Int.modEq_iff_dvd.mp ((hzero.signed htype).symm.trans (h.signed htype))
    omega
  · have hdvd := Int.modEq_iff_dvd.mp ((hzero.relative htype).symm.trans (h.relative htype))
    omega

def Knows (k : LoaderKernel) (name : List Byte) (S : ℕ) : Prop :=
  ∃ s, some s ∈ k.symbolNameHash ∧ s.name = name ∧ S = k.address s

theorem knows_probe {name : List Byte} {probes idx : ℕ} (h : k.probe name probes idx ≠ 0) :
    Knows k name (k.probe name probes idx) := by
  induction probes generalizing idx with
  | zero => exact absurd rfl h
  | succ probes ih =>
    rw [LoaderKernel.probe] at h ⊢
    cases hentry : k.symbolNameHash.getD idx none with
    | none =>
      rw [hentry] at h
      exact absurd rfl h
    | some s =>
      rw [hentry] at h
      dsimp only at h ⊢
      split at h
      · next hname =>
        rw [if_pos hname]
        refine ⟨s, ?_, hname, rfl⟩
        rw [List.getD_eq_getElem?_getD] at hentry
        cases hget : k.symbolNameHash[idx]? with
        | none => rw [hget] at hentry; cases hentry
        | some e =>
          rw [hget] at hentry
          exact hentry ▸ List.mem_of_getElem? hget
      · next hname =>
        rw [if_neg hname]
        exact ih h

/-! ## A module that is loaded -/

variable (f)

def info (i : ℕ) : ℕ := f.value (f.table.header i) Shdr.info

/-- Entry `j` of section `i` is a relocation of a section that is placed. -/
def Entry (i j : ℕ) : Prop :=
  i < f.table.shnum ∧ f.value (f.table.header i) Shdr.type = 4 ∧ f.alloc f.table (f.info i) = true ∧
    j < f.relaCount f.table i

structure WellFormed : Prop where
  aligned : ∀ i < f.table.shnum, f.alloc f.table i = true →
    f.value (f.table.header i) Shdr.addralign = 0 ∨
      (f.value (f.table.header i) Shdr.addralign).isPowerOfTwo
  info : ∀ i < f.table.shnum, f.value (f.table.header i) Shdr.type = 4 → f.info i < f.table.shnum

variable (m)

/-- The field of an entry has the byte at `a`. -/
def EntryCovers (i j a : ℕ) : Prop := f.Covers (m.sectionBase (f.info i)) (f.relaAt f.table i j) a

def Last (i j : ℕ) : Prop :=
  ∀ i' j', f.Entry i' j' → i < i' ∨ (i = i' ∧ j < j') → ∀ a, f.EntryCovers m i j a →
    ¬ f.EntryCovers m i' j' a

def Untouched (a : ℕ) : Prop := ∀ i j, f.Entry i j → ¬ f.EntryCovers m i j a

def Placed (s : ℕ) : Prop :=
  f.value s Sym.shndx ≠ 0 ∧ f.value s Sym.shndx < 0xFF00 ∧ f.value s Sym.shndx < f.table.shnum ∧
    f.alloc f.table (f.value s Sym.shndx) = true

def SymbolIs (k : LoaderKernel) (s S : ℕ) : Prop :=
  (f.value s Sym.shndx = 0 ∧ Knows k (f.text (f.symbolName m s)) S) ∨
  (f.value s Sym.shndx = 0xFFF1 ∧ S = f.value s Sym.value) ∨
  (f.Placed s ∧ S = (m.sectionBase (f.value s Sym.shndx) + f.value s Sym.value) % 2 ^ 64)

def EntryExact (image : ℕ → Byte) (i j S : ℕ) : Prop :=
  FieldExact (u32 (f.value (f.relaAt f.table i j) Rela.info)) S
    (f.value (f.relaAt f.table i j) Rela.addend)
    (f.relaTarget (m.sectionBase (f.info i)) (f.relaAt f.table i j))
    (leValue image (f.relaTarget (m.sectionBase (f.info i)) (f.relaAt f.table i j))
      (f.relaWidth (f.relaAt f.table i j)))

def entrySymbol (i j : ℕ) : ℕ := f.relaSymbol m (f.relaAt f.table i j)

/-- The sections are apart from each other in the image and have their contents, and the relocations
have stored what they should. -/
structure Relocated (k : LoaderKernel) (image : ℕ → Byte) : Prop where
  inside : ∀ i < f.table.shnum, f.alloc f.table i = true →
    m.base ≤ m.sectionBase i ∧ m.sectionBase i + f.size f.table i ≤ m.base + m.size
  aligned : ∀ i < f.table.shnum, f.alloc f.table i = true → f.align f.table i ∣ m.sectionBase i
  disjoint : ∀ j < f.table.shnum, ∀ i < j, f.alloc f.table i = true → f.alloc f.table j = true →
    m.sectionBase i + f.size f.table i ≤ m.sectionBase j ∨
      m.sectionBase j + f.size f.table j ≤ m.sectionBase i
  contents : ∀ i < f.table.shnum, f.alloc f.table i = true → ∀ b < f.size f.table i,
    f.Untouched m (m.sectionBase i + b) → image (m.sectionBase i + b) =
      if f.value (f.table.header i) Shdr.type = 8 then 0
      else f.bytes.getD (f.value (f.table.header i) Shdr.offset + b) 0
  padding : ∀ a, (∀ i < f.table.shnum, f.alloc f.table i = true →
    ¬ (m.sectionBase i ≤ a ∧ a < m.sectionBase i + f.size f.table i)) →
      f.Untouched m a → image a = 0
  stored : ∀ i j, f.Entry i j → f.Last m i j → f.Symbolized m (f.relaAt f.table i j) →
    f.value (f.entrySymbol m i j) Sym.shndx = 0 ∨ f.value (f.entrySymbol m i j) Sym.shndx = 0xFFF1 ∨
      f.Placed (f.entrySymbol m i j) →
    ∃ S, f.SymbolIs m k (f.entrySymbol m i j) S ∧ f.EntryExact m image i j S
  known : ∀ i j, f.Entry i j → f.Symbolized m (f.relaAt f.table i j) →
    f.value (f.entrySymbol m i j) Sym.shndx = 0 →
    ∃ S, Knows k (f.text (f.symbolName m (f.entrySymbol m i j))) S

def AbsoluteZero : Prop :=
  ∀ i j, f.Entry i j → f.Last m i j → f.Symbolized m (f.relaAt f.table i j) →
    f.value (f.entrySymbol m i j) Sym.shndx = 0xFFF1 → f.value (f.entrySymbol m i j) Sym.value = 0

variable {f m}

theorem WellFormed.align (hf : f.WellFormed) (hi : i < f.table.shnum) :
    (f.align f.table i).isPowerOfTwo := by
  unfold ElfFile.align sectionAlign
  split
  · next halloc =>
    split
    · exact Nat.isPowerOfTwo_one
    · next hzero => exact (hf.aligned i hi halloc).resolve_left hzero
  · exact Nat.isPowerOfTwo_one

theorem WellFormed.maxAlign (hf : f.WellFormed) (hn : n ≤ f.table.shnum) :
    (f.maxAlign f.table n).isPowerOfTwo ∧ ∀ i < n, f.align f.table i ∣ f.maxAlign f.table n := by
  induction n with
  | zero => exact ⟨⟨4, rfl⟩, fun i hi => absurd hi (Nat.not_lt_zero i)⟩
  | succ n ih =>
    obtain ⟨⟨x, hx⟩, hdvd⟩ := ih (Nat.le_of_succ_le hn)
    obtain ⟨y, hy⟩ := hf.align hn
    have hle : ∀ {u v : ℕ}, u ≤ v → 2 ^ u ∣ 2 ^ v := fun h => Nat.pow_dvd_pow 2 h
    rw [ElfFile.maxAlign]
    rcases Nat.le_total x y with h | h
    · rw [max_eq_right (by rw [hx, hy]; exact Nat.pow_le_pow_right (by decide) h)]
      refine ⟨⟨y, hy⟩, fun i hi => ?_⟩
      by_cases hlast : i = n
      · rw [hlast]
      · exact (hdvd i (by omega)).trans (by rw [hx, hy]; exact hle h)
    · rw [max_eq_left (by rw [hx, hy]; exact Nat.pow_le_pow_right (by decide) h)]
      refine ⟨⟨x, hx⟩, fun i hi => ?_⟩
      by_cases hlast : i = n
      · rw [hlast, hx, hy]
        exact hle h
      · exact hdvd i (by omega)

theorem fits_of_apart (hf : f.WellFormed)
    (hinside : ∀ i < f.table.shnum, f.alloc f.table i = true →
      m.base ≤ m.sectionBase i ∧ m.sectionBase i + f.size f.table i ≤ m.base + f.imageSize f.table)
    (hdisjoint : ∀ j < f.table.shnum, ∀ i < j, f.alloc f.table i = true → f.alloc f.table j = true →
      m.sectionBase i + f.size f.table i ≤ m.sectionBase j ∨
        m.sectionBase j + f.size f.table j ≤ m.sectionBase i)
    (hbase : ∀ i < f.table.shnum, f.alloc f.table i = true →
      m.sectionBase i = u64 (m.base + f.offset f.table i)) :
    f.Fits f.table := by
  have halloc : ∀ {i}, 0 < f.size f.table i → f.alloc f.table i = true := by
    intro i hsize
    by_contra hnot
    rw [size, if_neg hnot] at hsize
    exact lt_irrefl 0 hsize
  apply layout_fits (fun i hi => ⟨hf.align hi, align_lt i⟩) ⟨(hf.maxAlign le_rfl).1, maxAlign_lt _⟩
  · intro i hi hsize
    obtain ⟨hlow, hhigh⟩ := hinside i hi (halloc hsize)
    have hoffset : f.offset f.table i < 2 ^ 64 := addressAlignUp_lt (total_lt i)
    rw [hbase i hi (halloc hsize)] at hlow hhigh
    rw [← imageSize_eq, ← offset_eq]
    have hcases : u64 (m.base + f.offset f.table i) = m.base + f.offset f.table i ∨
        u64 (m.base + f.offset f.table i) + 2 ^ 64 ≤ m.base + f.offset f.table i := by
      unfold u64
      omega
    omega
  · intro j hj i hij hi' hj' hzero hstart
    rw [← offset_eq] at hzero hstart
    have hapart := hdisjoint j hj i hij (halloc hi') (halloc hj')
    rw [hbase i (hij.trans hj) (halloc hi'), hbase j hj (halloc hj'), hzero, hstart] at hapart
    omega

/-! ## What the loader has done -/

theorem WellFormed.relocated_eq (hf : f.WellFormed) (hi : i < f.table.shnum)
    (htype : f.value (f.table.header i) Shdr.type = 4) : f.relocated f.table i = f.info i := by
  have hinfo := hf.info i hi htype
  have hlt : f.table.shnum < 2 ^ 16 := f.value_lt f.addr Ehdr.shnum
  exact Nat.mod_eq_of_lt (hinfo.trans hlt)

theorem WellFormed.relocates (hf : f.WellFormed) (h : f.Entry i j) : f.Relocates f.table i := by
  obtain ⟨hi, htype, halloc, -⟩ := h
  refine ⟨htype, ?_, ?_⟩
  · rw [hf.relocated_eq hi htype]
    exact hf.info i hi htype
  · rw [hf.relocated_eq hi htype]
    exact halloc

theorem WellFormed.entry (hf : f.WellFormed) (hi : i < f.table.shnum) (hrel : f.Relocates f.table i)
    (hj : j < f.relaCount f.table i) : f.Entry i j := by
  refine ⟨hi, hrel.1, ?_, hj⟩
  rw [← hf.relocated_eq hi hrel.1]
  exact hrel.2.2

theorem WellFormed.covers_iff (hf : f.WellFormed) (h : f.Entry i j) :
    f.Covers (f.relocatedBase f.table m i) (f.relaAt f.table i j) a ↔ f.EntryCovers m i j a := by
  rw [relocatedBase, hf.relocated_eq h.1 h.2.1]
  exact Iff.rfl

variable (f k) in
def loadedBytes : ℕ → Byte :=
  f.storeSections k f.table (f.module k) (f.placedBytes f.table (f.module k).base f.table.shnum)
    f.table.shnum

variable (f k) in
structure Loaded : Prop where
  placeable : f.Placeable k f.table
  request : blockRequest (f.imageSize f.table) (f.maxAlign f.table f.table.shnum) < 2 ^ 64
  contents : ∀ i < f.table.shnum, f.HasContents f.table (f.image k f.table) i
  applies : ∀ i < f.table.shnum, f.Applies k f.table (f.module k) i

theorem loaded (h : moduleLoad f k = .ok (m, image)) :
    f.Loaded k ∧ m = f.module k ∧ image = f.loadedBytes k := by
  obtain ⟨hsafe, haccepted, hplace, -, happlies⟩ := moduleLoad_follows.accepted h
  have hpost := moduleLoad_follows.post _ h
  refine ⟨⟨hplace, hsafe.request haccepted hplace, hsafe.contents haccepted hplace, happlies⟩, ?_,
    ?_⟩
  · exact (Prod.mk.inj hpost).1
  · exact (Prod.mk.inj hpost).2

theorem relocationAddress_entry (h : f.Symbolized m (f.relaAt f.table i j)) :
    f.relocationAddress k m (f.value (f.relaAt f.table i j) Rela.info / 2 ^ 32) =
      f.symbolAddress k m (f.entrySymbol m i j) :=
  if_pos h

theorem symbolAddress_absolute {s : ℕ} (h : f.value s Sym.shndx = 0xFFF1) :
    f.symbolAddress k m s = 0 := by
  unfold symbolAddress
  rw [h, if_neg (by decide), if_pos (by decide)]

namespace Loaded

theorem base_add_size_lt (h : f.Loaded k) : (f.module k).base + f.imageSize f.table < 2 ^ 64 :=
  ElfFile.base_add_size_lt h.placeable h.request

theorem base_pos (h : f.Loaded k) : 0 < (f.module k).base := by
  have hsize : f.imageSize f.table < 2 ^ 64 := addressAlignUp_lt (total_lt _)
  obtain ⟨⟨hstart, -⟩, -⟩ :=
    (alignedBlock_inside hsize (maxAlign_lt _) h.placeable.2.2).mpr h.request
  change 0 < alignedBlock k (f.imageSize f.table) (f.maxAlign f.table f.table.shnum)
  omega

theorem dvd_base (hf : f.WellFormed) (hi : i < f.table.shnum) :
    f.align f.table i ∣ (f.module k).base := by
  obtain ⟨⟨x, hx⟩, hdvd⟩ := hf.maxAlign le_rfl
  have hle := le_maxAlign (f := f) (t := f.table) f.table.shnum
  have hlt := maxAlign_lt (f := f) (t := f.table) f.table.shnum
  have hand := (Nat.and_sub_one_eq_zero_iff_isPowerOfTwo (by omega)).mpr (hf.maxAlign le_rfl).1
  have halign : kmallocAlign (f.maxAlign f.table f.table.shnum) = 2 ^ x := by
    unfold kmallocAlign
    rw [if_neg (by omega)]
    exact hx
  have hbase : (f.module k).base = alignUp (u64 (rawBlock k (f.imageSize f.table)
      (f.maxAlign f.table f.table.shnum) + 8)) (2 ^ x) := by
    rw [← halign]
    rfl
  apply (hdvd i hi).trans
  rw [hbase, alignUp_eq_u64 (by omega), hx]
  exact Nat.dvd_mul_right _ _

theorem sectionBase_eq (h : f.Loaded k) (hfits : f.Fits f.table) (hi : i < f.table.shnum)
    (halloc : f.alloc f.table i = true) :
    (f.module k).sectionBase i = (f.module k).base + f.offset f.table i := by
  rw [sectionBase_module, if_pos ⟨hi, halloc⟩, hfits.target h.base_add_size_lt hi]

theorem source_eq (h : f.Loaded k) (hi : i < f.table.shnum) (hcopied : f.Copied f.table i) :
    f.source f.table i = f.addr + f.value (f.table.header i) Shdr.offset := by
  obtain ⟨-, ⟨hlow, -⟩, -⟩ := (h.contents i hi hcopied.1).2 hcopied
  have hlt : f.value (f.table.header i) Shdr.offset < 2 ^ 64 := f.value_lt _ Shdr.offset
  unfold source at *
  unfold u64 at *
  omega

theorem loadedBytes_untouched (hf : f.WellFormed) (h : f.Untouched (f.module k) a) :
    f.loadedBytes k a = f.placedBytes f.table (f.module k).base f.table.shnum a := by
  apply storeSections_of_not_covers _ (Nat.zero_le _)
  intro i hi _ hrel j hj
  have hentry := hf.entry hi hrel hj
  rw [hf.covers_iff hentry]
  exact h i j hentry

/-- The field of an entry that no later one stores into is the one for the address that the loader
takes. -/
theorem entryExact (h : f.Loaded k) (hf : f.WellFormed) (hentry : f.Entry i j)
    (hlast : f.Last (f.module k) i j) :
    f.EntryExact (f.module k) (f.loadedBytes k) i j (f.relocationAddress k (f.module k)
      (f.value (f.relaAt f.table i j) Rela.info / 2 ^ 32)) := by
  have hrel := hf.relocates hentry
  have hbase : f.relocatedBase f.table (f.module k) i = (f.module k).sectionBase (f.info i) := by
    rw [relocatedBase, hf.relocated_eq hentry.1 hentry.2.1]
  obtain ⟨-, hfield⟩ := (h.applies i hentry.1 hrel).2 j hentry.2.2.2
  obtain ⟨⟨width, value⟩, hfield⟩ := Option.ne_none_iff_exists'.mp hfield
  have hlater : ∀ i' < f.table.shnum, ∀ j' < f.relaCount f.table i', f.Relocates f.table i' →
      i < i' ∨ (i = i' ∧ j < j') → ∀ a,
      f.Covers (f.relocatedBase f.table (f.module k) i) (f.relaAt f.table i j) a →
        ¬ f.Covers (f.relocatedBase f.table (f.module k) i') (f.relaAt f.table i' j') a := by
    intro i' hi' j' hj' hrel' hlater a hcovers
    have hentry' := hf.entry hi' hrel' hj'
    rw [hf.covers_iff hentry']
    exact hlast i' j' hentry' hlater a ((hf.covers_iff hentry).mp hcovers)
  have hstored : leValue (f.loadedBytes k)
      (f.relaTarget (f.relocatedBase f.table (f.module k) i) (f.relaAt f.table i j))
      (f.relaWidth (f.relaAt f.table i j)) = value :=
    leValue_storeSections hentry.1 hrel hentry.2.2.2 hfield hlater
  have hplace :
      f.relaTarget (f.relocatedBase f.table (f.module k) i) (f.relaAt f.table i j) < 2 ^ 64 :=
    u64_lt _
  unfold relaField at hfield
  have hexact := fieldExact_of_relocationField hplace hfield
  unfold EntryExact
  rw [← hbase, hstored]
  exact hexact

theorem symbolIs (h : f.Loaded k) (hfits : f.Fits f.table) {s : ℕ}
    (hresolved : f.Resolved k (f.module k) s)
    (hs : f.value s Sym.shndx = 0 ∨ (f.value s Sym.shndx = 0xFFF1 ∧ f.value s Sym.value = 0) ∨
      f.Placed s) :
    f.SymbolIs (f.module k) k s (f.symbolAddress k (f.module k) s) := by
  rcases hs with hundef | ⟨habs, hvalue⟩ | ⟨hshndx, hlow, hplaced, halloc⟩
  · left
    have hknown := hresolved hundef
    unfold symbolAddress at hknown ⊢
    rw [if_pos hundef] at hknown ⊢
    unfold kernelAddress at hknown ⊢
    split at hknown
    · exact absurd rfl hknown
    · next hnamed =>
      rw [if_neg hnamed]
      exact ⟨hundef, knows_probe hknown⟩
  · right
    left
    unfold symbolAddress
    rw [if_neg (by omega), if_pos (by omega), hvalue]
    exact ⟨habs, rfl⟩
  · right
    right
    have hbase := h.sectionBase_eq hfits hplaced halloc
    have hpos := h.base_pos
    unfold symbolAddress
    rw [if_neg hshndx, if_neg (by omega), if_neg (by omega)]
    exact ⟨⟨hshndx, hlow, hplaced, halloc⟩, rfl⟩

end Loaded

theorem Relocated.fits (h : f.Relocated (f.module k) k image) (hf : f.WellFormed) :
    f.Fits f.table := by
  apply fits_of_apart hf h.inside h.disjoint
  intro i hi halloc
  rw [sectionBase_module, if_pos ⟨hi, halloc⟩]
  rfl

theorem Relocated.absoluteZero (h : f.Relocated (f.module k) k (f.loadedBytes k))
    (hf : f.WellFormed) (hl : f.Loaded k) : f.AbsoluteZero (f.module k) := by
  intro i j hentry hlast hsymbol habs
  obtain ⟨S, hS, hexact⟩ := h.stored i j hentry hlast hsymbol (Or.inr (Or.inl habs))
  have hzero := hl.entryExact hf hentry hlast
  rw [relocationAddress_entry hsymbol, symbolAddress_absolute habs] at hzero
  have hvalue : S = f.value (f.entrySymbol (f.module k) i j) Sym.value := by
    rcases hS with ⟨hundef, -⟩ | ⟨-, hS⟩ | ⟨⟨-, hlow, -⟩, -⟩
    · omega
    · exact hS
    · omega
  rw [← hvalue]
  apply eq_zero_of_fieldExact _ hexact hzero
  rw [hvalue]
  exact f.value_lt _ Sym.value

theorem Loaded.relocated (hl : f.Loaded k) (hf : f.WellFormed) (hfits : f.Fits f.table)
    (habs : f.AbsoluteZero (f.module k)) : f.Relocated (f.module k) k (f.loadedBytes k) where
  inside i hi halloc := by
    have hle := hfits.offset_add_le hi
    have hsize : (f.module k).size = f.imageSize f.table := rfl
    rw [hl.sectionBase_eq hfits hi halloc]
    omega
  aligned i hi halloc := by
    rw [hl.sectionBase_eq hfits hi halloc]
    exact Nat.dvd_add (Loaded.dvd_base hf hi) (hfits.dvd_offset hi)
  disjoint j hj i hij hi' hj' := by
    have hle := hfits.offset_mono hj hij
    rw [hl.sectionBase_eq hfits (hij.trans hj) hi', hl.sectionBase_eq hfits hj hj']
    omega
  contents i hi halloc b hb huntouched := by
    rw [hl.sectionBase_eq hfits hi halloc] at huntouched ⊢
    rw [Loaded.loadedBytes_untouched hf huntouched,
      hfits.placedBytes hl.base_add_size_lt le_rfl hi halloc hb]
    split
    · rfl
    · next hbits =>
      have hsize : f.size f.table i = f.value (f.table.header i) Shdr.size := if_pos halloc
      rw [hl.source_eq hi ⟨halloc, hbits, by omega⟩, byte]
      congr 1
      omega
  padding a hnone huntouched := by
    rw [Loaded.loadedBytes_untouched hf huntouched]
    apply placedBytes_of_not_mem
    intro i hi halloc
    have hbase := sectionBase_module (f := f) (k := k) i
    rw [if_pos ⟨hi, halloc⟩] at hbase
    rw [← hbase]
    exact hnone i hi halloc
  stored i j hentry hlast hsymbol hkind := by
    obtain ⟨hresolved, -⟩ := (hl.applies i hentry.1 (hf.relocates hentry)).2 j hentry.2.2.2
    refine ⟨f.symbolAddress k (f.module k) (f.entrySymbol (f.module k) i j), ?_, ?_⟩
    · apply hl.symbolIs hfits (hresolved hsymbol)
      exact hkind.imp_right (Or.imp_left fun h => ⟨h, habs i j hentry hlast hsymbol h⟩)
    · have hexact := hl.entryExact hf hentry hlast
      rw [relocationAddress_entry hsymbol] at hexact
      exact hexact
  known i j hentry hsymbol hundef := by
    obtain ⟨hresolved, -⟩ := (hl.applies i hentry.1 (hf.relocates hentry)).2 j hentry.2.2.2
    rcases hl.symbolIs hfits (hresolved hsymbol) (Or.inl hundef) with ⟨-, hknows⟩ | ⟨habs, -⟩ |
      ⟨⟨hshndx, -⟩, -⟩
    · exact ⟨_, hknows⟩
    · change f.value (f.entrySymbol (f.module k) i j) Sym.shndx = 0xFFF1 at habs
      omega
    · exact absurd hundef hshndx

theorem absoluteZero_of_loads (hf : f.WellFormed) (h : moduleLoad f k = .ok (m, image))
    (hrelocated : f.Relocated m k image) : f.AbsoluteZero (f.module k) := by
  obtain ⟨hl, rfl, rfl⟩ := loaded h
  exact hrelocated.absoluteZero hf hl

/-- A module that has been loaded from a well-formed file is what it should be just if its sections
fit into 64 bits and the absolute symbols of its relocations are 0. -/
theorem relocated_iff (hf : f.WellFormed) (h : moduleLoad f k = .ok (m, image)) :
    f.Relocated m k image ↔ f.Fits f.table ∧ f.AbsoluteZero m := by
  obtain ⟨hl, rfl, rfl⟩ := loaded h
  constructor
  · exact fun hrelocated => ⟨hrelocated.fits hf, absoluteZero_of_loads hf h hrelocated⟩
  · exact fun ⟨hfits, habs⟩ => hl.relocated hf hfits habs

/-! ## A relocation with an absolute symbol -/

def fieldOf (n value : ℕ) : List Byte :=
  (List.range n).map fun i => BitVec.ofNat 8 (value / 2 ^ (8 * i))

def sectionHeader (type flags offset size link info addralign entsize : ℕ) : List Byte :=
  fieldOf 4 0 ++ fieldOf 4 type ++ fieldOf 8 flags ++ fieldOf 8 0 ++ fieldOf 8 offset ++
    fieldOf 8 size ++
    fieldOf 4 link ++ fieldOf 4 info ++ fieldOf 8 addralign ++ fieldOf 8 entsize

/-- A section of 8 bytes, and a relocation that stores the symbol of value `v` there. -/
def absoluteBytes (v : ℕ) : List Byte :=
  [0x7F, 0x45, 0x4C, 0x46, 2, 1, 1] ++ List.replicate 9 0 ++ fieldOf 2 1 ++ fieldOf 2
    62 ++ fieldOf 4 1 ++
    List.replicate 16 0 ++ fieldOf 8 64 ++ fieldOf 4 0 ++ fieldOf 2 64 ++ List.replicate 4 0 ++
    fieldOf 2 64 ++ fieldOf 2 5 ++ fieldOf 2 4 ++
    sectionHeader 0 0 0 0 0 0 0 0 ++ sectionHeader 1 3 384 8 0 0 8 0 ++
    sectionHeader 2 0 392 48 4 2 8 24 ++ sectionHeader 4 0 440 24 2 1 8 24 ++
    sectionHeader 3 0 464 1 0 0 1 0 ++
    List.replicate 8 0 ++
    List.replicate 24 0 ++ (fieldOf 6 0 ++ fieldOf 2 0xFFF1 ++ fieldOf 8 v ++ fieldOf 8 0) ++
    (fieldOf 8 0 ++ fieldOf 8 (2 ^ 32 + 1) ++ fieldOf 8 0) ++ [0]

theorem length_fieldOf (n value : ℕ) : (fieldOf n value).length = n := by
  rw [fieldOf, List.length_map, List.length_range]

theorem length_sectionHeader (type flags offset size link info addralign entsize : ℕ) :
    (sectionHeader type flags offset size link info addralign entsize).length = 64 := by
  simp [sectionHeader, length_fieldOf]

theorem absoluteBytes_fits (v : ℕ) : 0x1000 + (absoluteBytes v).length ≤ 2 ^ 64 := by
  have hlength : (absoluteBytes v).length = 465 := by
    unfold absoluteBytes
    simp only [List.length_append, length_fieldOf, List.length_replicate, length_sectionHeader]
    rfl
  omega

def absoluteFile (v : ℕ) : ElfFile :=
  ⟨0x1000, absoluteBytes v, headerAddr_pos, absoluteBytes_fits v⟩

theorem oneBlock_inside (n : ℕ) (h : (if n < 2 ^ 16 then 2 ^ 20 else 0) ≠ 0) :
    (if n < 2 ^ 16 then 2 ^ 20 else 0) + n < 2 ^ 64 := by
  by_cases hn : n < 2 ^ 16
  · rw [if_pos hn]
    omega
  · rw [if_neg hn] at h
    exact absurd rfl h

def oneBlockKernel : LoaderKernel where
  kmalloc n := if n < 2 ^ 16 then 2 ^ 20 else 0
  kmalloc_inside := oneBlock_inside
  hashmapSip _ := 0
  symbolNameHash := []
  findsymbolAddr := 0

theorem wellFormed_of_eight (h : ∀ i < f.table.shnum,
    (f.alloc f.table i = true → f.value (f.table.header i) Shdr.addralign = 2 ^ 3) ∧
      (f.value (f.table.header i) Shdr.type = 4 → f.info i < f.table.shnum)) : f.WellFormed where
  aligned i hi halloc := Or.inr ⟨3, (h i hi).1 halloc⟩
  info i hi := (h i hi).2

theorem relocated_iff_absoluteFile : ∃ m image,
    moduleLoad (absoluteFile 0) oneBlockKernel = .ok (m, image) ∧
      ((absoluteFile 0).Relocated m oneBlockKernel image ↔
        (absoluteFile 0).Fits (absoluteFile 0).table ∧ (absoluteFile 0).AbsoluteZero m) := by
  obtain ⟨⟨m, image⟩, h⟩ :=
    Guarded.exists_of_isOk (x := moduleLoad (absoluteFile 0) oneBlockKernel) (by decide +kernel)
  exact ⟨m, image, h, relocated_iff (wellFormed_of_eight (by decide +kernel)) h⟩

/-- The relocation of a symbol with the value 5 stores 0. -/
theorem not_relocated_absoluteFile : ¬ ∀ (f : ElfFile) (k : LoaderKernel) (m : ElfModule)
    (image : ℕ → Byte), f.WellFormed → moduleLoad f k = .ok (m, image) → f.Relocated m k image := by
  intro h
  have hf : (absoluteFile 5).WellFormed := wellFormed_of_eight (by decide +kernel)
  obtain ⟨⟨m, image⟩, hload⟩ :=
    Guarded.exists_of_isOk (x := moduleLoad (absoluteFile 5) oneBlockKernel) (by decide +kernel)
  have hzero := absoluteZero_of_loads hf hload (h _ _ _ _ hf hload)
  have hentry : ∀ i j, (absoluteFile 5).Entry i j → i = 3 ∧ j = 0 := by
    rintro i j ⟨hi, htype, -, hj⟩
    have honly : ∀ i < (absoluteFile 5).table.shnum,
        (absoluteFile 5).value ((absoluteFile 5).table.header i) Shdr.type = 4 →
          i = 3 ∧ (absoluteFile 5).relaCount (absoluteFile 5).table i = 1 := by decide +kernel
    obtain ⟨rfl, hcount⟩ := honly i hi htype
    omega
  have hvalue :=
    hzero 3 0 ⟨by decide +kernel, by decide +kernel, by decide +kernel, by decide +kernel⟩
    (fun i j h hlater => by have := hentry i j h; omega)
    (show Indexed _ _ by decide +kernel) (by decide +kernel)
  exact absurd hvalue (by decide +kernel)

end ElfFile

end RetroRocket
