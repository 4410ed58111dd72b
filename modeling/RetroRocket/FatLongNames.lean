import RetroRocket.FatDirectory

/-!
# Long names of FAT32 entries

`build_lfn_chain` of `lfn.c` against the parser: a long name is cut into slots of thirteen
characters, and the parser puts the slots together again in the order of their numbers, wherever
they lie.
-/

namespace RetroRocket

namespace Fat32

/-! ## `build_lfn_chain` -/

def lfnChecksum (shortName : List Byte) : Byte :=
  shortName.foldl (fun sum c => (if sum &&& 1 ≠ 0 then 0x80 else 0) + (sum >>> 1) + c) 0

/-- Character `n` of a field, zero behind the end of the name. -/
def ucs2 (filename : List Byte) (n : ℕ) : BitVec 16 :=
  if n < filename.length then (filename.getD n 0).signExtend 16 else 0

def halfOf (c : BitVec 16) (i : ℕ) : Byte := if i % 2 = 0 then c.setWidth 8 else
    (c >>> 8).setWidth 8

/-- `FILL_UCS2`: a field at byte `member` of the slot. -/
def fillUcs2 (filename : List Byte) (numberChars offset member : ℕ) (lfn : Entry) :
    Entry := fun i =>
  if offset < filename.length ∧ member ≤ i ∧ i < member + 2 * numberChars then
    halfOf (ucs2 filename ((i - member) / 2 + offset)) (i - member)
  else lfn i

def lfnSlot (checksum : Byte) (increment : ℕ) (filename : List Byte) : Entry :=
  let order := BitVec.ofNat 8 increment &&& ~~~attrLfnLastEntry
  let order := if filename.drop 13 = [] then order ||| attrLfnLastEntry else order
  let lfn : Entry := fun i =>
    if i = 0 then order else if i = 11 then attrLongName else if i = 13 then checksum else 0
  fillUcs2 filename 2 11 28 (fillUcs2 filename 6 5 14 (fillUcs2 filename 5 0 1 lfn))

def lfnSlots (checksum : Byte) : ℕ → ℕ → List Byte → List Entry
  | 0, _, _ => []
  | room + 1, increment, filename =>
    if filename = [] then []
    else lfnSlot checksum increment filename ::
      lfnSlots checksum room (increment + 1) (filename.drop 13)

/-- The short name and the slots. The string begins the memory, and what is read of it is read up to
its NUL. `none` for a list of entries that is `NULL`, and for a fault. -/
def buildLfnChain (mem : List Byte) (current : List Buffer) : Option (List Byte × List Entry) :=
  if current = [] then none
  else do
    let (short, _) ← makeShort mem current
    some (short, lfnSlots (lfnChecksum short) 64 1 (mem.takeWhile (· ≠ 0)))

/-- The short entry, which `fat32_internal_create_file` fills in. -/
def shortEntry (short : List Byte) (attributes : Byte) (behind : Buffer) : Entry := fun i =>
  if i < 11 then short.getD i 0 else if i = 11 then attributes else behind i

/-! ## The round trip -/

/-- The slots are made, they are numbered from one on with a flag on the last, all with the checksum
of the short entry, and the parser reads the name back from them in any order. -/
def RoundTrip (filename behind : List Byte) (existing : List Existing)
    (volumeName : Option (List Byte)) : Prop :=
  ∃ short slots,
    buildLfnChain (filename ++ 0 :: behind) (existing.map Existing.altFilename) = some
      (short, slots) ∧
    slots.length = (filename.length + 12) / 13 ∧
    (∀ i e, slots[i]? = some e → e.order =
      if i + 1 = slots.length then BitVec.ofNat 8 (i + 1) ||| attrLfnLastEntry
      else BitVec.ofNat 8 (i + 1)) ∧
    (∀ e ∈ slots, e.checksum = lfnChecksum short) ∧
    ∀ physical, physical.Perm slots → ∀ s : Parse, s.Settled → s.volumeName = volumeName →
      ∀ attributes, attributes = 0 ∨ attributes = attrDirectory → ∀ fields,
        ∃ file : FsDirectoryEntry, file.filename = filename ∧
          (parseEntries s (physical ++ [shortEntry short attributes fields])).list = file :: s.list

variable {filename letters mem : List Byte} {lfn : Entry} {checksum c : Byte}
  {i k n offset member numberChars increment room : ℕ}

/-! ## One slot -/

theorem halves_append (c : BitVec 16) :
    ((c >>> 8).setWidth 8 : Byte) ++ (c.setWidth 8 : Byte) = c := by
  apply BitVec.eq_of_toNat_eq
  rw [BitVec.toNat_append, BitVec.toNat_setWidth, BitVec.toNat_setWidth, BitVec.toNat_ushiftRight,
    Nat.shiftLeft_eq, Nat.shiftRight_eq_div_pow, ← Nat.shiftLeft_eq,
    ← Nat.shiftLeft_add_eq_or_of_lt (Nat.mod_lt _ (by decide)), Nat.shiftLeft_eq]
  have hlt := c.isLt
  omega

theorem fillUcs2_of_lt (h : i < member) :
    fillUcs2 filename numberChars offset member lfn i = lfn i := by
  unfold fillUcs2
  rw [if_neg (by omega)]

theorem fillUcs2_of_le (h : member + 2 * numberChars ≤ i) :
    fillUcs2 filename numberChars offset member lfn i = lfn i := by
  unfold fillUcs2
  rw [if_neg (by omega)]

theorem word_fillUcs2 (hk : k < numberChars) (hzero : ∀ i < 2 * numberChars, lfn (member + i) = 0) :
    word (fillUcs2 filename numberChars offset member lfn) (member + 2 * k) =
      ucs2 filename (k + offset) := by
  unfold word fillUcs2
  by_cases hoff : offset < filename.length
  · have hodd : (member + 2 * k + 1 - member) % 2 = 1 := by omega
    have heven : (member + 2 * k - member) % 2 = 0 := by omega
    have hdiv : (member + 2 * k + 1 - member) / 2 = k := by omega
    have hdiv' : (member + 2 * k - member) / 2 = k := by omega
    rw [if_pos ⟨hoff, by omega, by omega⟩, if_pos ⟨hoff, by omega, by omega⟩, hdiv, hdiv']
    unfold halfOf
    rw [if_neg (by omega), if_pos heven]
    exact halves_append _
  · have hucs : ucs2 filename (k + offset) = 0 := by
      unfold ucs2
      exact if_neg (by omega)
    rw [if_neg fun h => hoff h.1, if_neg fun h => hoff h.1, hucs, hzero _ (by omega), add_assoc,
      hzero _ (by omega)]
    rfl

theorem wideChars_fillUcs2 (hzero : ∀ i < 2 * numberChars, lfn (member + i) = 0) :
    wideChars (fillUcs2 filename numberChars offset member lfn) member numberChars =
      (List.range numberChars).map fun k => ucs2 filename (k + offset) := by
  unfold wideChars
  exact List.map_congr_left fun k hk => word_fillUcs2 (List.mem_range.mp hk) hzero

theorem wideChars_congr {e e' : Entry} (h : ∀ i, member ≤ i → i < member + 2 * n → e i = e' i) :
    wideChars e member n = wideChars e' member n := by
  unfold wideChars
  refine List.map_congr_left fun k hk => ?_
  have hlt := List.mem_range.mp hk
  unfold word
  rw [h _ (by omega) (by omega), h _ (by omega) (by omega)]

def emptySlot (checksum : Byte) (increment : ℕ) (filename : List Byte) : Entry := fun i =>
  if i = 0 then
    if filename.drop 13 = [] then
      (BitVec.ofNat 8 increment &&& ~~~attrLfnLastEntry) ||| attrLfnLastEntry
    else BitVec.ofNat 8 increment &&& ~~~attrLfnLastEntry
  else if i = 11 then attrLongName else if i = 13 then checksum else 0

theorem lfnSlot_eq : lfnSlot checksum increment filename = fillUcs2 filename 2 11 28
    (fillUcs2 filename 6 5 14 (fillUcs2 filename 5 0 1 (emptySlot checksum increment filename))) :=
  rfl

theorem emptySlot_eq_zero (h : i ≠ 0) (h' : i ≠ 11) (h'' : i ≠ 13) :
    emptySlot checksum increment filename i = 0 := by
  unfold emptySlot
  rw [if_neg h, if_neg h', if_neg h'']

theorem first_lfnSlot : (lfnSlot checksum increment filename).first =
    (List.range 5).map fun k => ucs2 filename (k + 0) := by
  unfold Entry.first
  have hzero : ∀ i < 2 * 5, emptySlot checksum increment filename (1 + i) = 0 :=
    fun i hi => emptySlot_eq_zero (by omega) (by omega) (by omega)
  rw [← wideChars_fillUcs2 hzero, lfnSlot_eq]
  apply wideChars_congr
  intro i hge hlt
  rw [fillUcs2_of_lt (by omega), fillUcs2_of_lt (by omega)]

theorem second_lfnSlot : (lfnSlot checksum increment filename).second =
    (List.range 6).map fun k => ucs2 filename (k + 5) := by
  unfold Entry.second
  have hzero : ∀ i < 2 * 6,
      fillUcs2 filename 5 0 1 (emptySlot checksum increment filename) (14 + i) = 0 := by
    intro i hi
    rw [fillUcs2_of_le (by omega)]
    exact emptySlot_eq_zero (by omega) (by omega) (by omega)
  rw [← wideChars_fillUcs2 hzero, lfnSlot_eq]
  apply wideChars_congr
  intro i hge hlt
  rw [fillUcs2_of_lt (by omega)]

theorem third_lfnSlot : (lfnSlot checksum increment filename).third =
    (List.range 2).map fun k => ucs2 filename (k + 11) := by
  unfold Entry.third
  rw [lfnSlot_eq]
  apply wideChars_fillUcs2
  intro i hi
  rw [fillUcs2_of_le (by omega), fillUcs2_of_le (by omega)]
  exact emptySlot_eq_zero (by omega) (by omega) (by omega)

theorem lfnSlot_eq_emptySlot (h : i = 0 ∨ i = 11 ∨ i = 13) :
    lfnSlot checksum increment filename i = emptySlot checksum increment filename i := by
  rw [lfnSlot_eq, fillUcs2_of_lt (by omega), fillUcs2_of_lt (by omega)]
  rcases h with rfl | h
  · exact fillUcs2_of_lt Nat.zero_lt_one
  · exact fillUcs2_of_le (by omega)

def Ascii (filename : List Byte) : Prop := ∀ c ∈ filename, c ≠ 0 ∧ c < 0x80

theorem signExtend_of_ascii (h : c ≠ 0 ∧ c < 0x80) : c.signExtend 16 ≠ 0 ∧
    c.signExtend 16 ≠ 0xffff ∧ c.signExtend 16 < 0x80 ∧ (c.signExtend 16).setWidth 8 = c := by
  revert h
  revert c
  decide

theorem parseShittyLfnEntry_ucs2 (h : Ascii filename) (n : ℕ) :
    parseShittyLfnEntry ((List.range n).map fun k => ucs2 filename k) = filename.take n := by
  induction n with
  | zero => rfl
  | succ n ih =>
    rw [List.range_succ, List.map_append, List.take_add_one]
    unfold parseShittyLfnEntry at ih ⊢
    rw [List.filterMap_append, ih]
    congr 1
    unfold ucs2
    by_cases hn : n < filename.length
    · obtain ⟨hzero, hff, hlt, hwidth⟩ := signExtend_of_ascii (h _ (List.getElem_mem hn))
      rw [List.getElem?_eq_getElem hn, List.map_singleton, if_pos hn, List.getD_eq_getElem _ _ hn,
        List.filterMap_cons, if_pos ⟨hzero, hff⟩, if_pos hlt, hwidth]
      rfl
    · rw [List.getElem?_eq_none (not_lt.mp hn), List.map_singleton, if_neg hn]
      rfl

theorem slotName_lfnSlot (h : Ascii filename) :
    slotName (lfnSlot checksum increment filename) = filename.take 13 := by
  have hall : parseShittyLfnEntry (lfnSlot checksum increment filename).first ++
      parseShittyLfnEntry (lfnSlot checksum increment filename).second ++
      parseShittyLfnEntry (lfnSlot checksum increment filename).third = filename.take 13 := by
    rw [first_lfnSlot, second_lfnSlot, third_lfnSlot, ← parseShittyLfnEntry_ucs2 h 13]
    unfold parseShittyLfnEntry
    rw [← List.filterMap_append, ← List.filterMap_append]
    rfl
  unfold slotName
  rw [hall, first_lfnSlot]
  split
  · next hskip =>
    cases filename with
    | nil => rfl
    | cons c rest =>
      obtain ⟨hne, hne', -⟩ := signExtend_of_ascii (h c List.mem_cons_self)
      exact (hskip.elim (fun heq => hne (Option.some.inj heq))
        fun heq => hne' (Option.some.inj heq)).elim
  · rfl

/-! ## The chain -/

theorem order_lfnSlot (h : increment < 64) : (lfnSlot checksum increment filename).order =
    if filename.length ≤ 13 then BitVec.ofNat 8 increment ||| attrLfnLastEntry
    else BitVec.ofNat 8 increment := by
  have hclear : ∀ k < 64, BitVec.ofNat 8 k &&& ~~~attrLfnLastEntry = BitVec.ofNat 8 k := by decide
  unfold Entry.order
  rw [lfnSlot_eq_emptySlot (Or.inl rfl)]
  unfold emptySlot
  rw [if_pos rfl, hclear increment h]
  exact if_congr List.drop_eq_nil_iff rfl rfl

theorem index_lfnSlot (h : increment < 32) :
    (lfnSlot checksum increment filename).index = increment := by
  have hlast : ∀ k < 32, ((BitVec.ofNat 8 k ||| attrLfnLastEntry) &&& 0x1f).toNat = k := by decide
  have hother : ∀ k < 32, (BitVec.ofNat 8 k &&& 0x1f).toNat = k := by decide
  unfold Entry.index
  rw [order_lfnSlot (by omega)]
  split
  · exact hlast increment h
  · exact hother increment h

theorem isSlot_lfnSlot (hpos : 0 < increment) (h : increment < 32) :
    (lfnSlot checksum increment filename).IsSlot := by
  have hlast : ∀ k < 32, 0 < k → BitVec.ofNat 8 k ||| attrLfnLastEntry ≠ 0 ∧
      BitVec.ofNat 8 k ||| attrLfnLastEntry ≠ deletedEntry ∧
      BitVec.ofNat 8 k ||| attrLfnLastEntry ≠ dot := by decide
  have hother : ∀ k < 32, 0 < k → BitVec.ofNat 8 k ≠ 0 ∧ BitVec.ofNat 8 k ≠ deletedEntry ∧
      BitVec.ofNat 8 k ≠ dot := by decide
  have horder : (lfnSlot checksum increment filename).order ≠ 0 ∧
      (lfnSlot checksum increment filename).order ≠ deletedEntry ∧
      (lfnSlot checksum increment filename).order ≠ dot := by
    rw [order_lfnSlot (by omega)]
    split
    · exact hlast increment h hpos
    · exact hother increment h hpos
  refine ⟨horder.1, horder.2.1, ?_, ?_, ?_⟩
  · exact decide_eq_false fun hdot => horder.2.2 hdot.1
  · exact lfnSlot_eq_emptySlot (Or.inr (Or.inl rfl))
  · rwa [index_lfnSlot h]

/-- Slot `j` of a name, which begins at character `13 * j`. -/
def slot (checksum : Byte) (filename : List Byte) (j : ℕ) : Entry :=
  lfnSlot checksum (j + 1) (filename.drop (13 * j))

theorem lfnSlots_eq (h : filename.length ≤ 13 * room) : lfnSlots checksum room increment filename =
    (List.range ((filename.length + 12) / 13)).map fun j =>
      lfnSlot checksum (increment + j) (filename.drop (13 * j)) := by
  induction room generalizing increment filename with
  | zero =>
    rw [List.length_eq_zero_iff.mp (Nat.le_zero.mp h)]
    rfl
  | succ room ih =>
    unfold lfnSlots
    split
    · next hnil =>
      rw [hnil]
      rfl
    · next hnil =>
      have hpos := List.length_pos_iff.mpr hnil
      have hdrop : (filename.drop 13).length = filename.length - 13 := List.length_drop
      have hcount : (filename.length + 12) / 13 = ((filename.drop 13).length + 12) / 13 + 1 := by
        omega
      rw [ih (by omega), hcount, List.range_succ_eq_map, List.map_cons, List.map_map]
      congr 1
      refine List.map_congr_left fun j _ => ?_
      have hsucc : 13 * (j + 1) = 13 + 13 * j := by omega
      rw [Function.comp_apply, List.drop_drop, Nat.succ_eq_add_one, hsucc, add_assoc, add_comm 1 j]

theorem flatMap_take_drop (filename : List Byte) (n : ℕ) :
    ((List.range n).flatMap fun j => (filename.drop (13 * j)).take 13) = filename.take
    (13 * n) := by
  induction n with
  | zero => rfl
  | succ n ih =>
    rw [List.range_succ, List.flatMap_append, ih, List.flatMap_singleton,
      Nat.mul_succ, List.take_add]

/-- The entries are `k` slots of the name from slot `m` on. -/
structure SlotsFrom (checksum : Byte) (filename : List Byte) (m k : ℕ) (l : List Entry) : Prop where
  mem_iff : ∀ e, e ∈ l ↔ ∃ j < k, slot checksum filename (m + j) = e
  index : ∀ j < k, (slot checksum filename (m + j)).index = m + j + 1
  isSlot : ∀ e ∈ l, e.IsSlot
  nodup : (l.map Entry.index).Nodup

variable {s : Parse} {m : ℕ} {l : List Entry}

theorem slotsFrom_of_perm (hle : m + k < 32)
    (hl : l.Perm ((List.range k).map fun j => slot checksum filename (m + j))) :
    SlotsFrom checksum filename m k l := by
  have hmem : ∀ e, e ∈ l ↔ ∃ j < k, slot checksum filename (m + j) = e := by
    intro e
    rw [hl.mem_iff, List.mem_map]
    exact exists_congr fun j => and_congr_left fun _ => List.mem_range
  have hindex : ∀ j < k, (slot checksum filename (m + j)).index = m + j + 1 :=
    fun j hj => index_lfnSlot (by omega)
  refine ⟨hmem, hindex, fun e he => ?_, (hl.map Entry.index).nodup_iff.mpr ?_⟩
  · obtain ⟨j, hj, rfl⟩ := (hmem e).mp he
    exact isSlot_lfnSlot (by omega) (by omega)
  · rw [List.map_map]
    refine List.Nodup.map_on (fun i hi j hj heq => ?_) List.nodup_range
    have hi' := hindex i (List.mem_range.mp hi)
    have hj' := hindex j (List.mem_range.mp hj)
    rw [Function.comp_apply, Function.comp_apply, hi', hj'] at heq
    omega

theorem slotName_zero : slotName (fun _ => 0) = [] := rfl

namespace SlotsFrom

theorem highest (hl : SlotsFrom checksum filename m k l) (hs : s.Settled) (hk : 0 < k) :
    (l.foldl Parse.stash s).highestLfnOrder = (m + k : ℕ) := by
  apply le_antisymm
  · rw [foldl_stash_highest_le hl.isSlot, hs.1]
    refine ⟨by omega, fun e he => ?_⟩
    obtain ⟨j, hj, rfl⟩ := (hl.mem_iff e).mp he
    rw [hl.index j hj]
    omega
  · have hlast := ((foldl_stash_highest_le (s := s) hl.isSlot _).mp le_rfl).2 _
      ((hl.mem_iff _).mpr ⟨k - 1, by omega, rfl⟩)
    rw [hl.index (k - 1) (by omega)] at hlast
    have hadd : m + (k - 1) + 1 = m + k := by omega
    rwa [hadd] at hlast

theorem longName_eq (hl : SlotsFrom checksum filename m k l) (hs : s.Settled) (h : Ascii filename) :
    longName (l.foldl Parse.stash s).lfns (m + k : ℕ) =
      (filename.drop (13 * m)).take (13 * k) := by
  have hbefore : ∀ i < m, slotName ((l.foldl Parse.stash s).lfns (1 + i)) = [] := by
    intro i hi
    rw [foldl_stash_lfns_of_ne, hs.2]
    · exact slotName_zero
    · intro e he
      obtain ⟨j, hj, rfl⟩ := (hl.mem_iff e).mp he
      rw [hl.index j hj]
      omega
  have hat : ∀ j < k, slotName ((l.foldl Parse.stash s).lfns (1 + (m + j))) =
      ((filename.drop (13 * m)).drop (13 * j)).take 13 := by
    intro j hj
    have hadd : 1 + (m + j) = m + j + 1 := by omega
    rw [hadd, ← hl.index j hj,
      foldl_stash_lfns hl.isSlot hl.nodup ((hl.mem_iff _).mpr ⟨j, hj, rfl⟩)]
    unfold slot
    rw [slotName_lfnSlot fun c hc => h c (List.mem_of_mem_drop hc), List.drop_drop, Nat.mul_add]
  have hnil : ((List.range m).flatMap fun i => slotName ((l.foldl Parse.stash s).lfns (1 + i))) =
      [] := by
    rw [List.flatMap_eq_nil_iff]
    exact fun i hi => hbefore i (List.mem_range.mp hi)
  unfold longName
  rw [Int.toNat_natCast, List.range'_eq_map_range, List.flatMap_map, List.range_add,
    List.flatMap_append, List.flatMap_map, ← flatMap_take_drop, hnil, List.nil_append]
  exact List.flatMap_congr fun j hj => hat j (List.mem_range.mp hj)

end SlotsFrom

/-! ## The name that is read back -/

def slotCount (filename : List Byte) : ℕ := (filename.length + 12) / 13

theorem lfnSlots_eq_map (h : filename.length ≤ 255) : lfnSlots checksum 64 1 filename =
    (List.range (slotCount filename)).map (slot checksum filename) := by
  rw [lfnSlots_eq (by omega)]
  refine List.map_congr_left fun j _ => ?_
  unfold slot
  rw [add_comm 1 j]

theorem parseEntries_short {e : Entry} (he : e.IsShort) :
    (parseEntries s [e]).list = fileOf
      (if -1 < s.highestLfnOrder then longName s.lfns s.highestLfnOrder else parseShortName e) e ::
        s.list := by
  rw [parseEntries, if_neg he.ne_zero, parseEntry_short he, parseEntries, addFile_list]

theorem parseEntries_from {e : Entry} (h : Ascii filename) (he : e.IsShort) (hs : s.Settled)
    (hv : s.volumeName ≠ none) (hk : 0 < k) (hl : SlotsFrom checksum filename m k l) :
    (parseEntries s (l ++ [e])).list =
      fileOf ((filename.drop (13 * m)).take (13 * k)) e :: s.list := by
  rw [parseEntries_slots hl.isSlot hv, parseEntries_short he, hl.highest hs hk, hl.longName_eq hs h,
    foldl_stash_list, if_pos (by omega)]

theorem parseEntries_chain {e : Entry} (h : Ascii filename) (hne : filename ≠ [])
    (hlen : filename.length ≤ 255) (he : e.IsShort) (hs : s.Settled) (hv : s.volumeName ≠ none)
    (hl : l.Perm (lfnSlots checksum 64 1 filename)) :
    (parseEntries s (l ++ [e])).list = fileOf filename e :: s.list := by
  have hpos := List.length_pos_iff.mpr hne
  rw [lfnSlots_eq_map hlen] at hl
  have hcount : 0 < slotCount filename ∧ slotCount filename < 32 ∧
      filename.length ≤ 13 * slotCount filename := by
    unfold slotCount
    omega
  obtain ⟨hk, hlt, hcover⟩ := hcount
  have hslots : SlotsFrom checksum filename 0 (slotCount filename) l := by
    refine slotsFrom_of_perm (by omega) ?_
    simpa only [Nat.zero_add] using hl
  rw [parseEntries_from h he hs hv hk hslots, Nat.mul_zero, List.drop_zero,
    List.take_of_length_le hcover]

theorem parseEntries_unlabelled {e : Entry} (h : Ascii filename) (hne : filename ≠ [])
    (hlen : filename.length ≤ 255) (he : e.IsShort) (hv : s.volumeName = none) :
    (parseEntries s (lfnSlots checksum 64 1 filename ++ [e])).list =
      fileOf (if filename.length ≤ 13 then parseShortName e else filename.drop 13) e :: s.list := by
  have hpos := List.length_pos_iff.mpr hne
  have hcount : slotCount filename = slotCount filename - 1 + 1 := by
    unfold slotCount
    omega
  have hslot : (slot checksum filename 0).IsSlot := isSlot_lfnSlot (by omega) (by omega)
  rw [lfnSlots_eq_map hlen, hcount, List.range_succ_eq_map, List.map_cons, List.map_map,
    List.cons_append, parseEntries, if_neg hslot.ne_zero, parseEntry_label hslot hv]
  by_cases hone : filename.length ≤ 13
  · have hzero : slotCount filename - 1 = 0 := by
      unfold slotCount
      omega
    rw [hzero, List.range_zero, List.map_nil, List.nil_append, parseEntries_short he, if_pos hone]
    rfl
  · have hmany : 0 < slotCount filename - 1 ∧ 1 + (slotCount filename - 1) < 32 ∧
        filename.length - 13 ≤ 13 * (slotCount filename - 1) := by
      unfold slotCount
      omega
    obtain ⟨hk, hlt, hcover⟩ := hmany
    have hslots : SlotsFrom checksum filename 1 (slotCount filename - 1)
        ((List.range (slotCount filename - 1)).map (slot checksum filename ∘ Nat.succ)) := by
      refine slotsFrom_of_perm hlt (List.Perm.of_eq (List.map_congr_left fun j _ => ?_))
      rw [Function.comp_apply, Nat.succ_eq_add_one, add_comm j 1]
    rw [parseEntries_from h he ⟨rfl, rfl⟩ (Option.some_ne_none _) hk hslots,
      if_neg hone, Nat.mul_one,
      List.take_of_length_le (by rwa [List.length_drop])]
    rfl

/-! ## The short entry -/

theorem isShort_shortEntry {attributes : Byte} {behind : Buffer}
    (hattr : attributes = 0 ∨ attributes = attrDirectory) (hlen : letters.length = 6)
    (hlegal : ∀ c ∈ letters, legalChar c = true) :
    (shortEntry (candidate letters 1 space) attributes behind).IsShort := by
  have hchar : ∀ c : Byte, legalChar c = true → c ≠ 0 ∧ c ≠ deletedEntry ∧ c ≠ dot := by decide
  have hfirst : shortEntry (candidate letters 1 space) attributes behind 0 ∈ letters := by
    cases letters with
    | nil => cases hlen
    | cons c letters => exact List.mem_cons_self
  obtain ⟨hzero, hdeleted, hdot⟩ := hchar _ (hlegal _ hfirst)
  refine ⟨hzero, hdeleted, hdot, ?_⟩
  change attributes &&& attrVolumeId = 0
  rcases hattr with rfl | rfl <;> decide

theorem cString_eq_of_getD {f : Buffer} {l : List Byte} (hlen : l.length = n)
    (hl : ∀ i < n, f i = l.getD i 0) (hzero : (0 : Byte) ∉ l) : cString f n = l := by
  induction n generalizing f l with
  | zero =>
    rw [List.length_eq_zero_iff.mp hlen]
    rfl
  | succ n ih =>
    cases l with
    | nil => cases hlen
    | cons c l =>
      have hc : f 0 = c := hl 0 (Nat.succ_pos _)
      have hne : ¬ c = 0 := fun h => hzero (h ▸ List.mem_cons_self)
      have hrest : ∀ i < n, f (i + 1) = l.getD i 0 := fun i hi => hl (i + 1) (Nat.succ_lt_succ hi)
      rw [cString, hc, if_neg hne, ih (Nat.succ.inj hlen) hrest fun h =>
        hzero (List.mem_cons_of_mem c h)]

theorem parseShortName_shortEntry {attributes : Byte} {behind : Buffer} (hlen : letters.length = 6)
    (h : ∀ c ∈ letters, c ≠ 0 ∧ c ≠ space) :
    parseShortName (shortEntry (candidate letters 1 space) attributes behind) =
      letters ++ [tilde, 0x30, dot, 0x31] := by
  have hdigits : ∀ c ∈ [tilde, 0x30, dot, (0x31 : Byte)], c ≠ 0 ∧ c ≠ space := by decide
  have hentry : ∀ i < 11, shortEntry (candidate letters 1 space) attributes behind i =
      (candidate letters 1 space).getD i 0 := fun i hi => if_pos hi
  have hbase : ∀ c ∈ letters ++ [tilde, 0x30], c ≠ 0 ∧ c ≠ space := by
    intro c hc
    rcases List.mem_append.mp hc with hc | hc
    · exact h c hc
    · exact hdigits c (List.mem_append_left [dot, 0x31] hc)
  have hbaseLen : (letters ++ [tilde, 0x30]).length = 8 := by
    rw [List.length_append, hlen]
    rfl
  have hsplit : candidate letters 1 space = letters ++ [tilde, 0x30] ++ [0x31, space, space] := by
    unfold candidate
    rw [List.append_assoc]
    rfl
  have hname : cString (shortEntry (candidate letters 1 space) attributes behind) 8 =
      letters ++ [tilde, 0x30] := by
    refine cString_eq_of_getD hbaseLen (fun i hi => ?_) fun hmem => (hbase 0 hmem).1 rfl
    rw [hentry i (by omega), hsplit, List.getD_append _ _ _ _ (by rwa [hbaseLen])]
  have hext :
    cString (fun i => shortEntry (candidate letters 1 space) attributes behind (8 + i)) 3 =
      [0x31, space, space] := by
    refine cString_eq_of_getD rfl (fun i hi => ?_) (by decide)
    rw [hentry _ (by omega), hsplit, List.getD_append_right _ _ _ _ (by omega), hbaseLen,
      Nat.add_sub_cancel_left]
  have hspace : ∀ c ∈ letters ++ [tilde, 0x30], decide (c ≠ space) = true :=
    fun c hc => decide_eq_true (hbase c hc).2
  have hcut : (letters ++ [tilde, 0x30]).takeWhile (· ≠ space) = letters ++ [tilde, 0x30] :=
    List.takeWhile_eq_self_iff.mpr hspace
  have hdotted : (letters ++ [tilde, 0x30] ++ [dot]).length = 9 := by
    rw [List.length_append, hbaseLen]
    rfl
  have hlast : (letters ++ [tilde, 0x30, dot, 0x31]).getLast? = some 0x31 :=
    List.getLast?_append_of_ne_nil _ (List.cons_ne_nil _ _)
  unfold parseShortName
  dsimp only
  rw [hname, hcut, hdotted, hext, List.append_assoc, List.takeWhile_append_of_pos hspace,
    List.append_assoc]
  change (if (letters ++ [tilde, 0x30, dot, 0x31]).getLast? = some dot then _ else
    letters ++ [tilde, 0x30, dot, 0x31]) = _
  rw [hlast, if_neg (by decide)]

/-! ## The claim of the chain -/

theorem chain_order (hlen : filename.length ≤ 255) {e : Entry}
    (he : (lfnSlots checksum 64 1 filename)[i]? = some e) :
    e.order = if i + 1 = (lfnSlots checksum 64 1 filename).length then
      BitVec.ofNat 8 (i + 1) ||| attrLfnLastEntry else BitVec.ofNat 8 (i + 1) := by
  rw [lfnSlots_eq_map hlen] at he ⊢
  rw [List.length_map, List.length_range]
  have hi : i < slotCount filename := by
    have hlt := (List.getElem?_eq_some_iff.mp he).1
    rwa [List.length_map, List.length_range] at hlt
  rw [List.getElem?_map, List.getElem?_range hi] at he
  cases he
  have hsmall : i + 1 < 64 := by
    unfold slotCount at hi
    omega
  unfold slot
  rw [order_lfnSlot hsmall, List.length_drop]
  refine if_congr ?_ rfl rfl
  unfold slotCount at hi ⊢
  omega

theorem chain_checksum {e : Entry} (hlen : filename.length ≤ 255)
    (he : e ∈ lfnSlots checksum 64 1 filename) : e.checksum = checksum := by
  rw [lfnSlots_eq_map hlen] at he
  obtain ⟨j, -, rfl⟩ := List.mem_map.mp he
  exact lfnSlot_eq_emptySlot (Or.inr (Or.inr rfl))

variable {behind : List Byte} {existing : List Existing} {volumeName : Option (List Byte)}

theorem takeWhile_name (h : Ascii filename) (behind : List Byte) :
    (filename ++ 0 :: behind).takeWhile (· ≠ 0) = filename := by
  rw [List.takeWhile_append_of_pos fun c hc => decide_eq_true (h c hc).1,
    List.takeWhile_cons_of_neg (by decide), List.append_nil]

theorem buildLfnChain_eq {read : ℕ} (h : Ascii filename) (hex : existing ≠ [])
    (hfirst : firstAlnums 6 (filename ++ 0 :: behind) = some (letters, read)) :
    buildLfnChain (filename ++ 0 :: behind) (existing.map Existing.altFilename) =
      some (candidate letters 1 space,
        lfnSlots (lfnChecksum (candidate letters 1 space)) 64 1 filename) := by
  unfold buildLfnChain
  rw [if_neg (by rwa [List.map_eq_nil_iff]), (makeShort_eq hfirst existing).1, takeWhile_name h]
  rfl

/-- Without an entry in the directory, or without six letters and digits to read, there is no
chain. -/
theorem exists_of_buildLfnChain {r : List Byte × List Entry}
    (h : buildLfnChain mem (existing.map Existing.altFilename) = some r) :
    existing ≠ [] ∧ 6 ≤ (mem.filter isalnum).length := by
  unfold buildLfnChain at h
  split at h
  · cases h
  · next hex =>
    obtain ⟨short, hshort, -⟩ := Option.bind_eq_some_iff.mp h
    obtain ⟨⟨letters, read⟩, hfirst, -⟩ := Option.bind_eq_some_iff.mp hshort
    obtain ⟨-, hletters, hlen⟩ := firstAlnums_spec hfirst
    refine ⟨fun hnil => hex (by rw [hnil, List.map_nil]), ?_⟩
    rw [hletters, List.length_map] at hlen
    rw [← hlen]
    exact ((List.take_sublist read mem).filter isalnum).length_le

/-- `ABCDEF~0.1`, which is also what the parser makes of the short name. -/
def SameShortName (filename : List Byte) : Prop :=
  ∃ letters : List Byte, letters.length = 6 ∧ (∀ c ∈ letters, isalnum c = true ∧ toupper c = c) ∧
    filename = letters ++ [tilde, 0x30, dot, 0x31]

/-- The letters that `make_short` takes. -/
structure ShortLetters (letters : List Byte) : Prop where
  length : letters.length = 6
  alnum : ∀ c ∈ letters, isalnum c = true ∧ toupper c = c
  legal : ∀ c ∈ letters, legalChar c = true
  text : ∀ c ∈ letters, c ≠ 0 ∧ c ≠ space

theorem shortLetters_of_firstAlnums {read : ℕ} (h : firstAlnums 6 mem = some (letters, read)) :
    ShortLetters letters := by
  have hupper : ∀ c : Byte, isalnum c = true →
      isalnum (toupper c) = true ∧ toupper (toupper c) = toupper c := by decide
  obtain ⟨-, hletters, hlen⟩ := firstAlnums_spec h
  have hmem : ∀ c ∈ letters, ∃ x, isalnum x = true ∧ toupper x = c := by
    intro c hc
    rw [hletters] at hc
    obtain ⟨x, hx, rfl⟩ := List.mem_map.mp hc
    exact ⟨x, (List.mem_filter.mp hx).2, rfl⟩
  refine ⟨hlen, fun c hc => ?_, fun c hc => ?_, fun c hc => ?_⟩ <;> obtain ⟨x, hx, rfl⟩ := hmem c hc
  · exact hupper x hx
  · exact (toupper_of_isalnum hx).1
  · exact (toupper_of_isalnum hx).2.2

theorem firstAlnums_of_sameShortName {l : List Byte} (hlen : l.length = 6)
    (hl : ∀ c ∈ l, isalnum c = true ∧ toupper c = c) (rest : List Byte) :
    ∃ read, firstAlnums 6 (l ++ rest) = some (l, read) := by
  have hfilter : l.filter isalnum = l := List.filter_eq_self.mpr fun c hc => (hl c hc).1
  have hmap : l.map toupper = l := by
    conv_rhs => rw [← List.map_id l]
    exact List.map_congr_left fun c hc => (hl c hc).2
  have hsix : 6 ≤ (l.filter isalnum).length := by rw [hfilter, hlen]
  obtain ⟨read, -, hfirst⟩ := firstAlnums_name hsix rest
  rw [hfilter, List.take_of_length_le hlen.le, hmap] at hfirst
  exact ⟨read, hfirst⟩

/-- A volume without a label: the name that is read back is the short one, or lacks its first
slot. -/
theorem readUnlabelled {attributes : Byte} {fields : Buffer} (h : Ascii filename)
    (hne : filename ≠ [])
    (hlen : filename.length ≤ 255) (hattr : attributes = 0 ∨ attributes = attrDirectory)
    (hletters : ShortLetters letters) (hv : s.volumeName = none) :
    (parseEntries s (lfnSlots checksum 64 1 filename ++
        [shortEntry (candidate letters 1 space) attributes fields])).list =
      fileOf (if filename.length ≤ 13 then letters ++ [tilde, 0x30, dot, 0x31] else
        filename.drop 13)
        (shortEntry (candidate letters 1 space) attributes fields) :: s.list := by
  rw [parseEntries_unlabelled h hne hlen
    (isShort_shortEntry hattr hletters.length hletters.legal) hv,
    parseShortName_shortEntry hletters.length hletters.text]

theorem RoundTrip.sameShortName (hne : filename ≠ []) (hlen : filename.length ≤ 255)
    (h : Ascii filename) (hround : RoundTrip filename behind existing none) :
    SameShortName filename := by
  obtain ⟨short, slots, hbuild, -, -, -, hread⟩ := hround
  obtain ⟨hex, hsix⟩ := exists_of_buildLfnChain hbuild
  obtain ⟨letters, read, hfirst⟩ := exists_firstAlnums hsix
  have hletters := shortLetters_of_firstAlnums hfirst
  rw [buildLfnChain_eq h hex hfirst] at hbuild
  cases hbuild
  obtain ⟨file, hfile, hlist⟩ :=
    hread _ (List.Perm.refl _) ⟨none, fun _ _ => 0, -1, [], none⟩ ⟨rfl, rfl⟩ rfl
    0 (Or.inl rfl) fun _ => 0
  rw [readUnlabelled h hne hlen (Or.inl rfl) hletters rfl] at hlist
  obtain ⟨rfl, -⟩ := List.cons.inj hlist
  have hsame : (if filename.length ≤ 13 then letters ++ [tilde, 0x30, dot, 0x31]
      else filename.drop 13) = filename := hfile
  have hpos := List.length_pos_iff.mpr hne
  split at hsame
  · exact ⟨letters, hletters.length, hletters.alnum, hsame.symm⟩
  · have hlength := congrArg List.length hsame
    rw [List.length_drop] at hlength
    omega

/-- The chain is made exactly if the directory has an entry and six letters and digits are read,
and it is read back exactly if the volume has a label, apart from names that look like the short
name. -/
theorem buildLfnChain_roundTrip_iff (filename behind : List Byte) (existing : List Existing)
    (volumeName : Option (List Byte)) (hne : filename ≠ []) (hlen : filename.length ≤ 255)
    (h : Ascii filename) :
    RoundTrip filename behind existing volumeName ↔
      existing ≠ [] ∧ 6 ≤ ((filename ++ 0 :: behind).filter isalnum).length ∧
        (volumeName ≠ none ∨ SameShortName filename) := by
  constructor
  · intro hround
    obtain ⟨short, slots, hbuild, -⟩ := id hround
    obtain ⟨hex, hsix⟩ := exists_of_buildLfnChain hbuild
    refine ⟨hex, hsix, ?_⟩
    by_cases hv : volumeName = none
    · subst hv
      exact Or.inr (hround.sameShortName hne hlen h)
    · exact Or.inl hv
  · rintro ⟨hex, hsix, hname⟩
    obtain ⟨letters, read, hfirst⟩ := exists_firstAlnums hsix
    have hletters := shortLetters_of_firstAlnums hfirst
    refine ⟨_, _, buildLfnChain_eq h hex hfirst, ?_, fun i e he => chain_order hlen he,
      fun e he => chain_checksum hlen he, fun physical hperm s hs hsv attributes hattr fields => ?_⟩
    · rw [lfnSlots_eq_map hlen, List.length_map, List.length_range]
      rfl
    have hshort : (shortEntry (candidate letters 1 space) attributes fields).IsShort :=
      isShort_shortEntry hattr hletters.length hletters.legal
    by_cases hv : volumeName = none
    · obtain ⟨l, hl, hupper, hsame⟩ := hname.resolve_left fun hn => hn hv
      have hten : filename.length = 10 := by
        rw [hsame, List.length_append, hl]
        rfl
      -- one slot, so there is one order
      have hone : lfnSlots (lfnChecksum (candidate letters 1 space)) 64 1 filename =
          [slot (lfnChecksum (candidate letters 1 space)) filename 0] := by
        rw [lfnSlots_eq_map hlen]
        unfold slotCount
        rw [hten]
        rfl
      have hphysical :
          physical = lfnSlots (lfnChecksum (candidate letters 1 space)) 64 1 filename := by
        rw [hone] at hperm ⊢
        exact List.perm_singleton.mp hperm
      have hown : letters = l := by
        obtain ⟨read', hfirst'⟩ :=
          firstAlnums_of_sameShortName hl hupper ([tilde, 0x30, dot, 0x31] ++ 0 :: behind)
        rw [hsame, List.append_assoc, hfirst'] at hfirst
        cases hfirst
        rfl
      refine ⟨_, ?_, hphysical ▸ readUnlabelled h hne hlen hattr hletters (hsv.trans hv)⟩
      rw [if_pos (by omega), hown]
      exact hsame.symm
    · have hread := parseEntries_chain h hne hlen hshort hs (by rwa [hsv]) hperm
      exact ⟨_, rfl, hread⟩

/-- `readme.text` -/
def readmeText : List Byte := [0x72, 0x65, 0x61, 0x64, 0x6d, 0x65, 0x2e, 0x74, 0x65, 0x78, 0x74]

theorem ascii_readmeText : Ascii readmeText := by
  unfold Ascii
  decide

theorem buildLfnChain_roundTrip_iff_readmeText : RoundTrip readmeText [] [takenEntry] (some []) :=
  (buildLfnChain_roundTrip_iff readmeText [] [takenEntry] (some [])
    (List.cons_ne_nil _ _) (by decide)
    ascii_readmeText).mpr ⟨List.cons_ne_nil _ _, by decide, Or.inl (Option.some_ne_none _)⟩

/-- The name gets no chain in a directory without entries, and on a volume without a label it is not
read back. -/
theorem not_roundTrip_readmeText : ¬ RoundTrip readmeText [] [] (some []) ∧
    ¬ RoundTrip readmeText [] [takenEntry] none := by
  constructor
  · rintro ⟨short, slots, hbuild, -⟩
    exact (exists_of_buildLfnChain hbuild).1 rfl
  · intro hround
    obtain ⟨letters, hlen, -, hname⟩ :=
      hround.sameShortName (List.cons_ne_nil _ _) (by decide) ascii_readmeText
    have hlength := congrArg List.length hname
    rw [List.length_append, hlen] at hlength
    exact absurd hlength (by decide)

end Fat32

end RetroRocket
