import RetroRocket.PartitionNumbering

/-!
# When a disk is scanned safely

The scan trusts the disk: the size of a GPT entry is a divisor, entries and labels are looked for
where the disk says, and the sums of the bound on a logical volume wrap. A search that is safe meets
none of this before it ends; and a search that meets none of it is safe.
-/

namespace RetroRocket

/-! ## What is found -/

def Extent.last (e : Extent) : ℕ := u64 (e.start + e.length + (2 ^ 64 - 1))

inductive VolumeSource where
  | entry (s : Slot)
  | logical (s : Slot) (lv : Extent)

namespace VolumeSource

def found : VolumeSource → FoundPartition
  | entry s => s.foundHere
  | logical s lv => ⟨s.lvmPartitionId, lv, s.lvmFoundGuid⟩

def Inside : VolumeSource → Prop
  | entry s => s.partitionId = 0xFF → s.extent.start ≤ s.extent.last
  | logical s lv => s.extent.start ≤ lv.start ∧
      lv.start + lv.length ≤ s.extent.start + s.extent.length

instance (source : VolumeSource) : Decidable source.Inside :=
  match source with
  | entry _ => inferInstanceAs (Decidable (_ → _))
  | logical _ _ => inferInstanceAs (Decidable (_ ∧ _))

end VolumeSource

namespace PartitionQuery

def Ends (q : PartitionQuery) (s : Slot) (v : Byte) : Prop :=
  s.matched = true ∧ q.walk = none ∧ q.InRange v

instance (q : PartitionQuery) (s : Slot) (v : Byte) : Decidable (q.Ends s v) :=
  inferInstanceAs (Decidable (_ ∧ _ ∧ _))

/-- How many of so many logical volumes are passed, the first of which has number `v`. -/
def lvmStop (q : PartitionQuery) : ℕ → Byte → ℕ
  | 0, _ => 0
  | n + 1, v => if q.InRange v ∧ q.lvmMatches then 0 else q.lvmStop n (v + 1) + 1

/-- The number of the entry behind one with number `v` that holds some logical volumes. -/
def numberBehind (q : PartitionQuery) (lvs : List Extent) (v : Byte) : Byte :=
  v + BitVec.ofNat 8 (q.lvmStop lvs.length v) + 1

end PartitionQuery

def scanSource (q : PartitionQuery) : List SlotRead → Byte → Option VolumeSource
  | .slot s :: rest, v =>
    if q.Ends s v then some (.entry s)
    else
      s.logical.bind fun lvs =>
        match lvs[q.lvmStop lvs.length v]?, q.walk with
        | some lv, none => some (.logical s lv)
        | _, _ => scanSource q rest (q.numberBehind lvs v)
  | _, _ => none

/-- The scan of a table comes to the entry at a place `i`, with number `w`. -/
inductive Comes (q : PartitionQuery) : List SlotRead → Byte → ℕ → Byte → Prop
  | here {entry : SlotRead} {rest : List SlotRead} {v : Byte} : Comes q (entry :: rest) v 0 v
  | next {s : Slot} {rest : List SlotRead} {v w : Byte} {i : ℕ} {lvs : List Extent} :
      ¬ q.Ends s v → s.logical = some lvs → (q.walk = none → lvs.length ≤ q.lvmStop lvs.length v) →
      Comes q rest (q.numberBehind lvs v) i w → Comes q (.slot s :: rest) v (i + 1) w

def EntrySafe (q : PartitionQuery) (w : Byte) : SlotRead → Prop
  | .undefined => False
  | .unreadable => True
  | .slot s => (q.Ends s w → (VolumeSource.entry s).Inside) ∧
      (¬ q.Ends s w → ∃ lvs, s.logical = some lvs ∧ (q.walk = none →
        ∀ lv, lvs[q.lvmStop lvs.length w]? = some lv → (VolumeSource.logical s lv).Inside))

variable {d : Disk} {q : PartitionQuery} {a v : Byte} {entries rest : List SlotRead} {s : Slot}
  {lvs : List Extent}

theorem scanLvmPv_stop (lvs : List Extent) (v : Byte) :
    (scanLvmPv d q a lvs v).found = lvs[q.lvmStop lvs.length v]? ∧
      (scanLvmPv d q a lvs v).visibleIndex = v + BitVec.ofNat 8 (q.lvmStop lvs.length v) := by
  induction lvs generalizing v with
  | nil => simp [scanLvmPv, PartitionQuery.lvmStop]
  | cons lv lvs ih =>
    rw [scanLvmPv, List.length_cons, PartitionQuery.lvmStop]
    by_cases hfound : q.InRange v ∧ q.lvmMatches = true
    · rw [if_pos hfound, if_pos hfound]
      simp
    · rw [if_neg hfound, if_neg hfound]
      obtain ⟨hlv, hindex⟩ := ih (v + 1)
      refine ⟨by rw [List.getElem?_cons_succ]; exact hlv, ?_⟩
      rw [hindex, BitVec.ofNat_add, BitVec.add_assoc, BitVec.add_comm 1]
      rfl

theorem scanSlots_slot (hhere : ¬ q.Ends s v) :
    ∃ calls : List Extent → List VolumeCall, scanSlots d q a (.slot s :: rest) v =
      s.logical.bind fun lvs =>
        match lvs[q.lvmStop lvs.length v]?, q.walk with
        | some lv, none => some ⟨calls lvs, some (VolumeSource.logical s lv).found⟩
        | _, _ => (scanSlots d q a rest (q.numberBehind lvs v)).map (.after (calls lvs)) := by
  have hends : ¬ (s.matched = true ∧ q.walk = none ∧ q.InRange v) := hhere
  refine ⟨fun lvs => (if q.Calls ∧ s.listed
    then [⟨v, s.matched, s.describe v, s.extent⟩] else []) ++ (scanLvmPv d q a lvs v).calls, ?_⟩
  rw [scanSlots, if_neg hends]
  cases hlvm : s.isLvm with
  | false =>
    simp [Slot.logical, hlvm, PartitionQuery.numberBehind, PartitionQuery.lvmStop, scanLvmPv]
  | true =>
    simp only [Slot.logical, hlvm, if_true]
    apply Option.bind_congr
    intro lvs _
    obtain ⟨hfound, hindex⟩ := @scanLvmPv_stop d q a lvs v
    rw [PartitionQuery.numberBehind, ← hindex, ← hfound]
    cases hlv : (scanLvmPv d q a lvs v).found with
    | none => rfl
    | some lv =>
      cases q.walk with
      | none => rfl
      | some walk => rfl

/-- A scan ends with what `scanSource` says. -/
theorem scanSlots_found_eq {scan : PartitionScan} (hscan : scanSlots d q a entries v = some scan) :
    scan.found = (scanSource q entries v).map VolumeSource.found := by
  induction entries generalizing v scan with
  | nil =>
    obtain rfl := Option.some.inj hscan
    rfl
  | cons entry rest ih =>
    cases entry with
    | undefined => exact absurd hscan (by simp [scanSlots])
    | unreadable =>
      obtain rfl := Option.some.inj hscan
      rfl
    | slot s =>
      by_cases hhere : q.Ends s v
      · rw [scanSlots_found hhere] at hscan
        obtain rfl := Option.some.inj hscan
        rw [scanSource, if_pos hhere]
        rfl
      · obtain ⟨calls, hstep⟩ := @scanSlots_slot d q a v rest s hhere
        rw [hstep] at hscan
        obtain ⟨lvs, hlvs, hscan⟩ := Option.bind_eq_some_iff.mp hscan
        rw [scanSource, if_neg hhere, hlvs, Option.bind_some]
        cases hlv : lvs[q.lvmStop lvs.length v]? with
        | none =>
          rw [hlv] at hscan
          obtain ⟨scan', hrest, rfl⟩ := Option.map_eq_some_iff.mp hscan
          exact @ih _ scan' hrest
        | some lv =>
          rw [hlv] at hscan
          cases hwalk : q.walk with
          | none =>
            rw [hwalk] at hscan
            obtain rfl := Option.some.inj hscan
            rfl
          | some walk =>
            rw [hwalk] at hscan
            obtain ⟨scan', hrest, rfl⟩ := Option.map_eq_some_iff.mp hscan
            exact @ih _ scan' hrest

/-- A scan is defined and ends with something inside if and only if all entries it comes to are
safe. -/
theorem scanSlots_safe_iff (entries : List SlotRead) (v : Byte) :
    (scanSlots d q a entries v ≠ none ∧
        ∀ source, scanSource q entries v = some source → source.Inside) ↔
      ∀ i w entry, Comes q entries v i w → entries[i]? = some entry → EntrySafe q w entry := by
  induction entries generalizing v with
  | nil =>
    constructor
    · intro _ i w entry _ hentry
      exact absurd hentry (by simp)
    · exact fun _ => ⟨by simp [scanSlots], by simp [scanSource]⟩
  | cons head rest ih =>
    cases head with
    | undefined =>
      constructor
      · intro h
        exact absurd rfl h.1
      · intro h
        exact absurd (h 0 v .undefined .here rfl) id
    | unreadable =>
      constructor
      · intro _ i w entry hcomes hentry
        cases hcomes with
        | here =>
          rw [← Option.some.inj hentry]
          trivial
      · exact fun _ => ⟨by simp [scanSlots], by simp [scanSource]⟩
    | slot s =>
      by_cases hhere : q.Ends s v
      · rw [scanSlots_found hhere, scanSource, if_pos hhere]
        constructor
        · rintro ⟨-, hinside⟩ i w entry hcomes hentry
          cases hcomes with
          | here =>
            rw [← Option.some.inj hentry]
            exact ⟨fun _ => hinside _ rfl, fun h => absurd hhere h⟩
          | next h => exact absurd hhere h
        · intro hall
          refine ⟨by simp, fun source hsource => ?_⟩
          rw [← Option.some.inj hsource]
          exact (hall 0 v (.slot s) .here rfl).1 hhere
      obtain ⟨calls, hstep⟩ := @scanSlots_slot d q a v rest s hhere
      rw [hstep, scanSource, if_neg hhere]
      cases hlvs : s.logical with
      | none =>
        constructor
        · intro h
          exact absurd rfl h.1
        · intro hall
          obtain ⟨lvs, hsome, -⟩ := (hall 0 v (.slot s) .here rfl).2 hhere
          exact absurd (hlvs.symm.trans hsome) (by simp)
      | some lvs =>
        rw [Option.bind_some, Option.bind_some]
        -- the scan goes on behind the entry
        have hgoes : (q.walk = none → lvs.length ≤ q.lvmStop lvs.length v) →
            ((((scanSlots d q a rest (q.numberBehind lvs v)).map (PartitionScan.after (calls lvs)) ≠
                none ∧
              ∀ source, scanSource q rest (q.numberBehind lvs v) = some source → source.Inside)) ↔
            ∀ i w entry, Comes q (.slot s :: rest) v i w →
              (SlotRead.slot s :: rest)[i]? = some entry →
              EntrySafe q w entry) := by
          intro hpassed
          rw [Ne, Option.map_eq_none_iff, ← Ne, ih (q.numberBehind lvs v)]
          constructor
          · intro hall i w entry hcomes hentry
            cases hcomes with
            | here =>
              rw [← Option.some.inj hentry]
              refine ⟨fun h => absurd h hhere, fun _ => ⟨lvs, hlvs, fun hwalk lv hlv => ?_⟩⟩
              rw [List.getElem?_eq_none (hpassed hwalk)] at hlv
              exact absurd hlv (by simp)
            | next _ hsome _ hlater =>
              rw [← Option.some.inj (hlvs.symm.trans hsome)] at hlater
              exact hall _ _ entry hlater hentry
          · intro hall i w entry hcomes hentry
            exact hall (i + 1) w entry (.next hhere hlvs hpassed hcomes) hentry
        by_cases hwalk : q.walk = none
        case neg =>
          obtain ⟨walk, hsome⟩ := Option.ne_none_iff_exists'.mp hwalk
          rw [hsome]
          cases lvs[q.lvmStop lvs.length v]? with
          | none => exact hgoes fun h => absurd h hwalk
          | some lv => exact hgoes fun h => absurd h hwalk
        cases hlv : lvs[q.lvmStop lvs.length v]? with
        | none => exact hgoes fun _ => List.getElem?_eq_none_iff.mp hlv
        | some lv =>
          rw [hwalk]
          constructor
          · rintro ⟨-, hinside⟩ i w entry hcomes hentry
            cases hcomes with
            | here =>
              rw [← Option.some.inj hentry]
              refine ⟨fun h => absurd h hhere, fun _ => ⟨lvs, hlvs, fun _ lv' hlv' => ?_⟩⟩
              rw [← Option.some.inj (hlv.symm.trans hlv')]
              exact hinside _ rfl
            | next _ hsome hpassed _ =>
              rw [← Option.some.inj (hlvs.symm.trans hsome)] at hpassed
              rw [List.getElem?_eq_none (hpassed hwalk)] at hlv
              exact absurd hlv (by simp)
          · intro hall
            refine ⟨by simp, fun source hsource => ?_⟩
            rw [← Option.some.inj hsource]
            obtain ⟨lvs', hsome, hinside⟩ := (hall 0 v (.slot s) .here rfl).2 hhere
            obtain rfl := Option.some.inj (hlvs.symm.trans hsome)
            exact hinside hwalk lv hlv

/-! ## What the disk must be -/

/-- The bytes of an entry of a GPT that are looked at lie in a sector of the table, as far as it can
be read; and the first sector of the table is not the one that counts as read before. -/
def GptEntryInside (d : Disk) (header : GptHeader) (n : ℕ) : Prop :=
  let entriesPerSector := d.blockSize / header.sizeOfEachEntry
  let sector := u64 (header.lbaOfPartitionEntries + n / entriesPerSector)
  header.sizeOfEachEntry ≤ d.blockSize ∧ ¬ (n < entriesPerSector ∧ sector = 2 ^ 64 - 1) ∧
    (d.readBlock sector ≠ none →
      n % entriesPerSector * header.sizeOfEachEntry + 48 ≤ d.blockSize)

def LvmLabelInside (d : Disk) (pv : Extent) : Prop :=
  ∀ sector, d.readBlock (u64 (pv.start + 1)) = some sector →
    fieldBytes sector 0 8 = bytesOf "LABELONE" → fieldBytes sector 24 8 = bytesOf "LVM2 001" →
      field sector 20 4 + 72 ≤ d.blockSize

def lvmOffset (pv lv : Extent) : ℕ := sub64 lv.start pv.start

def LogicalFits (pv lv : Extent) : Prop :=
  pv.start + lvmOffset pv lv < 2 ^ 64 ∧ lvmOffset pv lv + lv.length ≤ pv.length

theorem structAt_isSome_iff {buffer : List Byte} {off size : ℕ} :
    structAt buffer off size ≠ none ↔ off + size ≤ buffer.length := by
  unfold structAt
  by_cases h : off + size ≤ buffer.length <;> simp [h]

theorem fieldBytes_fieldBytes {bytes : List Byte} {off size place length : ℕ}
    (h : place + length ≤ size) :
    fieldBytes (fieldBytes bytes off size) place length = fieldBytes bytes
      (off + place) length := by
  rw [fieldBytes, fieldBytes, fieldBytes, List.drop_take, List.take_take, List.drop_drop,
    Nat.min_eq_left (by omega)]

theorem field_lt (bytes : List Byte) (off : ℕ) {size : ℕ} (hsize : size ≤ 8) :
    field bytes off size < 2 ^ 64 := by
  have hlength : (fieldBytes bytes off size).length ≤ 8 := by
    rw [fieldBytes, List.length_take]
    omega
  calc field bytes off size < 2 ^ (8 * (fieldBytes bytes off size).length) := leNat_lt _
    _ ≤ 2 ^ 64 := Nat.pow_le_pow_right (by decide) (by omega)

theorem gptEntry_undefined_iff {header : GptHeader} (hsize : header.sizeOfEachEntry ≠ 0) (n : ℕ) :
    gptEntry d q header n = .undefined ↔ ¬ GptEntryInside d header n := by
  have hzero : d.blockSize / header.sizeOfEachEntry = 0 ↔ d.blockSize < header.sizeOfEachEntry :=
    Nat.div_eq_zero_iff_lt (Nat.pos_of_ne_zero hsize)
  unfold gptEntry GptEntryInside
  dsimp only
  generalize u64 (header.lbaOfPartitionEntries + n / (d.blockSize / header.sizeOfEachEntry)) =
    sector
  by_cases hout : d.blockSize / header.sizeOfEachEntry = 0 ∨
      n < d.blockSize / header.sizeOfEachEntry ∧ sector = 2 ^ 64 - 1
  · rw [if_pos hout]
    refine ⟨fun _ hin => ?_, fun _ => rfl⟩
    rcases hout with hlarge | hcached
    · exact absurd hin.1 (not_le.mpr (hzero.mp hlarge))
    · exact hin.2.1 hcached
  rw [if_neg hout]
  obtain ⟨hfits, hcached⟩ := not_or.mp hout
  rw [hzero, not_lt] at hfits
  cases hread : d.readBlock sector with
  | none =>
    refine ⟨fun h => absurd h (by simp), fun h => absurd ⟨hfits, hcached, fun h => absurd rfl h⟩ h⟩
  | some gptbuf =>
    have hlength := d.length_of_readBlock hread
    have hstruct := @structAt_isSome_iff gptbuf
      (n % (d.blockSize / header.sizeOfEachEntry) * header.sizeOfEachEntry) 48
    rw [hlength] at hstruct
    dsimp only
    cases hgpt : structAt gptbuf
        (n % (d.blockSize / header.sizeOfEachEntry) * header.sizeOfEachEntry) 48 with
    | none =>
      refine ⟨fun _ hin => ?_, fun _ => rfl⟩
      exact absurd hgpt (hstruct.mpr (hin.2.2 (by simp)))
    | some gpt =>
      refine ⟨fun h => absurd h (by simp), fun hin => ?_⟩
      exact absurd ⟨hfits, hcached, fun _ => hstruct.mp (by simp [hgpt])⟩ hin

theorem lvmVolumes_ne_none_iff (hbs : 32 ≤ d.blockSize) (pv : Extent) :
    lvmVolumes d pv ≠ none ↔ LvmLabelInside d pv := by
  unfold lvmVolumes LvmLabelInside
  cases hread : d.readBlock (u64 (pv.start + 1)) with
  | none => simp
  | some sector =>
    have hlength := d.length_of_readBlock hread
    have hlabel : structAt sector 0 32 = some (fieldBytes sector 0 32) :=
      if_pos (by omega)
    have hfield : ∀ off size, off + size ≤ 32 →
        fieldBytes (fieldBytes sector 0 32) off size = fieldBytes sector off size := by
      intro off size h
      rw [fieldBytes_fieldBytes h, Nat.zero_add]
    have hoffset : field (fieldBytes sector 0 32) 20 4 = field sector 20 4 := by
      rw [field, hfield 20 4 (by decide)]
      rfl
    dsimp only
    rw [hlabel, Option.bind_some, hfield 0 8 (by decide), hfield 24 8 (by decide), hoffset]
    by_cases hid : fieldBytes sector 0 8 ≠ bytesOf "LABELONE" ∨
        fieldBytes sector 24 8 ≠ bytesOf "LVM2 001"
    · rw [if_pos hid]
      refine ⟨fun _ sector' hsector hone htwo => ?_, fun _ => by simp⟩
      rw [← Option.some.inj hsector] at hone htwo
      exact absurd hid (by simp [hone, htwo])
    · rw [if_neg hid, Ne, Option.map_eq_none_iff, ← Ne, structAt_isSome_iff, hlength]
      refine ⟨fun h sector' hsector _ _ => ?_, fun h => ?_⟩
      · rwa [← Option.some.inj hsector]
      · obtain ⟨hone, htwo⟩ := not_or.mp hid
        exact h sector rfl (not_not.mp hone) (not_not.mp htwo)

/-- A logical volume is described at some place of the metadata by the number of its first extent
and the number of its extents. -/
theorem mem_lvmVolumesIn {pv lv : Extent} {extentSize : ℕ} {text : List Char}
    (hlv : lv ∈ lvmVolumesIn pv extentSize text) : ∃ p pvExtent extentCount, p <:+ text ∧
      lvmReadPvExtent p = some pvExtent ∧ lvmReadUint64 p "extent_count" = some extentCount ∧
        lv.start = u64 (pv.start + u64 (pvExtent * extentSize)) ∧
          lv.length = u64 (extentCount * extentSize) := by
  induction text with
  | nil => simp [lvmVolumesIn] at hlv
  | cons c text ih =>
    rw [lvmVolumesIn, List.mem_append] at hlv
    rcases hlv with hhere | hlater
    · split at hhere
      · rw [Option.mem_toList, lvmVolume] at hhere
        split at hhere
        · exact absurd hhere (by simp)
        · obtain ⟨extentCount, hcount, hhere⟩ := Option.bind_eq_some_iff.mp hhere
          obtain ⟨pvExtent, hextent, hhere⟩ := Option.bind_eq_some_iff.mp hhere
          dsimp only at hhere
          split at hhere
          · exact absurd hhere (by simp)
          · obtain rfl := Option.some.inj hhere
            exact ⟨_, pvExtent, extentCount, List.suffix_rfl, hextent, hcount, rfl, rfl⟩
      · exact absurd hhere (by simp)
    · obtain ⟨p, pvExtent, extentCount, hp, hrest⟩ := ih hlater
      exact ⟨p, pvExtent, extentCount, hp.trans (List.suffix_cons c text), hrest⟩

theorem logical_inside_iff {pv lv : Extent} (hpv : pv.start < 2 ^ 64) (hlv : lv.start < 2 ^ 64) :
    pv.start ≤ lv.start ∧ lv.start + lv.length ≤ pv.start + pv.length ↔ LogicalFits pv lv := by
  unfold LogicalFits lvmOffset sub64 u64
  omega

theorem mem_lvmVolumes {pv lv : Extent} (hlvs : lvmVolumes d pv = some lvs) (hlv : lv ∈ lvs) :
    ∃ extentSize text, lv ∈ lvmVolumesIn pv extentSize text := by
  unfold lvmVolumes at hlvs
  split at hlvs
  · rw [← Option.some.inj hlvs] at hlv
    exact absurd hlv (by simp)
  · obtain ⟨label, -, hlvs⟩ := Option.bind_eq_some_iff.mp hlvs
    split at hlvs
    · rw [← Option.some.inj hlvs] at hlv
      exact absurd hlv (by simp)
    · obtain ⟨header, -, hlvs⟩ := Option.map_eq_some_iff.mp hlvs
      dsimp only at hlvs
      rw [← hlvs] at hlv
      split at hlv
      · exact absurd hlv (by simp)
      · split at hlv
        · exact absurd hlv (by simp)
        · split at hlv
          · exact absurd hlv (by simp)
          · exact ⟨_, _, hlv⟩

/-! ## The tables of a disk -/

def Disk.HasGpt (d : Disk) (header : GptHeader) : Prop :=
  ∃ mbr gpt, d.readBlock 0 = some mbr ∧ IsProtective (partitionEntry (fieldBytes mbr 0x1BE 64) 0) ∧
    d.readBlock 1 = some gpt ∧ fieldBytes gpt 0 8 = bytesOf "EFI PART" ∧
      header = gptHeader (fieldBytes gpt 0 88)

def Disk.TableInside (d : Disk) : Prop :=
  64 ≤ d.blockSize → d.readBlock 0 ≠ none →
    510 ≤ d.blockSize ∧ ∀ header, d.HasGpt header → header.sizeOfEachEntry ≠ 0

/-- The GPT of a disk: no entries without a signature, and none at all if the entries have no
size. -/
theorem gptEntries_cases (hbs : 510 ≤ d.blockSize) {mbr : List Byte}
    (hmbr : d.readBlock 0 = some mbr)
    (hgpt : IsProtective (partitionEntry (fieldBytes mbr 0x1BE 64) 0)) :
    ((∀ header, ¬ d.HasGpt header) ∧ gptEntries d q = some []) ∨
    ∃ header, d.HasGpt header ∧ (∀ other, d.HasGpt other → other = header) ∧
      gptEntries d q = if header.sizeOfEachEntry = 0 then none
        else some ((List.range header.numberPartitionEntries).map (gptEntry d q header)) := by
  rw [gptEntries]
  cases hread : d.readBlock 1 with
  | none =>
    left
    refine ⟨?_, rfl⟩
    rintro header ⟨-, gpt, -, -, hsome, -⟩
    exact absurd (hread.symm.trans hsome) (by simp)
  | some buffer =>
    have hlength := d.length_of_readBlock hread
    have hsignature : structAt buffer 0 8 = some (fieldBytes buffer 0 8) := if_pos (by omega)
    have hheader : structAt buffer 0 88 = some (fieldBytes buffer 0 88) := if_pos (by omega)
    have huse : ∀ header, d.HasGpt header → fieldBytes buffer 0 8 = bytesOf "EFI PART" ∧
        header = gptHeader (fieldBytes buffer 0 88) := by
      rintro header ⟨-, gpt, -, -, hsome, hsigned, hdr⟩
      obtain rfl := Option.some.inj (hread.symm.trans hsome)
      exact ⟨hsigned, hdr⟩
    dsimp only
    rw [hsignature, Option.bind_some]
    by_cases hsigned : fieldBytes buffer 0 8 ≠ bytesOf "EFI PART"
    · rw [if_pos hsigned]
      exact .inl ⟨fun header hdr => hsigned (huse header hdr).1, rfl⟩
    · rw [if_neg hsigned, hheader, Option.bind_some]
      exact .inr ⟨gptHeader (fieldBytes buffer 0 88),
        ⟨mbr, buffer, hmbr, hgpt, hread, not_not.mp hsigned, rfl⟩,
        fun other hother => (huse other hother).2, rfl⟩

theorem Disk.entries_cases (d : Disk) (q : PartitionQuery) :
    (d.entries q = none ∧ ¬ d.TableInside) ∨
    (d.TableInside ∧ d.entries q = some []) ∨
    (d.TableInside ∧ 510 ≤ d.blockSize ∧ ∃ header, d.HasGpt header ∧
      (∀ other, d.HasGpt other → other = header) ∧ header.sizeOfEachEntry ≠ 0 ∧ d.entries q =
        some ((List.range header.numberPartitionEntries).map (gptEntry d q header))) ∨
    (d.TableInside ∧ 510 ≤ d.blockSize ∧ (∀ header, ¬ d.HasGpt header) ∧
      ∃ table, d.entries q = some (partitionEntries d q table)) := by
  rw [Disk.entries]
  by_cases hsmall : d.blockSize < 64
  · rw [if_pos hsmall]
    exact .inr (.inl ⟨fun h => absurd hsmall (not_lt.mpr h), rfl⟩)
  rw [if_neg hsmall]
  cases hread : d.readBlock 0 with
  | none => exact .inr (.inl ⟨fun _ h => absurd hread h, rfl⟩)
  | some mbr =>
    have hlength := d.length_of_readBlock hread
    have hsome : d.readBlock 0 ≠ none := by simp [hread]
    dsimp only
    by_cases hbs : 510 ≤ d.blockSize
    case neg =>
      have hout : structAt mbr 0x1BE 64 = none := if_neg (by omega)
      rw [hout]
      exact .inl ⟨rfl, fun h => hbs (h (by omega) hsome).1⟩
    have htable : structAt mbr 0x1BE 64 = some (fieldBytes mbr 0x1BE 64) := if_pos (by omega)
    rw [htable, Option.bind_some]
    by_cases hgpt : IsProtective (partitionEntry (fieldBytes mbr 0x1BE 64) 0)
    case neg =>
      have hnone : ∀ header, ¬ d.HasGpt header := by
        rintro header ⟨other, -, hother, hprotective, -⟩
        obtain rfl := Option.some.inj (hread.symm.trans hother)
        exact hgpt hprotective
      rw [if_neg hgpt]
      exact .inr (.inr (.inr ⟨fun _ _ => ⟨hbs, fun header h => absurd h (hnone header)⟩, hbs, hnone,
        _, rfl⟩))
    rw [if_pos hgpt]
    rcases @gptEntries_cases d q hbs mbr hread hgpt with
      ⟨hnone, hempty⟩ | ⟨header, hheader, hunique, hentries⟩
    · exact .inr (.inl ⟨fun _ _ => ⟨hbs, fun header h => absurd h (hnone header)⟩, hempty⟩)
    · by_cases hsize : header.sizeOfEachEntry = 0
      · rw [if_pos hsize] at hentries
        exact .inl ⟨hentries, fun h => (h (by omega) hsome).2 header hheader hsize⟩
      · rw [if_neg hsize] at hentries
        refine .inr (.inr (.inl ⟨fun _ _ => ⟨hbs, fun other hother => ?_⟩, hbs, header, hheader,
          hunique, hsize, hentries⟩))
        rwa [hunique other hother]

/-! ## The theorem -/

def Disk.source (d : Disk) (q : PartitionQuery) : Option VolumeSource :=
  (d.entries q).bind fun entries => scanSource q entries 0

/-- A search divides by no zero and reads in its buffers, and what it finds is the entry or the
volume `d.source q`, which lies inside. -/
structure ScannedSafely (d : Disk) (q : PartitionQuery) (a : Byte) : Prop where
  defined : findPartitionOfType d q a ≠ none
  inside : ∀ scan found, findPartitionOfType d q a = some scan → scan.found = some found →
    ∃ source, d.source q = some source ∧ source.found = found ∧ source.Inside

/-- What an entry that is read must be: the one the search ends with does not end before it starts,
if it is of a GPT; a physical volume that the search looks into has its label inside, and the
logical volume the search ends with fits. -/
structure SlotInside (d : Disk) (q : PartitionQuery) (s : Slot) (w : Byte) : Prop where
  ends : q.Ends s w → s.partitionId = 0xFF → s.extent.start ≤ s.extent.last
  label : ¬ q.Ends s w → s.isLvm = true → LvmLabelInside d s.extent
  volume : ¬ q.Ends s w → s.isLvm = true → q.walk = none → ∀ lvs lv,
    lvmVolumes d s.extent = some lvs → lvs[q.lvmStop lvs.length w]? = some lv →
      LogicalFits s.extent lv

/-- The tables of the disk, as far as the search looks at them, lie in what was read, and the volume
it ends with fits. -/
structure TablesInside (d : Disk) (q : PartitionQuery) : Prop where
  table : d.TableInside
  entry : ∀ entries, d.entries q = some entries → ∀ i w, Comes q entries 0 i w →
    ∀ header, d.HasGpt header → GptEntryInside d header i
  slot : ∀ entries, d.entries q = some entries → ∀ i w, Comes q entries 0 i w →
    ∀ s, entries[i]? = some (.slot s) → SlotInside d q s w

/-- An entry read from a disk: its extent is in 64 bits, and its volumes are those of the disk. -/
structure Slot.OfDisk (d : Disk) (s : Slot) : Prop where
  volumes : s.volumes = lvmVolumes d s.extent
  start_lt : s.extent.start < 2 ^ 64

theorem gptEntrySlot_ofDisk (gpt : List Byte) : (gptEntrySlot d q gpt).OfDisk d :=
  ⟨rfl, field_lt gpt 32 (by decide)⟩

theorem partitionSlot_ofDisk (table : List Byte) (i : ℕ) : (partitionSlot d q table i).OfDisk d :=
  ⟨rfl, field_lt _ 8 (by decide)⟩

theorem Slot.OfDisk.safe_iff (hs : s.OfDisk d) (hbs : 510 ≤ d.blockSize) (w : Byte) :
    EntrySafe q w (.slot s) ↔ SlotInside d q s w := by
  have hlabel := lvmVolumes_ne_none_iff (show 32 ≤ d.blockSize by omega) s.extent
  have hlogical : s.logical = if s.isLvm then lvmVolumes d s.extent else some [] := by
    rw [Slot.logical, hs.volumes]
  have hfits : ∀ {lvs : List Extent} {lv : Extent} {k : ℕ}, lvmVolumes d s.extent = some lvs →
      lvs[k]? = some lv → ((VolumeSource.logical s lv).Inside ↔ LogicalFits s.extent lv) := by
    intro lvs lv k hlvs hlv
    obtain ⟨extentSize, text, hmem⟩ := mem_lvmVolumes hlvs (List.mem_of_getElem? hlv)
    obtain ⟨p, pvExtent, extentCount, -, -, -, hstart, -⟩ := mem_lvmVolumesIn hmem
    exact logical_inside_iff hs.start_lt (by rw [hstart]; exact u64_lt _)
  constructor
  · rintro ⟨hends, hpasses⟩
    refine ⟨hends, fun hnot hlvm => ?_, fun hnot hlvm hwalk lvs lv hlvs hlv => ?_⟩
    · obtain ⟨lvs, hlvs, -⟩ := hpasses hnot
      rw [hlogical, if_pos hlvm] at hlvs
      exact hlabel.mp (by simp [hlvs])
    · obtain ⟨lvs', hlvs', hinside⟩ := hpasses hnot
      rw [hlogical, if_pos hlvm] at hlvs'
      obtain rfl := Option.some.inj (hlvs.symm.trans hlvs')
      exact (hfits hlvs hlv).mp (hinside hwalk lv hlv)
  · intro hinside
    refine ⟨hinside.ends, fun hnot => ?_⟩
    by_cases hlvm : s.isLvm = true
    · obtain ⟨lvs, hlvs⟩ := Option.ne_none_iff_exists'.mp (hlabel.mpr (hinside.label hnot hlvm))
      refine ⟨lvs, by rw [hlogical, if_pos hlvm, hlvs], fun hwalk lv hlv => ?_⟩
      exact (hfits hlvs hlv).mpr (hinside.volume hnot hlvm hwalk lvs lv hlvs hlv)
    · refine ⟨[], by rw [hlogical, if_neg hlvm], fun _ lv hlv => ?_⟩
      exact absurd hlv (by simp)

theorem scannedSafely_iff_entries (d : Disk) (q : PartitionQuery) (a : Byte) :
    ScannedSafely d q a ↔ d.entries q ≠ none ∧ ∀ entries, d.entries q = some entries →
      ∀ i w entry, Comes q entries 0 i w → entries[i]? = some entry → EntrySafe q w entry := by
  have hfind := @findPartitionOfType_eq d q a
  cases hentries : d.entries q with
  | none =>
    rw [hentries, Option.bind_none] at hfind
    exact ⟨fun h => absurd hfind h.defined, fun h => absurd rfl h.1⟩
  | some entries =>
    rw [hentries, Option.bind_some] at hfind
    have hsource : d.source q = scanSource q entries 0 := by
      rw [Disk.source, hentries, Option.bind_some]
    have hsafe := @scanSlots_safe_iff d q a entries 0
    constructor
    · intro h
      refine ⟨by simp, fun entries' hsome => ?_⟩
      obtain rfl := Option.some.inj hsome
      apply hsafe.mp
      refine ⟨by rw [← hfind]; exact h.defined, fun source hsrc => ?_⟩
      obtain ⟨scan, hscan⟩ := Option.ne_none_iff_exists'.mp h.defined
      have hfound := scanSlots_found_eq (hfind.symm.trans hscan)
      rw [hsrc] at hfound
      obtain ⟨source', hsrc', -, hinside⟩ := h.inside scan _ hscan hfound
      rw [hsource, hsrc] at hsrc'
      rwa [Option.some.inj hsrc']
    · rintro ⟨-, hall⟩
      obtain ⟨hdefined, hinside⟩ := hsafe.mpr (hall entries rfl)
      refine ⟨by rw [hfind]; exact hdefined, fun scan found hscan hfound => ?_⟩
      rw [scanSlots_found_eq (hfind.symm.trans hscan), ← hsource] at hfound
      obtain ⟨source, hsrc, hfound⟩ := Option.map_eq_some_iff.mp hfound
      exact ⟨source, hsrc, hfound, hinside source (by rw [← hsource, hsrc])⟩

theorem Comes.exists_entry {i : ℕ} {w : Byte} (h : Comes q entries v i w) :
    ∃ entry, entries[i]? = some entry := by
  induction h with
  | here => exact ⟨_, rfl⟩
  | next _ _ _ _ ih => exact ih

theorem tablesInside_iff (hbs : 510 ≤ d.blockSize) (htable : d.TableInside)
    (hentries : d.entries q = some entries)
    (hslot : ∀ (i : ℕ) (s : Slot), entries[i]? = some (SlotRead.slot s) → s.OfDisk d)
    (hundefined : ∀ (i : ℕ) (entry : SlotRead), entries[i]? = some entry →
      (entry = .undefined ↔ ∃ header, d.HasGpt header ∧ ¬ GptEntryInside d header i)) :
    (∀ i w entry, Comes q entries 0 i w → entries[i]? = some entry → EntrySafe q w entry) ↔
      TablesInside d q := by
  constructor
  · intro hall
    refine ⟨htable, fun other hother i w hcomes header hheader => ?_,
      fun other hother i w hcomes s hs => ?_⟩
    · obtain rfl := Option.some.inj (hentries.symm.trans hother)
      obtain ⟨entry, hentry⟩ := hcomes.exists_entry
      by_contra hout
      have hsafe := hall i w entry hcomes hentry
      rw [(hundefined i entry hentry).mpr ⟨header, hheader, hout⟩] at hsafe
      exact hsafe
    · obtain rfl := Option.some.inj (hentries.symm.trans hother)
      exact ((hslot i s hs).safe_iff hbs w).mp (hall i w (.slot s) hcomes hs)
  · intro hinside i w entry hcomes hentry
    cases entry with
    | undefined =>
      obtain ⟨header, hheader, hout⟩ := (hundefined i .undefined hentry).mp rfl
      exact absurd (hinside.entry entries hentries i w hcomes header hheader) hout
    | unreadable => trivial
    | slot s =>
      exact ((hslot i s hentry).safe_iff hbs w).mpr
        (hinside.slot entries hentries i w hcomes s hentry)

/-- **Scanning partitions.** For every disk and every search or walk, the scan divides by no zero,
reads in its buffers and ends with a volume that lies inside, if and only if the tables it looks at
lie in what was read and the volume it ends with fits. -/
theorem scannedSafely_iff (d : Disk) (q : PartitionQuery) (a : Byte) :
    ScannedSafely d q a ↔ TablesInside d q := by
  rw [scannedSafely_iff_entries]
  rcases d.entries_cases q with ⟨hnone, hout⟩ | ⟨htable, hempty⟩ |
    ⟨htable, hbs, header, hheader, hunique, hsize, hentries⟩ | ⟨htable, hbs, hnogpt,
      table, hentries⟩
  · exact ⟨fun h => absurd hnone h.1, fun h => absurd h.table hout⟩
  · constructor
    · refine fun _ =>
        ⟨htable, fun entries hsome i w hcomes => ?_, fun entries hsome i w hcomes => ?_⟩
      all_goals
        obtain rfl := Option.some.inj (hempty.symm.trans hsome)
        exact absurd hcomes (by rintro ⟨⟩)
    · refine fun _ => ⟨by simp [hempty], fun entries hsome i w entry hcomes => ?_⟩
      obtain rfl := Option.some.inj (hempty.symm.trans hsome)
      exact absurd hcomes (by rintro ⟨⟩)
  · have hentry : ∀ {i : ℕ} {entry : SlotRead},
        ((List.range header.numberPartitionEntries).map (gptEntry d q header))[i]? = some entry →
          entry = gptEntry d q header i := by
      intro i entry hsome
      obtain ⟨hlt, rfl⟩ := List.getElem?_eq_some_iff.mp hsome
      rw [List.getElem_map, List.getElem_range]
    rw [← tablesInside_iff hbs htable hentries]
    · rw [hentries]
      simp
    · intro i s hs
      obtain ⟨gpt, rfl⟩ := gptEntry_eq_slot (hentry hs).symm
      exact gptEntrySlot_ofDisk gpt
    · intro i entry hsome
      rw [hentry hsome, gptEntry_undefined_iff hsize]
      constructor
      · exact fun h => ⟨header, hheader, h⟩
      · rintro ⟨other, hother, hout⟩
        rwa [hunique other hother] at hout
  · have hentry : ∀ {i : ℕ} {entry : SlotRead}, (partitionEntries d q table)[i]? = some entry →
        entry = .slot (partitionSlot d q table i) := by
      intro i entry hsome
      obtain ⟨hlt, rfl⟩ := List.getElem?_eq_some_iff.mp hsome
      simp only [partitionEntries, List.getElem_map, List.getElem_range]
    rw [← tablesInside_iff hbs htable hentries]
    · rw [hentries]
      simp
    · intro i s hs
      rw [SlotRead.slot.inj (hentry hs)]
      exact partitionSlot_ofDisk table i
    · intro i entry hsome
      rw [hentry hsome]
      constructor
      · exact fun h => absurd h (by simp)
      · rintro ⟨header, hheader, -⟩
        exact absurd hheader (hnogpt header)

/-! ## Three damaged disks -/

def oneEntryGpt (sizeOfEachEntry : Byte) : List Byte :=
  bytesOf "EFI PART" ++ List.replicate 64 0 ++ [2, 0, 0, 0, 0, 0, 0, 0, 1, 0, 0, 0, sizeOfEachEntry]

def backwardEntry : List Byte :=
  guidToBinary gptLinuxFilesystem ++ List.replicate 16 0 ++
    [5, 0, 0, 0, 0, 0, 0, 0, 3, 0, 0, 0, 0, 0, 0, 0]

def wrappingMetadata : List Byte :=
  bytesOf ("extent_size=1segment_count=1start_extent=0extent_count=1stripe_count=1" ++
    "stripes=[p,0,18446744073709551615]")

/-- A GPT whose entries have no size is divided by; a partition that ends before it starts is found,
and so is a logical volume in the sector before its physical volume. -/
theorem damagedDisks_not_scannedSafely :
    ¬ ScannedSafely (diskOf [oneEntryMbr 0xEE, oneEntryGpt 0]) ext2Query 0 ∧
      ¬ ScannedSafely (diskOf [oneEntryMbr 0xEE, oneEntryGpt 128, backwardEntry]) ext2Query 0 ∧
      ¬ ScannedSafely (diskOf [oneEntryMbr 0x8E, [], pvLabel, wrappingMetadata]) ext2Query 0 := by
  have houtside :
    ∀ {d : Disk}, ((findPartitionOfType d ext2Query 0).bind PartitionScan.found).isSome →
      (d.source ext2Query).all (fun source => !decide source.Inside) = true →
        ¬ ScannedSafely d ext2Query 0 := by
    intro d hsome hall hsafe
    obtain ⟨found, hfound⟩ := Option.isSome_iff_exists.mp hsome
    obtain ⟨scan, hscan, hfound⟩ := Option.bind_eq_some_iff.mp hfound
    obtain ⟨source, hsource, -, hinside⟩ := hsafe.inside scan found hscan hfound
    rw [hsource] at hall
    simp [hinside] at hall
  refine ⟨fun hsafe => ?_, houtside ?_ ?_, houtside ?_ ?_⟩
  · have hzero :
      (findPartitionOfType (diskOf [oneEntryMbr 0xEE, oneEntryGpt 0]) ext2Query 0).isNone =
        true := by
      decide +kernel
    exact hsafe.defined (Option.isNone_iff_eq_none.mp hzero)
  all_goals decide +kernel

end RetroRocket
