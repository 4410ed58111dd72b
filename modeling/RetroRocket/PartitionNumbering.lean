import RetroRocket.Partitions

/-!
# The numbering of partitions

A walk tells the number of every volume, and a search is given numbers. They agree exactly if the
physical volumes hold no volume that can be used, and no two entries that are listed are 256 places
apart.
-/

namespace RetroRocket

def Slot.logical (s : Slot) : Option (List Extent) := if s.isLvm then s.volumes else some []

def readableSlots : List SlotRead → Option (List Slot)
  | [] => some []
  | .undefined :: _ => none
  | .unreadable :: _ => some []
  | .slot s :: rest => s.logical.bind fun _ => (readableSlots rest).map (s :: ·)

def Disk.entries (d : Disk) (q : PartitionQuery) : Option (List SlotRead) :=
  if d.blockSize < 64 then some []
  else
    match d.readBlock 0 with
    | none => some []
    | some buffer =>
      (structAt buffer 0x1BE 64).bind fun table =>
        if IsProtective (partitionEntry table 0) then gptEntries d q
        else some (partitionEntries d q table)

def Disk.slots (d : Disk) (q : PartitionQuery) : Option (List Slot) :=
  (d.entries q).bind readableSlots

structure Numbered (slots : List Slot) : Prop where
  noVolumes : ∀ s ∈ slots, s.logical = some []
  distinct : ∀ {i j s t}, slots[i]? = some s → slots[j]? = some t → s.listed → t.listed →
    i % 256 = j % 256 → i = j

def PartitionQuery.walking (q : PartitionQuery) : PartitionQuery := { q with walk := some true }

def PartitionQuery.searching (q : PartitionQuery) (index : Byte) : PartitionQuery :=
  { q with walk := none, startIndex := index, endIndex := index }

def NumberingAgrees (d : Disk) (q : PartitionQuery) (a : Byte) : Prop :=
  ∃ walk, findPartitionOfType d q.walking a = some walk ∧
    (walk.calls.map VolumeCall.index).Nodup ∧
    ∀ c ∈ walk.calls, c.matched → ∃ search found,
      findPartitionOfType d (q.searching c.index) a = some search ∧
        search.found = some found ∧ found.extent = c.volume

variable {d : Disk} {q : PartitionQuery} {a v : Byte} {entries rest : List SlotRead}
  {slots : List Slot} {s : Slot}

theorem findPartitionOfType_eq :
    findPartitionOfType d q a = (d.entries q).bind fun entries => scanSlots d q a entries 0 := by
  unfold findPartitionOfType Disk.entries
  split
  · rfl
  · cases d.readBlock 0 with
    | none => rfl
    | some buffer =>
      dsimp only
      rw [Option.bind_assoc]
      refine Option.bind_congr fun table _ => ?_
      split
      · rfl
      · rfl

/-! ## Tables without logical volumes -/

def Slot.call (s : Slot) (index : Byte) : VolumeCall :=
  ⟨index, s.matched, s.describe index, s.extent⟩

def Slot.foundHere (s : Slot) : FoundPartition := ⟨s.partitionId, s.extent, s.foundGuid⟩

theorem ofNat_next (n : ℕ) : BitVec.ofNat 8 n + (1 : Byte) = BitVec.ofNat 8 (n + 1) :=
  (BitVec.ofNat_add n 1).symm

theorem scanSlots_pass (hno : s.logical = some [])
    (hhere : ¬ (s.matched ∧ q.walk = none ∧ q.InRange v)) :
    scanSlots d q a (.slot s :: rest) v = (scanSlots d q a rest (v + 1)).map
      (.after (if q.Calls ∧ s.listed then [s.call v] else [])) := by
  rw [scanSlots, if_neg hhere]
  unfold Slot.logical at hno
  cases hlvm : s.isLvm with
  | false => rfl
  | true =>
    have hvolumes : s.volumes = some [] := by simpa [hlvm] using hno
    simp [hvolumes, scanLvmPv, Slot.call]

theorem scanSlots_found (hhere : s.matched ∧ q.walk = none ∧ q.InRange v) :
    scanSlots d q a (.slot s :: rest) v =
      some ⟨if q.Calls ∧ s.listed then [s.call v] else [], some s.foundHere⟩ := if_pos hhere

theorem readableSlots_cons (h : readableSlots (.slot s :: rest) = some slots) :
    ∃ tail, readableSlots rest = some tail ∧ slots = s :: tail := by
  obtain ⟨lvs, -, h⟩ := Option.bind_eq_some_iff.mp h
  obtain ⟨tail, htail, rfl⟩ := Option.map_eq_some_iff.mp h
  exact ⟨tail, htail, rfl⟩

/-- The numbered entries from number `n` on that are listed. -/
def listedFrom (slots : List Slot) (n : ℕ) : List (Slot × ℕ) :=
  (slots.zipIdx n).filter fun p => p.1.listed

theorem walk_eq (hwalk : q.walk = some true) (hread : readableSlots entries = some slots)
    (hno : ∀ s ∈ slots, s.logical = some []) (n : ℕ) :
    scanSlots d q a entries (BitVec.ofNat 8 n) =
      some ⟨(listedFrom slots n).map fun p => p.1.call (BitVec.ofNat 8 p.2), none⟩ := by
  induction entries generalizing slots n with
  | nil =>
    cases hread
    rfl
  | cons entry rest ih =>
    cases entry with
    | undefined => cases hread
    | unreadable =>
      cases hread
      rfl
    | slot s =>
      obtain ⟨tail, htail, rfl⟩ := readableSlots_cons hread
      have hrest := ih htail (fun t ht => hno t (List.mem_cons_of_mem s ht)) (n + 1)
      rw [scanSlots_pass (hno s List.mem_cons_self) (by simp [hwalk]), ofNat_next, hrest]
      cases hlisted : s.listed <;>
        simp [hlisted, hwalk, listedFrom, PartitionScan.after, PartitionQuery.Calls]

theorem search_eq (hwalk : q.walk = none) (hread : readableSlots entries = some slots)
    (hno : ∀ s ∈ slots, s.logical = some []) (n : ℕ) :
    scanSlots d q a entries (BitVec.ofNat 8 n) =
      some ⟨[], ((slots.zipIdx n).find? fun p =>
        p.1.matched ∧ q.InRange (BitVec.ofNat 8 p.2)).map fun p => p.1.foundHere⟩ := by
  induction entries generalizing slots n with
  | nil =>
    cases hread
    rfl
  | cons entry rest ih =>
    cases entry with
    | undefined => cases hread
    | unreadable =>
      cases hread
      rfl
    | slot s =>
      obtain ⟨tail, htail, rfl⟩ := readableSlots_cons hread
      by_cases hhere : s.matched = true ∧ q.InRange (BitVec.ofNat 8 n)
      · rw [scanSlots_found ⟨hhere.1, hwalk, hhere.2⟩, List.zipIdx_cons,
          List.find?_cons_of_pos (by simpa using hhere)]
        simp [hwalk, PartitionQuery.Calls]
      · have hrest := ih htail (fun t ht => hno t (List.mem_cons_of_mem s ht)) (n + 1)
        rw [scanSlots_pass (hno s List.mem_cons_self) (by tauto), ofNat_next, hrest,
          List.zipIdx_cons, List.find?_cons_of_neg (by simpa using hhere)]
        simp [hwalk, PartitionScan.after, PartitionQuery.Calls]

theorem nodup_zipIdx (slots : List Slot) (n : ℕ) : (slots.zipIdx n).Nodup := by
  refine List.Nodup.of_map Prod.snd ?_
  rw [List.zipIdx_map_snd]
  exact List.nodup_range'

theorem mem_listedFrom {p : Slot × ℕ} :
    p ∈ listedFrom slots 0 ↔ slots[p.2]? = some p.1 ∧ p.1.listed := by
  rw [listedFrom, List.mem_filter, List.mem_zipIdx_iff_getElem?]

theorem walk_nodup_iff :
    (((listedFrom slots 0).map fun p => p.1.call (BitVec.ofNat 8 p.2)).map VolumeCall.index).Nodup ↔
      ∀ i j s t, slots[i]? = some s → slots[j]? = some t → s.listed → t.listed →
        i % 256 = j % 256 → i = j := by
  have hnodup : (listedFrom slots 0).Nodup := (nodup_zipIdx slots 0).filter _
  rw [List.map_map, List.nodup_map_iff_inj_on hnodup]
  constructor
  · intro hinj i j s t hi hj hs ht hij
    have := hinj (s, i) (mem_listedFrom.mpr ⟨hi, hs⟩) (t, j) (mem_listedFrom.mpr ⟨hj, ht⟩)
      (BitVec.eq_of_toNat_eq (by simpa [Slot.call] using hij))
    exact congrArg Prod.snd this
  · intro hdistinct x hx y hy hxy
    obtain ⟨hi, hs⟩ := mem_listedFrom.mp hx
    obtain ⟨hj, ht⟩ := mem_listedFrom.mp hy
    have hplace : x.2 = y.2 := hdistinct x.2 y.2 x.1 y.1 hi hj hs ht
      (by simpa [Slot.call] using congrArg BitVec.toNat hxy)
    rw [hplace] at hi
    exact Prod.ext (Option.some.inj (hi.symm.trans hj)) hplace

/-! ## The entries of the two tables -/

theorem mem_of_readableSlots (hread : readableSlots entries = some slots) (hs : s ∈ slots) :
    .slot s ∈ entries := by
  induction entries generalizing slots with
  | nil =>
    cases hread
    cases hs
  | cons entry rest ih =>
    cases entry with
    | undefined => cases hread
    | unreadable =>
      cases hread
      cases hs
    | slot t =>
      obtain ⟨tail, htail, rfl⟩ := readableSlots_cons hread
      rcases List.mem_cons.mp hs with rfl | hs
      · exact List.mem_cons_self
      · exact List.mem_cons_of_mem _ (ih htail hs)

theorem length_of_readableSlots (hread : readableSlots entries = some slots) :
    slots.length ≤ entries.length := by
  induction entries generalizing slots with
  | nil =>
    cases hread
    exact le_rfl
  | cons entry rest ih =>
    cases entry with
    | undefined => cases hread
    | unreadable =>
      cases hread
      exact Nat.zero_le _
    | slot t =>
      obtain ⟨tail, htail, rfl⟩ := readableSlots_cons hread
      exact Nat.succ_le_succ (ih htail)

theorem gptEntry_eq_slot {header : GptHeader} {n : ℕ} (h : gptEntry d q header n = .slot s) :
    ∃ gpt, s = gptEntrySlot d q gpt := by
  unfold gptEntry at h
  dsimp only at h
  split at h
  · cases h
  · split at h
    · cases h
    · split at h
      · cases h
      · cases h
        exact ⟨_, rfl⟩

theorem mem_gptEntries (h : gptEntries d q = some entries) (hs : .slot s ∈ entries) :
    ∃ gpt, s = gptEntrySlot d q gpt := by
  unfold gptEntries at h
  split at h
  · cases h
    cases hs
  · obtain ⟨signature, -, h⟩ := Option.bind_eq_some_iff.mp h
    split at h
    · cases h
      cases hs
    · obtain ⟨bytes, -, h⟩ := Option.bind_eq_some_iff.mp h
      dsimp only at h
      split at h
      · cases h
      · cases h
        obtain ⟨n, -, hn⟩ := List.mem_map.mp hs
        exact gptEntry_eq_slot hn

/-- If an entry that matches is listed, all entries that match are, or they have different numbers
anyway. -/
theorem listed_of_matched (h : d.slots q = some slots) :
    slots.length ≤ 256 ∨
      ∀ s ∈ slots, ∀ t ∈ slots, s.matched → t.matched → s.listed → t.listed := by
  obtain ⟨entries, hentries, hread⟩ := Option.bind_eq_some_iff.mp h
  have hlength := length_of_readableSlots hread
  unfold Disk.entries at hentries
  split at hentries
  · cases hentries
    exact .inl (hlength.trans (by simp))
  · split at hentries
    · cases hentries
      exact .inl (hlength.trans (by simp))
    · obtain ⟨table, -, hentries⟩ := Option.bind_eq_some_iff.mp hentries
      split at hentries
      · refine .inr fun s hs t ht hsm htm hsl => ?_
        obtain ⟨gpt, rfl⟩ := mem_gptEntries hentries (mem_of_readableSlots hread hs)
        obtain ⟨other, rfl⟩ := mem_gptEntries hentries (mem_of_readableSlots hread ht)
        have hsame : fieldBytes gpt 0 16 = fieldBytes other 0 16 := by
          simp only [gptEntrySlot, matchGuidBinary, decide_eq_true_eq] at hsm htm
          rw [hsm, htm]
        simpa only [gptEntrySlot, hsame] using hsl
      · cases hentries
        exact .inl (hlength.trans (by simp [partitionEntries]))

/-! ## Searches for a number -/

theorem searching_inRange {i index : Byte} : (q.searching i).InRange index ↔ index = i := by
  constructor
  · rintro ⟨hstart, hend⟩
    exact BitVec.le_antisymm hend hstart
  · rintro rfl
    exact ⟨BitVec.le_refl index, BitVec.le_refl index⟩

theorem find_listed (hn : Numbered slots)
    (hlisted : slots.length ≤ 256 ∨
      ∀ s ∈ slots, ∀ t ∈ slots, s.matched → t.matched → s.listed → t.listed)
    {i : ℕ} (hi : slots[i]? = some s) (hs : s.listed) (hm : s.matched) :
    (slots.zipIdx.find? fun p => p.1.matched ∧ BitVec.ofNat 8 p.2 = BitVec.ofNat 8 i) =
      some (s, i) := by
  have hmem : (s, i) ∈ slots.zipIdx := List.mem_zipIdx_iff_getElem?.mpr hi
  cases hfind : slots.zipIdx.find? fun p => p.1.matched ∧ BitVec.ofNat 8 p.2 = BitVec.ofNat 8 i with
  | none =>
    have := List.find?_eq_none.mp hfind (s, i) hmem
    simp [hm] at this
  | some p =>
    have hp : slots[p.2]? = some p.1 :=
      List.mem_zipIdx_iff_getElem?.mp (List.mem_of_find?_eq_some hfind)
    have hfound := List.find?_some hfind
    rw [decide_eq_true_eq] at hfound
    have hnumber : p.2 % 256 = i % 256 := by simpa using congrArg BitVec.toNat hfound.2
    have hplace : p.2 = i := by
      rcases hlisted with hshort | hlisted
      · obtain ⟨hlt, -⟩ := List.getElem?_eq_some_iff.mp hp
        obtain ⟨hlt', -⟩ := List.getElem?_eq_some_iff.mp hi
        omega
      · have hpl := hlisted s (List.mem_of_getElem? hi) p.1 (List.mem_of_getElem? hp) hm hfound.1 hs
        exact hn.distinct hp hi hpl hs hnumber
    rw [hplace] at hp
    rw [← Option.some.inj (hp.symm.trans hi), ← hplace]

theorem Numbered.agrees (hn : Numbered slots) (h : d.slots q = some slots) (a : Byte) :
    NumberingAgrees d q a := by
  obtain ⟨entries, hentries, hread⟩ := Option.bind_eq_some_iff.mp h
  have hwalk : findPartitionOfType d q.walking a = _ := findPartitionOfType_eq.trans
    ((congrArg (Option.bind · _) hentries).trans (walk_eq rfl hread hn.noVolumes 0))
  refine ⟨_, hwalk, walk_nodup_iff.mpr fun i j s t => hn.distinct, fun c hc hm => ?_⟩
  obtain ⟨p, hp, rfl⟩ := List.mem_map.mp hc
  obtain ⟨hi, hs⟩ := mem_listedFrom.mp hp
  have hsearch : findPartitionOfType d (q.searching (BitVec.ofNat 8 p.2)) a = _ :=
    findPartitionOfType_eq.trans
      ((congrArg (Option.bind · _) hentries).trans (search_eq rfl hread hn.noVolumes 0))
  simp only [searching_inRange, find_listed hn (listed_of_matched h) hi hs hm] at hsearch
  exact ⟨_, _, hsearch, rfl, rfl⟩

/-! ## Tables with logical volumes -/

theorem walk_slot (hwalk : q.walk = some true) :
    scanSlots d q a (.slot s :: rest) v = s.logical.bind fun lvs =>
      (scanSlots d q a rest ((scanLvmPv d q a lvs v).visibleIndex + 1)).map
        (.after ((if s.listed then [s.call v] else []) ++ (scanLvmPv d q a lvs v).calls)) := by
  rw [scanSlots, if_neg (by simp [hwalk]), Slot.logical]
  cases hlvm : s.isLvm with
  | false => simp [scanLvmPv, hwalk, PartitionQuery.Calls, Slot.call]
  | true =>
    cases s.volumes with
    | none => rfl
    | some lvs =>
      cases (scanLvmPv d q a lvs v).found <;>
        simp [hwalk, PartitionQuery.Calls, Slot.call]

theorem readableSlots_of_walk (hwalk : q.walk = some true) {r : PartitionScan}
    (h : scanSlots d q a entries v = some r) : ∃ slots, readableSlots entries = some slots := by
  induction entries generalizing v r with
  | nil => exact ⟨[], rfl⟩
  | cons entry rest ih =>
    cases entry with
    | undefined => cases h
    | unreadable => exact ⟨[], rfl⟩
    | slot s =>
      rw [walk_slot hwalk] at h
      obtain ⟨lvs, hlvs, h⟩ := Option.bind_eq_some_iff.mp h
      obtain ⟨r', hr', -⟩ := Option.map_eq_some_iff.mp h
      obtain ⟨tail, htail⟩ := ih hr'
      exact ⟨s :: tail, by simp [readableSlots, hlvs, htail]⟩

theorem scanLvmPv_calls (hwalk : q.walk = some true) {lv : Extent} {lvs : List Extent} :
    a ∈ (scanLvmPv d q a (lv :: lvs) v).calls.map VolumeCall.index := by
  have hcalls : q.Calls := hwalk
  by_cases hfound : q.InRange v ∧ q.lvmMatches = true <;> simp [scanLvmPv, hcalls, hfound]

/-- A listed physical volume with a logical volume can be given a counter at whose address the two
have the same number. -/
theorem exists_clash (hwalk : q.walk = some true) (hread : readableSlots entries = some slots)
    (hlisted : ∀ s ∈ slots, s.isLvm → s.listed) (hvolumes : ∃ s ∈ slots, s.logical ≠ some []) :
    ∃ a, ∀ r, scanSlots d q a entries v = some r → ¬ (r.calls.map VolumeCall.index).Nodup := by
  induction entries generalizing slots v with
  | nil =>
    cases hread
    obtain ⟨s, hs, -⟩ := hvolumes
    cases hs
  | cons entry rest ih =>
    cases entry with
    | undefined => cases hread
    | unreadable =>
      cases hread
      obtain ⟨s, hs, -⟩ := hvolumes
      cases hs
    | slot s =>
      obtain ⟨tail, htail, rfl⟩ := readableSlots_cons hread
      by_cases hno : s.logical = some []
      · obtain ⟨t, ht, hne⟩ := hvolumes
        have httail : t ∈ tail := (List.mem_cons.mp ht).resolve_left (fun heq => hne (heq ▸ hno))
        obtain ⟨a, ha⟩ := ih (v := v + 1) htail
          (fun u hu => hlisted u (List.mem_cons_of_mem s hu)) ⟨t, httail, hne⟩
        refine ⟨a, fun r hr => ?_⟩
        rw [walk_slot hwalk, hno] at hr
        obtain ⟨r', hr', rfl⟩ := Option.map_eq_some_iff.mp hr
        intro hnodup
        rw [PartitionScan.after, List.map_append] at hnodup
        exact ha r' hr' hnodup.of_append_right
      · have hlvm : s.isLvm = true := by
          by_contra hnot
          exact hno (by simp [Slot.logical, hnot])
        refine ⟨v, fun r hr => ?_⟩
        rw [walk_slot hwalk] at hr
        obtain ⟨lvs, hlvs, hr⟩ := Option.bind_eq_some_iff.mp hr
        obtain ⟨r', -, rfl⟩ := Option.map_eq_some_iff.mp hr
        cases lvs with
        | nil => exact absurd hlvs hno
        | cons lv lvs =>
          have hcall : v ∈ (scanLvmPv d q v (lv :: lvs) v).calls.map VolumeCall.index :=
            scanLvmPv_calls hwalk
          simp [PartitionScan.after, hlisted s List.mem_cons_self hlvm, Slot.call] at hcall ⊢
          tauto

/-- The numbers of all walks can be relied on if no logical volume can be used and the listed
entries have different numbers; and only then, as far as listed entries hold the volumes. -/
theorem numberingAgrees_iff (d : Disk) (q : PartitionQuery) :
    ((∃ slots, d.slots q = some slots ∧ Numbered slots) → ∀ a, NumberingAgrees d q a) ∧
      ((∀ slots, d.slots q = some slots → ∀ s ∈ slots, s.isLvm → s.listed) →
        (∀ a, NumberingAgrees d q a) → ∃ slots, d.slots q = some slots ∧ Numbered slots) := by
  refine ⟨fun ⟨slots, hslots, hn⟩ => hn.agrees hslots, fun hlisted hagrees => ?_⟩
  obtain ⟨walk, hwalk, hnodup, -⟩ := hagrees 0
  rw [findPartitionOfType_eq] at hwalk
  obtain ⟨entries, hentries, hscan⟩ := Option.bind_eq_some_iff.mp hwalk
  obtain ⟨slots, hread⟩ := readableSlots_of_walk rfl hscan
  have hslots : d.slots q = some slots := Option.bind_eq_some_iff.mpr ⟨entries, hentries, hread⟩
  have hno : ∀ s ∈ slots, s.logical = some [] := by
    by_contra hvolumes
    push Not at hvolumes
    obtain ⟨a, ha⟩ := exists_clash (d := d) (v := 0) (q := q.walking) rfl hread
      (hlisted slots hslots) hvolumes
    obtain ⟨walk, hwalk, hnodup, -⟩ := hagrees a
    rw [findPartitionOfType_eq] at hwalk
    obtain ⟨entries', hentries', hscan⟩ := Option.bind_eq_some_iff.mp hwalk
    obtain rfl := Option.some.inj (hentries.symm.trans hentries')
    exact ha walk hscan hnodup
  refine ⟨slots, hslots, hno, fun hi hj hs ht hij => ?_⟩
  have hcalls := hscan.symm.trans (walk_eq rfl hread hno 0)
  rw [Option.some.inj hcalls] at hnodup
  exact walk_nodup_iff.mp hnodup _ _ _ _ hi hj hs ht hij

theorem Numbered.of_plain (hlength : slots.length ≤ 256) (hplain : ∀ s ∈ slots, s.isLvm = false) :
    Numbered slots := by
  refine ⟨fun s hs => by simp [Slot.logical, hplain s hs], fun hi hj _ _ hij => ?_⟩
  obtain ⟨hi, -⟩ := List.getElem?_eq_some_iff.mp hi
  obtain ⟨hj, -⟩ := List.getElem?_eq_some_iff.mp hj
  omega

/-! ## A disk with one partition -/

def sectorOf (bytes : List Byte) : List Byte := (bytes ++ List.replicate 512 0).take 512

def diskOf (sectors : List (List Byte)) : Disk where
  blockSize := 512
  readBlock lba := some (sectorOf (sectors.getD lba []))
  length_of_readBlock h := by
    cases h
    rw [sectorOf, List.length_take, List.length_append, List.length_replicate]
    omega

def oneEntryMbr (systemid : Byte) : List Byte :=
  List.replicate 0x1BE 0 ++ [0, 0, 0, 0, systemid, 0, 0, 0, 1, 0, 0, 0, 100, 0, 0, 0]

def pvLabel : List Byte :=
  bytesOf "LABELONE" ++ List.replicate 12 0 ++ [32, 0, 0, 0] ++ bytesOf "LVM2 001" ++
    List.replicate 56 0 ++ [0, 4, 0, 0, 0, 0, 0, 0, 106, 0, 0, 0, 0, 0, 0, 0]

def pvMetadata : List Byte :=
  bytesOf ("extent_size = 8 segment_count = 1 start_extent = 0 extent_count = 1 stripe_count = 1 "
    ++
    "stripes = [pv0, 0, 0]")

def ext2Query : PartitionQuery := ⟨0x83, gptLinuxFilesystem, 0, 255, none⟩

theorem numberingAgrees_iff_plain :
    ∀ a, NumberingAgrees (diskOf [oneEntryMbr 0x83]) ext2Query a := by
  have hplain : ((diskOf [oneEntryMbr 0x83]).slots ext2Query).map (fun slots =>
      decide (slots.length ≤ 256) && slots.all fun s => !s.isLvm) = some true := by decide +kernel
  obtain ⟨slots, hslots, hall⟩ := Option.map_eq_some_iff.mp hplain
  simp only [Bool.and_eq_true, decide_eq_true_eq, List.all_eq_true, Bool.not_eq_true'] at hall
  exact (numberingAgrees_iff _ _).1 ⟨slots, hslots, .of_plain hall.1 hall.2⟩

/-- The logical volume is told by the address of the counter, and has the number of the physical
volume that holds it. -/
theorem lvmDisk_not_numberingAgrees :
    ¬ NumberingAgrees (diskOf [oneEntryMbr 0x8E, [], pvLabel, pvMetadata]) ext2Query 16 := by
  rintro ⟨walk, hwalk, -, hfind⟩
  have hcalls : (findPartitionOfType (diskOf [oneEntryMbr 0x8E, [], pvLabel, pvMetadata])
      ext2Query.walking 16).map (fun r => r.calls.any fun c => c.matched && c.index == 16) =
      some true := by decide +kernel
  have hsearch : (findPartitionOfType (diskOf [oneEntryMbr 0x8E, [], pvLabel, pvMetadata])
      (ext2Query.searching 16) 16).map (fun r => r.found.isSome) = some false := by decide +kernel
  rw [hwalk, Option.map_some, Option.some.injEq, List.any_eq_true] at hcalls
  obtain ⟨c, hc, hcall⟩ := hcalls
  simp only [Bool.and_eq_true, beq_iff_eq] at hcall
  obtain ⟨search, found, hsome, hfound, -⟩ := hfind c hc hcall.1
  rw [hcall.2] at hsome
  rw [hsome, Option.map_some, hfound] at hsearch
  cases hsearch

end RetroRocket
