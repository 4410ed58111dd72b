import Mathlib.Data.Set.Lattice
import Mathlib.Order.CompletePartialOrder
import RetroRocket.GptWriter
import RetroRocket.PartitionNumbering

/-!
# An installation

The backup of the entries reaches into the sector of the backup header, which is written over it.
The other parts of the layout are right for all sizes the installer goes on with. The boot image
stays in its partition exactly if it unpacks to no more than the end of its file says, and a ramdisk
is formatted to its size exactly if its sectors are bytes.
-/

namespace RetroRocket

variable {d : Disk} {dev : BlockDevice} {l : GptLayout} {rand : ℕ → ℕ} {calls : List InflateCall}
  {a : Byte}

/-! ## The layout -/

theorem firstUsable_eq : firstUsable = 2048 := by decide

theorem ptesSectors_eq : ptesSectors = 32 := rfl

namespace GptLayout

theorem esp_le (l : GptLayout) :
    firstUsable ≤ espLastLba l.espBytes ∧
      espLastLba l.espBytes + 1 = firstUsable + espSectors l.espBytes ∧
      espLastLba l.espBytes ≤ 2 ^ 24 := by
  have hpos := l.espBytes_pos
  have hlt := l.espBytes_lt
  have hsectors : 0 < espSectors l.espBytes ∧ espSectors l.espBytes ≤ 2 ^ 23 := by
    unfold espSectors sectorBytesRequired
    omega
  unfold espLastLba
  rw [firstUsable_eq]
  omega

theorem esp_lt_rfs (l : GptLayout) : espLastLba l.espBytes < rfsFirstLba l.espBytes := by
  have hle : espLastLba l.espBytes + 1 ≤ alignUp (espLastLba l.espBytes + 1) (2 ^ 11) :=
    le_alignUp (by have := l.esp_le.2.2; omega)
  exact hle

theorem backupPtesLba_add (l : GptLayout) :
    backupPtesLba l.lbaCount + ptesSectors = l.lbaCount := by
  have := l.lbaCount_ge
  unfold backupPtesLba
  rw [ptesSectors_eq]
  omega

theorem lastUsable_lt (l : GptLayout) : lastUsable l.lbaCount < backupPtesLba l.lbaCount := by
  have hadd := l.backupPtesLba_add
  have hesp := l.esp_fits
  unfold lastUsable at hesp ⊢
  omega

theorem backupHeader_subset (l : GptLayout) : l.backupHeader.sectors ⊆ l.backupPtes.sectors := by
  intro lba hlba
  have hadd := l.backupPtesLba_add
  have heq : lba = l.lbaCount - 1 := le_antisymm hlba.2 hlba.1
  rw [ptesSectors_eq] at hadd
  constructor
  · change backupPtesLba l.lbaCount ≤ lba
    omega
  · change lba ≤ backupPtesLba l.lbaCount + ptesSectors - 1
    rw [ptesSectors_eq]
    omega

theorem pairwise_lt (l : GptLayout) :
    [l.protectiveMbr, l.primaryHeader, l.primaryPtes, l.esp, l.rfs, l.backupPtes].Pairwise
      fun r s => r.last < s.first := by
  have hesp := l.esp_le.1
  have hrfs := l.esp_lt_rfs
  have hfits := l.rfs_fits
  have hlast := l.lastUsable_lt
  rw [firstUsable_eq] at hesp
  simp [protectiveMbr, primaryHeader, primaryPtes, esp, rfs, backupPtes,
    firstUsable_eq, ptesSectors_eq,
    primaryPtesLba]
  omega

theorem inside (l : GptLayout) : ∀ r ∈ l.ranges, r.sectors ⊆ Set.Iio l.lbaCount := by
  have hadd := l.backupPtesLba_add
  have hesp := l.esp_fits
  have hlast := l.lastUsable_lt
  have hcount := l.lbaCount_ge
  have hends : ∀ r ∈ l.ranges, r.last < l.lbaCount := by
    rw [ptesSectors_eq] at hadd
    simp [ranges, protectiveMbr, primaryHeader, primaryPtes, GptLayout.esp, rfs, backupPtes,
      backupHeader, ptesSectors_eq, primaryPtesLba]
    omega
  exact fun r hr lba hlba => lt_of_le_of_lt hlba.2 (hends r hr)

end GptLayout

theorem LbaRange.disjoint_of_lt {r s : LbaRange} (h : r.last < s.first) :
    Disjoint r.sectors s.sectors :=
  Set.disjoint_left.mpr fun _ hr hs => absurd (lt_of_le_of_lt hr.2 h) (not_lt.mpr hs.1)

/-! ## Bytes of the table -/

theorem fieldBytes_append {n k : ℕ} (pre mid post : List Byte) (hpre : pre.length = n)
    (hmid : mid.length = k) : fieldBytes (pre ++ (mid ++ post)) n k = mid := by
  subst hpre hmid
  simp [fieldBytes]

theorem structAt_append {n k : ℕ} (pre mid post : List Byte) (hpre : pre.length = n)
    (hmid : mid.length = k) : structAt (pre ++ (mid ++ post)) n k = some mid := by
  rw [structAt, if_pos (by simp [hpre, hmid]), fieldBytes_append pre mid post hpre hmid]

theorem length_guidToBinary (guid : TextGuid) : (guidToBinary guid).length = 16 := rfl

theorem length_randomGuidV4 (r1 r2 : ℕ) : (randomGuidV4 r1 r2).length = 16 := by
  simp [randomGuidV4]

def entryFields (type : TextGuid) (unique : BinaryGuid) (r : LbaRange) : List Byte :=
  guidToBinary type ++ (unique ++ (leBytes 8 r.first ++ leBytes 8 r.last))

theorem gptEntryBytes_eq (type : TextGuid) (unique : BinaryGuid) (r : LbaRange) (name : String) :
    gptEntryBytes type unique r name =
      entryFields type unique r ++ (leBytes 8 0 ++ makeUtf16leName name) := by
  simp [gptEntryBytes, entryFields]

theorem length_entryFields {type : TextGuid} {unique : BinaryGuid} {r : LbaRange}
    (hunique : unique.length = 16) : (entryFields type unique r).length = 48 := by
  simp [entryFields, length_guidToBinary, hunique]

section

variable {q : PartitionQuery} {type : TextGuid} {unique : BinaryGuid} {r : LbaRange}

theorem entryFields_type : fieldBytes (entryFields type unique r) 0 16 = guidToBinary type :=
  fieldBytes_append [] (guidToBinary type) _ rfl (length_guidToBinary type)

theorem gptEntrySlot_matched : (gptEntrySlot d q (entryFields type unique r)).matched =
    matchGuidBinary (guidToBinary type) (guidToBinary q.partitionTypeGuid) := by
  simp only [gptEntrySlot, entryFields_type]

theorem gptEntrySlot_isLvm : (gptEntrySlot d q (entryFields type unique r)).isLvm =
    matchGuidBinary (guidToBinary type) (guidToBinary gptLinuxLvm) := by
  simp only [gptEntrySlot, entryFields_type]

theorem gptEntrySlot_extent (hunique : unique.length = 16) (hle : r.first ≤ r.last)
    (hlast : r.last + 1 < 2 ^ 64) :
    (gptEntrySlot d q (entryFields type unique r)).extent = ⟨r.first, r.count⟩ := by
  have hfirst := fieldBytes_append (n := 32) (guidToBinary type ++ unique) (leBytes 8 r.first)
    (leBytes 8 r.last) (by simp [length_guidToBinary, hunique]) (length_leBytes 8 _)
  have hend := fieldBytes_append (n := 40) (guidToBinary type ++ unique ++ leBytes 8 r.first)
    (leBytes 8 r.last) [] (by simp [length_guidToBinary, hunique]) (length_leBytes 8 _)
  simp only [List.append_assoc, List.append_nil] at hfirst hend
  simp only [gptEntrySlot, field, entryFields, hfirst, hend, LbaRange.count]
  rw [leNat_leBytes (by omega), leNat_leBytes (by omega), sub64_of_le hle (by omega),
    u64_of_lt (by omega)]

end

/-! ## The writes -/

theorem readBlock_below {w : LbaWrite} {lba : ℕ} (h : lba < w.lba) :
    (d.writeLbas w).readBlock lba = d.readBlock lba := if_neg (by omega)

theorem readBlock_foldl {ws : List LbaWrite} {lba : ℕ} (h : ∀ w ∈ ws, lba < w.lba) :
    (ws.foldl Disk.writeLbas d).readBlock lba = d.readBlock lba := by
  induction ws generalizing d with
  | nil => rfl
  | cons w ws ih =>
    rw [List.foldl_cons, ih fun v hv => h v (List.mem_cons_of_mem w hv)]
    exact readBlock_below (h w List.mem_cons_self)

theorem blockSize_foldl (ws : List LbaWrite) :
    (ws.foldl Disk.writeLbas d).blockSize = d.blockSize := by
  induction ws generalizing d with
  | nil => rfl
  | cons w ws ih => exact ih

theorem readBlock_writeLbas {w : LbaWrite} (h : d.blockSize ≤ w.bytes.length) :
    (d.writeLbas w).readBlock w.lba = some (fieldBytes w.bytes 0 d.blockSize) := by
  change (if _ then _ else _) = _
  rw [if_pos (by simpa using h), Nat.sub_self, Nat.zero_mul]

theorem le_of_mem_finalWrite {w : LbaWrite} {buffer : List Byte} {lba : ℕ}
    (hw : w ∈ finalWrite buffer lba) : lba ≤ w.lba := by
  unfold finalWrite at hw
  split at hw
  · cases hw
  · simp at hw
    simp [hw]

theorem le_of_mem_inflateLoop {w : LbaWrite} {buffer : List Byte} {lba : ℕ}
    (hw : w ∈ inflateLoop calls buffer lba) : lba ≤ w.lba := by
  have hafter : ∀ {result next buffer lba}, (w ∈ next → lba ≤ w.lba) →
      w ∈ afterInflate result next buffer lba → lba ≤ w.lba := by
    intro result next buffer lba hnext hw
    cases result with
    | ok => exact hnext hw
    | streamEnd => exact le_of_mem_finalWrite hw
    | error => cases hw
  induction calls generalizing buffer lba with
  | nil => cases hw
  | cons call calls ih =>
    rw [inflateLoop] at hw
    split at hw
    · rcases List.mem_cons.mp hw with rfl | hw
      · exact le_rfl
      · exact (Nat.le_add_right _ _).trans (hafter ih hw)
    · exact hafter ih hw

/-! ## The boot image -/

def unpacked : List InflateCall → List Byte
  | [] => []
  | call :: calls => call.output ++ if call.result = .ok then unpacked calls else []

def StreamEnds : List InflateCall → Prop
  | [] => False
  | call :: calls => call.result = .streamEnd ∨ call.result = .ok ∧ StreamEnds calls

instance decidableStreamEnds : (calls : List InflateCall) → Decidable (StreamEnds calls)
  | [] => inferInstanceAs (Decidable False)
  | _ :: calls =>
    have := decidableStreamEnds calls
    inferInstanceAs (Decidable (_ ∨ _ ∧ _))

/-- `inflate` adds no more than there is room for. -/
def FitsBuffer : ℕ → List InflateCall → Prop
  | _, [] => True
  | len, call :: calls =>
    len + call.output.length ≤ chunkBytes ∧
      FitsBuffer (if len + call.output.length = chunkBytes then 0 else
        len + call.output.length) calls

/-- The sectors that so many bytes take: all that they reach into at the end of the stream, and
those of whole buffers otherwise. -/
def streamedSectors (ends : Prop) [Decidable ends] (n : ℕ) : ℕ :=
  if ends then (n + (sectorBytesRequired - 1)) / sectorBytesRequired
  else chunkBytes / sectorBytesRequired * (n / chunkBytes)

theorem streamedSectors_chunk (ends : Prop) [Decidable ends] (n : ℕ) :
    streamedSectors ends (chunkBytes + n) = 128 + streamedSectors ends n := by
  unfold streamedSectors chunkBytes sectorBytesRequired
  split <;> omega

theorem LbaWrite.sectors_subset_iff {w : LbaWrite} {r : LbaRange} (hfirst : r.first ≤ w.lba)
    (hlast : w.lba ≤ r.last + 1) :
    w.sectors ⊆ r.sectors ↔ w.lba + w.bytes.length / sectorBytesRequired ≤ r.last + 1 := by
  constructor
  · intro hsub
    by_contra hnot
    have := hsub (show r.last + 1 ∈ w.sectors from ⟨hlast, by omega⟩)
    exact absurd this.2 (by omega)
  · intro hle lba hlba
    have := hlba.2
    exact ⟨hfirst.trans hlba.1, by omega⟩

theorem finalWrite_inside_iff {buffer : List Byte} {lba : ℕ} {r : LbaRange} (hfirst : r.first ≤ lba)
    (hlast : lba ≤ r.last + 1) :
    (∀ w ∈ finalWrite buffer lba, w.sectors ⊆ r.sectors) ↔
      lba + (buffer.length + (sectorBytesRequired - 1)) / sectorBytesRequired ≤ r.last + 1 := by
  unfold finalWrite
  by_cases hempty : buffer = []
  · subst hempty
    simpa [sectorBytesRequired] using hlast
  · rw [if_neg hempty]
    simp only [List.forall_mem_singleton]
    rw [LbaWrite.sectors_subset_iff hfirst hlast, List.length_append, List.length_replicate]
    by_cases hpad : buffer.length % sectorBytesRequired = 0
    · rw [if_pos hpad]
      dsimp only [sectorBytesRequired] at hpad ⊢
      omega
    · rw [if_neg hpad]
      dsimp only [sectorBytesRequired] at hpad ⊢
      omega

theorem inflateLoop_inside_iff {buffer : List Byte} {lba : ℕ} {r : LbaRange}
    (hbuffer : buffer.length < chunkBytes) (hfits : FitsBuffer buffer.length calls)
    (hfirst : r.first ≤ lba) (hlast : lba ≤ r.last + 1) :
    (∀ w ∈ inflateLoop calls buffer lba, w.sectors ⊆ r.sectors) ↔
      lba + streamedSectors (StreamEnds calls) (buffer.length + (unpacked calls).length) ≤
        r.last + 1 := by
  induction calls generalizing buffer lba with
  | nil =>
    have hnone : streamedSectors (StreamEnds []) (buffer.length + (unpacked []).length) = 0 := by
      rw [streamedSectors, if_neg (by exact not_false)]
      simp [unpacked, Nat.div_eq_of_lt hbuffer]
    rw [hnone]
    simpa [inflateLoop] using hlast
  | cons call calls ih =>
    obtain ⟨hroom, hrest⟩ := hfits
    have hlen : (buffer ++ call.output).length = buffer.length + call.output.length := by simp
    have hafter : ∀ {b : List Byte} {m : ℕ}, b.length < chunkBytes → FitsBuffer b.length calls →
        r.first ≤ m → m ≤ r.last + 1 →
        ((∀ w ∈ afterInflate call.result (inflateLoop calls b m) b m, w.sectors ⊆ r.sectors) ↔
          m + streamedSectors (StreamEnds (call :: calls))
            (b.length + if call.result = .ok then (unpacked calls).length else
                0) ≤ r.last + 1) := by
      intro b m hb hfits hm hm'
      cases hresult : call.result with
      | ok => simpa [afterInflate, StreamEnds, hresult] using ih hb hfits hm hm'
      | streamEnd =>
        simpa [afterInflate, StreamEnds, hresult, streamedSectors] using
          finalWrite_inside_iff hm hm'
      | error =>
        simpa [afterInflate, StreamEnds, hresult, streamedSectors, Nat.div_eq_of_lt hb] using hm'
    have hunpacked : buffer.length + (unpacked (call :: calls)).length =
        (buffer ++ call.output).length + if call.result = .ok then
            (unpacked calls).length else 0 := by
      rw [unpacked, hlen, List.length_append, Nat.add_assoc]
      split <;> simp
    rw [inflateLoop, hunpacked]
    rw [← hlen] at hrest hroom
    by_cases hfull : (buffer ++ call.output).length = chunkBytes
    · rw [if_pos hfull] at hrest
      simp only [hfull, if_true, List.forall_mem_cons, streamedSectors_chunk]
      rw [LbaWrite.sectors_subset_iff hfirst hlast]
      have hsectors : chunkBytes / sectorBytesRequired = 128 := rfl
      dsimp only
      rw [hfull, hsectors]
      by_cases hin : lba + 128 ≤ r.last + 1
      · have hnext := hafter (b := []) (m := lba + 128) (by decide) hrest (by omega) hin
        rw [List.length_nil, Nat.zero_add] at hnext
        rw [and_iff_right hin, hnext, Nat.add_assoc]
      · refine iff_of_false (fun h => hin h.1) ?_
        omega
    · rw [if_neg hfull] at hrest
      simp only [hfull, if_false]
      exact hafter (lt_of_le_of_ne hroom hfull) hrest hfirst hlast

def ImageFits (l : GptLayout) (calls : List InflateCall) : Prop :=
  streamedSectors (StreamEnds calls) (unpacked calls).length ≤ espSectors l.espBytes

theorem espWrites_inside_iff (l : GptLayout) (hfits : FitsBuffer 0 calls) :
    (∀ w ∈ espWrites calls, w.sectors ⊆ l.esp.sectors) ↔ ImageFits l calls := by
  obtain ⟨hfirst, hnext, -⟩ := l.esp_le
  have hstart : firstUsable ≤ l.esp.last + 1 := hfirst.trans (Nat.le_succ _)
  have hiff :=
    inflateLoop_inside_iff (r := l.esp) (show ([] : List Byte).length < _ by decide) hfits
    le_rfl hstart
  rw [List.length_nil, Nat.zero_add] at hiff
  refine hiff.trans ?_
  change firstUsable + _ ≤ espLastLba l.espBytes + 1 ↔ _
  rw [hnext]
  exact Nat.add_le_add_iff_left

/-! ## The table that is found -/

theorem length_mbr (lbaCount : ℕ) : (protectiveMbrBytes lbaCount).length = 512 := by
  simp only [protectiveMbrBytes, List.length_append, List.length_replicate, length_leBytes,
    List.length_cons, List.length_nil]

theorem length_gptEntryBytes {type : TextGuid} {unique : BinaryGuid} {r : LbaRange} {name : String}
    (hunique : unique.length = 16) (hname : (makeUtf16leName name).length = 72) :
    (gptEntryBytes type unique r name).length = 128 := by
  simp [gptEntryBytes, length_guidToBinary, hunique, hname]

theorem length_ptes (l : GptLayout) (rand : ℕ → ℕ) : (ptesBytes l rand).length = 32 * 512 := by
  rw [ptesBytes, List.length_append, List.length_append, List.length_replicate,
    length_gptEntryBytes (length_randomGuidV4 _ _) (by decide),
    length_gptEntryBytes (length_randomGuidV4 _ _) (by decide)]

theorem length_headerSector (l : GptLayout) (rand : ℕ → ℕ) (this alternative ptes : ℕ) :
    (headerSector (gptHeaderBytes l rand this alternative ptes)).length = 512 := by
  have hsignature : (bytesOf "EFI PART").length = 8 := by decide
  simp only [headerSector, gptHeaderBytes, List.length_append,
    List.length_replicate, length_leBytes,
    length_randomGuidV4, hsignature]

theorem fieldBytes_whole {bytes : List Byte} {n : ℕ} (h : bytes.length = n) :
    fieldBytes bytes 0 n = bytes := by
  rw [fieldBytes, List.drop_zero, List.take_of_length_le h.le]

theorem installed_readBlock (l : GptLayout) (rand : ℕ → ℕ) (calls : List InflateCall)
    (hsize : dev.blockSize = 512) :
    (installed dev l rand calls).readBlock 0 = some (protectiveMbrBytes l.lbaCount) ∧
      (installed dev l rand calls).readBlock 1 =
        some (headerSector (gptHeaderBytes l rand 1 (l.lbaCount - 1) primaryPtesLba)) ∧
      (installed dev l rand calls).readBlock 2 = some (fieldBytes (ptesBytes l rand) 0 512) := by
  have hbackup : 2 < backupPtesLba l.lbaCount ∧ 2 < l.lbaCount - 1 := by
    have hadd := l.backupPtesLba_add
    have hesp := l.esp_le.1
    have hfits := l.esp_fits
    have hlast := l.lastUsable_lt
    rw [firstUsable_eq] at hesp
    rw [ptesSectors_eq] at hadd
    omega
  have hlater : ∀ {d : Disk} {lba : ℕ}, lba ≤ 2 →
      ((tableWrites l rand ++ espWrites calls).foldl Disk.writeLbas d).readBlock lba =
        (((tableWrites l rand).take 3).foldl Disk.writeLbas d).readBlock lba := by
    intro d lba hlba
    have hsplit : tableWrites l rand ++ espWrites calls =
        (tableWrites l rand).take 3 ++ ((tableWrites l rand).drop 3 ++ espWrites calls) := rfl
    rw [hsplit, List.foldl_append]
    refine readBlock_foldl fun w hw => ?_
    rcases List.mem_append.mp hw with hw | hw
    · simp [tableWrites] at hw
      rcases hw with rfl | rfl <;> dsimp only <;> omega
    · have := le_of_mem_inflateLoop hw
      rw [firstUsable_eq] at this
      omega
  have hptes := length_ptes l rand
  have hheader := length_headerSector l rand 1 (l.lbaCount - 1) primaryPtesLba
  refine ⟨?_, ?_, ?_⟩
  · refine (hlater (by omega)).trans ((readBlock_below Nat.one_pos).trans
      ((readBlock_below Nat.two_pos).trans ?_))
    refine (readBlock_writeLbas (by simp [hsize, length_mbr])).trans ?_
    rw [hsize, fieldBytes_whole (length_mbr _)]
  · refine (hlater (by omega)).trans ((readBlock_writeLbas ?_).trans ?_)
    · exact (hsize.trans hheader.symm).le
    · change some (fieldBytes _ 0 dev.blockSize) = _
      rw [hsize, fieldBytes_whole hheader]
  · -- the header takes one sector, so the second sector is the first of the entries
    refine (hlater le_rfl).trans ((if_neg ?_).trans ((readBlock_writeLbas ?_).trans ?_))
    · rintro ⟨-, hle⟩
      change (2 - 1 + 1) * dev.blockSize ≤ _ at hle
      rw [hsize, hheader] at hle
      omega
    · change dev.blockSize ≤ (ptesBytes l rand).length
      rw [hsize, hptes]
      omega
    · exact congrArg (fun n => some (fieldBytes (ptesBytes l rand) 0 n)) hsize

theorem mbr_isProtective (lbaCount : ℕ) : ∃ table,
    structAt (protectiveMbrBytes lbaCount) 0x1BE 64 = some table ∧
      IsProtective (partitionEntry table 0) := by
  have htable := structAt_append (n := 0x1BE) (k := 64) (List.replicate 0x1BE 0)
    ([0, 0, 0, 0, 0xEE, 0, 0, 0] ++ leBytes 4 1 ++ leBytes 4 (min (lbaCount - 1) 0xFFFFFFFF) ++
      List.replicate 48 0) [0x55, 0xAA] List.length_replicate (by
        simp only [List.length_append, List.length_replicate, length_leBytes, List.length_cons,
          List.length_nil])
  rw [← List.append_assoc, ← List.append_assoc] at htable
  exact ⟨_, htable, rfl, rfl, rfl⟩

theorem headerSector_eq (l : GptLayout) (rand : ℕ → ℕ) (this alternative ptes : ℕ) :
    ∃ pre post : List Byte, pre.length = 64 ∧
      headerSector (gptHeaderBytes l rand this alternative ptes) = bytesOf "EFI PART" ++
        (pre ++ (leBytes 8 ptes ++ (leBytes 4 gptPteCount ++
        (leBytes 4 gptPteSizeBytes ++ post)))) := by
  refine ⟨leBytes 4 0x00010000 ++
    (leBytes 4 92 ++ (leBytes 4 ?_ ++ (leBytes 4 0 ++ (leBytes 8 this ++
    (leBytes 8 alternative ++ (leBytes 8 firstUsable ++ (leBytes 8 (lastUsable l.lbaCount) ++
      randomGuidV4 (rand 4) (rand 5)))))))), leBytes 4 ?_ ++ List.replicate (512 - 92) 0, ?_, ?_⟩
  rotate_left 2
  · simp only [List.length_append, length_leBytes, length_randomGuidV4]
  · rw [headerSector, gptHeaderBytes]
    simp only [List.append_assoc]
    rfl

theorem gptEntries_installed {d : Disk} {q : PartitionQuery} {this alternative : ℕ}
    (h : d.readBlock 1 = some
      (headerSector (gptHeaderBytes l rand this alternative primaryPtesLba))) :
    gptEntries d q = some ((List.range 128).map (gptEntry d q ⟨2, 128, 128⟩)) := by
  obtain ⟨pre, post, hpre, heq⟩ := headerSector_eq l rand this alternative primaryPtesLba
  rw [heq] at h
  have hlength : (bytesOf "EFI PART").length = 8 := by decide
  have hsignature := structAt_append (n := 0) [] (bytesOf "EFI PART")
    (pre ++ (leBytes 8 primaryPtesLba ++
      (leBytes 4 gptPteCount ++ (leBytes 4 gptPteSizeBytes ++ post)))) rfl hlength
  have hbytes := structAt_append (n := 0) (k := 88) [] (bytesOf "EFI PART" ++
    (pre ++ (leBytes 8 primaryPtesLba ++ (leBytes 4 gptPteCount ++ leBytes 4 gptPteSizeBytes))))
      post
    rfl (by simp [hlength, hpre])
  have hptes := fieldBytes_append (n := 72) (bytesOf "EFI PART" ++ pre) (leBytes 8 primaryPtesLba)
    (leBytes 4 gptPteCount ++ leBytes 4 gptPteSizeBytes)
      (by simp [hlength, hpre]) (length_leBytes 8 _)
  have hcount := fieldBytes_append (n := 80) (bytesOf "EFI PART" ++ pre ++ leBytes 8 primaryPtesLba)
    (leBytes 4 gptPteCount) (leBytes 4 gptPteSizeBytes)
      (by simp [hlength, hpre]) (length_leBytes 4 _)
  have hentry := fieldBytes_append (n := 84)
    (bytesOf "EFI PART" ++ pre ++ leBytes 8 primaryPtesLba ++ leBytes 4 gptPteCount)
    (leBytes 4 gptPteSizeBytes) [] (by simp [hlength, hpre]) (length_leBytes 4 _)
  simp only [List.append_assoc, List.nil_append, List.append_nil]
    at hsignature hbytes hptes hcount hentry
  unfold gptEntries
  simp only [h, hsignature, hbytes, Option.bind_some, gptHeader, field, hptes, hcount, hentry]
  rfl

theorem ptesBytes_sector (l : GptLayout) (rand : ℕ → ℕ) : ∃ name post : List Byte,
    name.length = 80 ∧ fieldBytes (ptesBytes l rand) 0 512 =
      entryFields gptEfiSystem (randomGuidV4 (rand 0) (rand 1)) l.esp ++ (name ++
        (entryFields rfsGptGuid (randomGuidV4 (rand 2) (rand 3)) l.rfs ++ post)) := by
  have hname : (makeUtf16leName "EFI System").length = 72 := by decide
  have hname' : (makeUtf16leName "RetroFS").length = 72 := by decide
  have hfirst : (entryFields gptEfiSystem (randomGuidV4 (rand 0) (rand 1)) l.esp).length = 48 :=
    length_entryFields (length_randomGuidV4 _ _)
  have hsecond : (entryFields rfsGptGuid (randomGuidV4 (rand 2) (rand 3)) l.rfs).length = 48 :=
    length_entryFields (length_randomGuidV4 _ _)
  refine ⟨leBytes 8 0 ++ makeUtf16leName "EFI System",
    leBytes 8 0 ++ (makeUtf16leName "RetroFS" ++ (List.replicate (126 * 128) 0).take 256), ?_, ?_⟩
  · rw [List.length_append, length_leBytes, hname]
  · rw [ptesBytes, gptEntryBytes_eq, gptEntryBytes_eq, fieldBytes, List.drop_zero]
    simp only [List.append_assoc]
    rw [List.take_append, hfirst, List.take_append, length_leBytes, List.take_append, hname,
      List.take_append, hsecond, List.take_append, length_leBytes, List.take_append, hname',
      List.take_of_length_le (by omega), List.take_of_length_le (by simp),
      List.take_of_length_le (by omega), List.take_of_length_le (by omega),
      List.take_of_length_le (by simp), List.take_of_length_le (by omega)]

theorem gptEntry_read {d : Disk} {q : PartitionQuery} {n : ℕ} {sector pre fields post : List Byte}
    (hblock : d.blockSize = 512) (hsector : d.readBlock 2 = some sector) (hn : n < 4)
    (heq : sector = pre ++ (fields ++ post)) (hpre : pre.length = n * 128)
    (hfields : fields.length = 48) :
    gptEntry d q ⟨2, 128, 128⟩ n = .slot (gptEntrySlot d q fields) := by
  have hstruct := structAt_append pre fields post hpre hfields
  rw [← heq] at hstruct
  have hlba : u64 (2 + n / 4) = 2 := by
    rw [Nat.div_eq_of_lt hn]
    rfl
  unfold gptEntry
  dsimp only
  rw [hblock, if_neg (by rw [hlba]; omega), hlba, hsector, Nat.mod_eq_of_lt hn]
  dsimp only
  rw [hstruct]

theorem find_installed (l : GptLayout) (rand : ℕ → ℕ) (calls : List InflateCall) (a : Byte)
    (hsize : dev.blockSize = 512) :
    ∃ found, (findPartitionOfType (installed dev l rand calls).toDisk rfsQuery a).bind
        PartitionScan.found = some found ∧
      found.extent = ⟨l.rfs.first, l.rfs.count⟩ ∧ found.partitionId = 0xFF := by
  obtain ⟨hmbr, hheader, hptes⟩ := installed_readBlock l rand calls hsize
  have hblock : (installed dev l rand calls).blockSize = 512 :=
    (blockSize_foldl _).trans hsize
  generalize (installed dev l rand calls).toDisk = d at hmbr hheader hptes hblock ⊢
  obtain ⟨table, htable, hprotective⟩ := mbr_isProtective l.lbaCount
  obtain ⟨name, post, hname, hsector⟩ := ptesBytes_sector l rand
  generalize hunique : randomGuidV4 (rand 0) (rand 1) = unique at hsector
  generalize hunique' : randomGuidV4 (rand 2) (rand 3) = unique' at hsector
  replace hunique : unique.length = 16 := hunique ▸ length_randomGuidV4 _ _
  replace hunique' : unique'.length = 16 := hunique' ▸ length_randomGuidV4 _ _
  have hpre : (entryFields gptEfiSystem unique l.esp ++ name).length = 1 * 128 := by
    rw [List.length_append, length_entryFields hunique, hname]
  have hesp := gptEntry_read (q := rfsQuery) (n := 0) hblock hptes (by omega)
    (hsector.trans (List.nil_append _).symm) rfl (length_entryFields hunique)
  have hrfs := gptEntry_read (q := rfsQuery) hblock hptes (by omega)
    (hsector.trans (List.append_assoc _ _ _).symm) hpre (length_entryFields hunique')
  have hextent : (gptEntrySlot d rfsQuery (entryFields rfsGptGuid unique' l.rfs)).extent =
      ⟨l.rfs.first, l.rfs.count⟩ := by
    have hlast := l.lastUsable_lt
    have hadd := l.backupPtesLba_add
    have hlt := l.lbaCount_lt
    refine gptEntrySlot_extent hunique' l.rfs_fits ?_
    change lastUsable l.lbaCount + 1 < _
    omega
  have hentries : (List.range 128).map (gptEntry d rfsQuery ⟨2, 128, 128⟩) =
      .slot (gptEntrySlot d rfsQuery (entryFields gptEfiSystem unique l.esp)) ::
        .slot (gptEntrySlot d rfsQuery (entryFields rfsGptGuid unique' l.rfs)) ::
        (List.range' 2 126).map (gptEntry d rfsQuery ⟨2, 128, 128⟩) := by
    rw [← hesp, ← hrfs]
    rfl
  refine ⟨(gptEntrySlot d rfsQuery (entryFields rfsGptGuid unique' l.rfs)).foundHere,
    ?_, hextent, rfl⟩
  have hfirst : ¬ (gptEntrySlot d rfsQuery (entryFields gptEfiSystem unique l.esp)).matched := by
    rw [gptEntrySlot_matched]
    decide
  have hno : (gptEntrySlot d rfsQuery (entryFields gptEfiSystem unique l.esp)).logical =
      some [] := by
    rw [Slot.logical, gptEntrySlot_isLvm]
    rfl
  have hsecond : (gptEntrySlot d rfsQuery (entryFields rfsGptGuid unique' l.rfs)).matched := by
    rw [gptEntrySlot_matched]
    decide
  rw [findPartitionOfType, if_neg (by omega), hmbr]
  dsimp only
  rw [htable, Option.bind_some, if_pos hprotective, scanGptEntries, gptEntries_installed hheader,
    Option.bind_some, hentries, scanSlots_pass hno fun h => hfirst h.1,
    scanSlots_found ⟨hsecond, rfl, by decide⟩]
  rfl

/-! ## The installation as a whole -/

/-- What is to hold of an installation, and of the formatting of a ramdisk of so many blocks, apart
from where the backup header lies. -/
structure PartsCorrect (dev : BlockDevice) (l : GptLayout) (rand : ℕ → ℕ) (calls : List InflateCall)
    (blocks blocksize : ℕ) : Prop where
  disjoint : l.ranges.dropLast.Pairwise fun r s => Disjoint r.sectors s.sectors
  inside : ∀ r ∈ l.ranges, r.sectors ⊆ Set.Iio l.lbaCount
  found : ∀ a, ∃ found, (findPartitionOfType (installed dev l rand calls).toDisk rfsQuery a).bind
    PartitionScan.found = some found ∧ found.extent = ⟨l.rfs.first, l.rfs.count⟩
  image : ∀ w ∈ espWrites calls, w.sectors ⊆ l.esp.sectors
  formatted : ∀ a allocated info,
    prepareRfsPartition (installed dev l rand calls) true allocated a = some info →
      info.totalSectors = l.rfs.count
  ramdisk : ∀ a allocated data info,
    prepareRfsPartition (initRamdisk blocks blocksize data) false allocated a = some info →
      info.totalSectors = blocks

structure InstallerCorrect (dev : BlockDevice) (l : GptLayout) (rand : ℕ → ℕ)
    (calls : List InflateCall)
    (blocks blocksize : ℕ) : Prop extends PartsCorrect dev l rand calls blocks blocksize where
  allDisjoint : l.ranges.Pairwise fun r s => Disjoint r.sectors s.sectors

theorem formatted_installed (hsize : dev.blockSize = 512) {allocated : Bool} {info : RfsInfo}
    (h : prepareRfsPartition (installed dev l rand calls) true allocated a = some info) :
    info.totalSectors = l.rfs.count := by
  obtain ⟨found, hfound, hextent, hid⟩ := find_installed l rand calls a hsize
  cases allocated with
  | false => cases h
  | true =>
    simp only [prepareRfsPartition, hfound, Option.bind_some, hid, if_true, Bool.true_eq_false,
      if_false, hextent, Option.some.injEq] at h
    rw [← h]

theorem ramdisk_iff {blocks blocksize : ℕ} :
    (∀ a allocated data info,
      prepareRfsPartition (initRamdisk blocks blocksize data) false allocated a = some info →
        info.totalSectors = blocks) ↔ blocks = 0 ∨ blocksize ≤ 1 := by
  constructor
  · intro h
    by_cases hsize : blocksize = 0
    · exact .inr (hsize.trans_le zero_le_one)
    · have htotal : blocks / blocksize = blocks := h 0 true (fun _ => 0) _ (if_neg hsize)
      rw [Nat.div_eq_self] at htotal
      exact htotal.imp id le_of_eq
  · rintro hsize a allocated data info hinfo
    cases allocated with
    | false => cases hinfo
    | true =>
      change (if blocksize = 0 then none else some (RfsInfo.mk 0 _ (blocks / blocksize))) =
        _ at hinfo
      split at hinfo
      · cases hinfo
      · cases hinfo
        refine Nat.div_eq_self.mpr (hsize.imp id fun hle => ?_)
        omega

theorem blockSize_of_gptLayout {fileSize : ℕ} {isize : BitVec 32}
    (h : gptLayout dev fileSize isize = some l) : dev.blockSize = 512 := by
  unfold gptLayout at h
  split at h
  · next hchecks => exact hchecks.1
  · cases h

theorem GptLayout.not_disjoint (l : GptLayout) :
    ¬ l.ranges.Pairwise fun r s => Disjoint r.sectors s.sectors := by
  intro hdisjoint
  simp only [ranges, List.pairwise_cons] at hdisjoint
  have hpair : Disjoint l.backupPtes.sectors l.backupHeader.sectors :=
    hdisjoint.2.2.2.2.2.1 _ (List.mem_singleton.mpr rfl)
  have hmem : l.lbaCount - 1 ∈ l.backupHeader.sectors := ⟨le_rfl, le_rfl⟩
  exact Set.disjoint_left.mp hpair (l.backupHeader_subset hmem) hmem

/-- No installation is right, since the backup header is written over the end of the backup of the
entries. The other parts are, exactly if the image fits and the sectors of the ramdisk are bytes. -/
theorem installer_not_correct {fileSize : ℕ} {isize : BitVec 32} (blocks blocksize : ℕ)
    (hlayout : gptLayout dev fileSize isize = some l) (hinflate : FitsBuffer 0 calls) :
    ¬ InstallerCorrect dev l rand calls blocks blocksize ∧
      (PartsCorrect dev l rand calls blocks blocksize ↔
        ImageFits l calls ∧ (blocks = 0 ∨ blocksize ≤ 1)) := by
  have hsize := blockSize_of_gptLayout hlayout
  refine ⟨fun hcorrect => l.not_disjoint hcorrect.allDisjoint, fun hparts => ?_, fun h => ?_⟩
  · exact ⟨(espWrites_inside_iff l hinflate).mp hparts.image, ramdisk_iff.mp hparts.ramdisk⟩
  · refine ⟨l.pairwise_lt.imp LbaRange.disjoint_of_lt, l.inside, fun a => ?_,
      (espWrites_inside_iff l hinflate).mpr h.1, fun a allocated info hinfo => ?_,
      ramdisk_iff.mpr h.2⟩
    · obtain ⟨found, hfound, hextent, -⟩ := find_installed l rand calls a hsize
      exact ⟨found, hfound, hextent⟩
    · exact formatted_installed hsize hinfo

def clearDisk : BlockDevice := { diskOf [] with size := 10000 }

def clearLayout : GptLayout where
  lbaCount := 10000
  espBytes := 512
  lbaCount_lt := by decide
  lbaCount_ge := by decide
  espBytes_pos := by decide
  espBytes_lt := by decide
  esp_fits := by decide
  rfs_fits := by decide

theorem installer_not_correct_clear :
    gptLayout clearDisk 600 512 = some clearLayout ∧
      (PartsCorrect clearDisk clearLayout (fun _ => 7)
        [⟨List.replicate 512 1, .streamEnd⟩] 4096 512 ↔
        ImageFits clearLayout [⟨List.replicate 512 1, .streamEnd⟩] ∧ (4096 = 0 ∨ 512 ≤ 1)) := by
  have hlayout : gptLayout clearDisk 600 512 = some clearLayout := dif_pos (by decide)
  have hinflate : FitsBuffer 0 [⟨List.replicate 512 1, .streamEnd⟩] := by
    refine ⟨?_, trivial⟩
    rw [List.length_replicate]
    decide
  exact ⟨hlayout, (installer_not_correct 4096 512 hlayout hinflate).2⟩

/-- The last sector of such a disk holds the backup header and the end of the backup. -/
theorem clearDisk_not_correct :
    gptLayout clearDisk 600 512 = some clearLayout ∧
      ¬ InstallerCorrect clearDisk clearLayout (fun _ => 7) [⟨List.replicate 512 1, .streamEnd⟩]
        4096 512 :=
  ⟨dif_pos (by decide), fun hcorrect => clearLayout.not_disjoint hcorrect.allDisjoint⟩

end RetroRocket
