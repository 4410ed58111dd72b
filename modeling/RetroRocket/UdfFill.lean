import RetroRocket.UdfRead

/-!
# What a read of a UDF file fills

While every extent that meets the range is recorded, the number of bytes delivered is the distance
of the file position from the start, and the loop fills the buffer with the bytes of the file. An
unrecorded extent that meets the range leaves the two cursors apart for the rest of the loop.
-/

namespace RetroRocket

/-- An extent can be read from an offset on: it is recorded, the volume has its partition, and the
number of its first block to be read fits in 32 bits. -/
def ReadsExtent (fs : UdfVolume) (extent : UdfExtent) (offset : ℕ) : Prop :=
  (0 < extent.bytes → extent.flags = recordedAllocated) ∧
    (extent.flags = recordedAllocated →
      udfFindPartitionStart fs extent.part ≠ noPartition ∧
        (0 < extent.bytes →
          udfFindPartitionStart fs extent.part + extent.lba + offset / udfBlockSize < 2 ^ 32))

/-- Every extent from file position `pos` on that meets `[start, stop)` can be read there. -/
def RangeRecorded (fs : UdfVolume) (start stop : ℕ) : ℕ → List UdfExtent → Prop
  | _, [] => True
  | pos, extent :: rest =>
    (pos < stop → start < pos + extent.bytes → ReadsExtent fs extent (start - pos)) ∧
      RangeRecorded fs start stop (pos + extent.bytes) rest

theorem rangeRecorded_of_past {fs : UdfVolume} {start stop : ℕ} {extents : List UdfExtent}
    {pos : ℕ} (hpast : stop ≤ pos) : RangeRecorded fs start stop pos extents := by
  induction extents generalizing pos with
  | nil => trivial
  | cons extent rest ih => exact ⟨fun hin => by omega, ih (by omega)⟩

section Extent

variable {fs : UdfVolume} {extent : UdfExtent} {start length done filePos : ℕ} {buffer : Cells}

theorem udfReadExtent_skip
    (hskip : extent.flags ≠ recordedAllocated ∨ filePos + extent.bytes ≤ start) :
    udfReadExtent fs start length extent done filePos buffer = some (buffer, done) := by
  unfold udfReadExtent
  by_cases hflags : extent.flags ≠ recordedAllocated
  · rw [if_pos hflags]
  · rw [if_neg hflags, if_pos (hskip.resolve_left hflags)]

theorem udfReadExtent_noPartition (hflags : extent.flags = recordedAllocated)
    (hmeets : start < filePos + extent.bytes)
    (hpart : udfFindPartitionStart fs extent.part = noPartition) :
    udfReadExtent fs start length extent done filePos buffer = none := by
  unfold udfReadExtent
  rw [if_neg (not_not.mpr hflags), if_neg (by omega)]
  simp [udfReadPartitionBlocks, hpart]

def takenBytes (extent : UdfExtent) (start length done filePos : ℕ) : ℕ :=
  min (extent.bytes - (start - filePos)) (length - done)

def takenAddress (fs : UdfVolume) (extent : UdfExtent) (start filePos : ℕ) : ℕ :=
  fs.blockNumber extent.part (u32 (extent.lba + (start - filePos) / udfBlockSize)) * udfBlockSize +
    (start - filePos) % udfBlockSize

/-- A turn that reads fills the cells from `done` on, and no others, from the device. -/
theorem udfReadExtent_read (hserves : ∀ block bytes, fs.device.serves block bytes = true)
    (hflags : extent.flags = recordedAllocated) (hmeets : start < filePos + extent.bytes)
    (hpart : udfFindPartitionStart fs extent.part ≠ noPartition) :
    ∃ filled, udfReadExtent fs start length extent done filePos buffer =
        some (filled, done + takenBytes extent start length done filePos) ∧
      (∀ k < takenBytes extent start length done filePos, filled (done + k) =
        some (fs.device.contents (takenAddress fs extent start filePos + k))) ∧
      ∀ k, k < done ∨ done + takenBytes extent start length done filePos ≤ k →
        filled k = buffer k := by
  have hbytes := extent.bytes_lt
  have hstart : (if filePos < start then start - filePos else 0) = start - filePos := by
    split_ifs <;> omega
  unfold udfReadExtent
  rw [if_neg (not_not.mpr hflags), if_neg (by omega)]
  simp only [hstart]
  rw [← takenBytes]
  have htaken : takenBytes extent start length done filePos ≤ extent.bytes :=
    (min_le_left _ _).trans (Nat.sub_le _ _)
  have hoffset : (start - filePos) % udfBlockSize < udfBlockSize := Nat.mod_lt _ (by decide)
  generalize htakenEq : takenBytes extent start length done filePos = taken at *
  have hblocks : (start - filePos) % udfBlockSize + taken ≤
      ((start - filePos) % udfBlockSize + taken + udfBlockSize - 1) / udfBlockSize *
        udfBlockSize := by
    simp only [udfBlockSize] at hoffset ⊢
    omega
  have hsmall : ((start - filePos) % udfBlockSize + taken + udfBlockSize - 1) / udfBlockSize *
      udfBlockSize < 2 ^ 32 := by
    simp only [udfBlockSize] at hoffset ⊢
    omega
  rw [udfReadPartitionBlocks_served hserves hpart hsmall, Option.map_some]
  refine ⟨_, rfl, fun k hk => ?_, fun k hk => Cells.copy_outside (by omega)⟩
  rw [Cells.copy_inside (by omega) (by omega), Cells.deliver_inside (by omega),
    Nat.add_sub_cancel_left, takenAddress, Nat.add_assoc]

theorem takenAddress_eq (hsmall : udfFindPartitionStart fs extent.part + extent.lba +
    (start - filePos) / udfBlockSize < 2 ^ 32) :
    takenAddress fs extent start filePos =
      (udfFindPartitionStart fs extent.part + extent.lba) * udfBlockSize + (start - filePos) := by
  have hinner : u32 (extent.lba + (start - filePos) / udfBlockSize) =
      extent.lba + (start - filePos) / udfBlockSize := u32_of_lt (by omega)
  rw [takenAddress, UdfVolume.blockNumber, hinner, ← Nat.add_assoc, u32_of_lt hsmall,
    Nat.add_mul _ ((start - filePos) / udfBlockSize), Nat.add_assoc, Nat.div_add_mod']

end Extent

section Turn

variable {fs : UdfVolume} {start length : ℕ} {incomplete : Bool} {extent : UdfExtent}
  {rest : List UdfExtent} {done filePos : ℕ} {buffer : Cells}

theorem udfReadList_stop {extents : List UdfExtent} (hd : length ≤ done) :
    udfReadList fs start length incomplete extents done filePos buffer = some buffer := by
  cases extents with
  | nil => rw [udfReadList, if_neg (by omega)]
  | cons extent rest => rw [udfReadList, if_neg (by omega)]

theorem udfReadList_skip (hd : done < length)
    (hskip : extent.flags ≠ recordedAllocated ∨ filePos + extent.bytes ≤ start) :
    udfReadList fs start length incomplete (extent :: rest) done filePos buffer =
      udfReadList fs start length incomplete rest done (filePos + extent.bytes) buffer := by
  rw [udfReadList, if_pos hd, udfReadExtent_skip hskip]
  rfl

theorem udfReadList_noPartition (hd : done < length) (hflags : extent.flags = recordedAllocated)
    (hmeets : start < filePos + extent.bytes)
    (hpart : udfFindPartitionStart fs extent.part = noPartition) :
    udfReadList fs start length incomplete (extent :: rest) done filePos buffer = none := by
  rw [udfReadList, if_pos hd, udfReadExtent_noPartition hflags hmeets hpart]
  rfl

theorem udfReadList_read (hserves : ∀ block bytes, fs.device.serves block bytes = true)
    (hd : done < length) (hflags : extent.flags = recordedAllocated)
    (hmeets : start < filePos + extent.bytes)
    (hpart : udfFindPartitionStart fs extent.part ≠ noPartition) :
    ∃ taken, udfReadList fs start length incomplete (extent :: rest) done filePos buffer =
        udfReadList fs start length incomplete rest
          (done + takenBytes extent start length done filePos) (filePos + extent.bytes) taken ∧
      (∀ k < takenBytes extent start length done filePos, taken (done + k) =
        some (fs.device.contents (takenAddress fs extent start filePos + k))) ∧
      ∀ k, k < done ∨ done + takenBytes extent start length done filePos ≤ k →
        taken k = buffer k := by
  obtain ⟨taken, hturn, hcells, hkept⟩ := @udfReadExtent_read fs extent start length done filePos
    buffer hserves hflags hmeets hpart
  refine ⟨taken, ?_, hcells, hkept⟩
  rw [udfReadList, if_pos hd, hturn]
  rfl

end Turn

section Synced

variable {fs : UdfVolume} {start length : ℕ} {incomplete : Bool}

theorem udfFileByte_here {extent : UdfExtent} {rest : List UdfExtent} {pos : ℕ}
    (h : pos < extent.bytes) :
    udfFileByte fs (extent :: rest) pos = udfExtentByte fs extent pos := if_pos h

theorem udfFileByte_later {extent : UdfExtent} {rest : List UdfExtent} {pos : ℕ}
    (h : extent.bytes ≤ pos) :
    udfFileByte fs (extent :: rest) pos = udfFileByte fs rest (pos - extent.bytes) :=
  if_neg (not_lt.mpr h)

def ListFills (fs : UdfVolume) (start length : ℕ) (incomplete : Bool) (extents : List UdfExtent)
    (done filePos : ℕ) (buffer : Cells) : Prop :=
  ∃ filled, udfReadList fs start length incomplete extents done filePos buffer = some filled ∧
    (∀ k, done ≤ k → k < length →
      filled k = some (udfFileByte fs extents (start + k - filePos))) ∧
    ∀ k, k < done ∨ length ≤ k → filled k = buffer k

theorem listFills_of_recorded (hserves : ∀ block bytes, fs.device.serves block bytes = true)
    {extents : List UdfExtent} {done filePos : ℕ} {buffer : Cells}
    (hdone : done = min (filePos - start) length)
    (hcover : start + length ≤ filePos + extentsLength extents)
    (hrec : RangeRecorded fs start (start + length) filePos extents) :
    ListFills fs start length incomplete extents done filePos buffer := by
  induction extents generalizing done filePos buffer with
  | nil =>
    simp only [extentsLength, List.map_nil, List.sum_nil, Nat.add_zero] at hcover
    exact ⟨buffer, udfReadList_stop (by omega), fun k hk hkl => by omega, fun k hk => rfl⟩
  | cons extent rest ih =>
    have hcoverRest : start + length ≤ filePos + extent.bytes + extentsLength rest := by
      simpa [extentsLength, Nat.add_assoc] using hcover
    by_cases hd : done < length
    case neg =>
      exact ⟨buffer, udfReadList_stop (by omega), fun k hk hkl => by omega, fun k hk => rfl⟩
    have hlater : ∀ k, done ≤ k → filePos + extent.bytes ≤ start + k →
        udfFileByte fs (extent :: rest) (start + k - filePos) =
          udfFileByte fs rest (start + k - (filePos + extent.bytes)) := by
      intro k hk hpast
      rw [udfFileByte_later (by omega), Nat.sub_sub]
    by_cases hskip : extent.flags ≠ recordedAllocated ∨ filePos + extent.bytes ≤ start
    · -- nothing of the extent lies in the range
      have hempty : filePos + extent.bytes ≤ start ∨ extent.bytes = 0 := by
        by_contra hmeets
        have hreads := hrec.1 (by omega) (by omega)
        exact hskip.elim (fun hflags => hflags (hreads.1 (by omega))) (fun hpast => by omega)
      obtain ⟨filled, hrun, hbytes, hframe⟩ := @ih done (filePos + extent.bytes) buffer
        (by omega) hcoverRest hrec.2
      refine ⟨filled, (udfReadList_skip hd hskip).trans hrun, fun k hk hkl => ?_, hframe⟩
      rw [hlater k hk (by omega)]
      exact hbytes k hk hkl
    · simp only [not_or, not_not, not_le] at hskip
      obtain ⟨hflags, hmeets⟩ := hskip
      obtain ⟨-, hreads⟩ := hrec.1 (by omega) hmeets
      obtain ⟨hpart, hsmall⟩ := hreads hflags
      obtain ⟨taken, hturn, hcells, hkept⟩ := @udfReadList_read fs start length incomplete extent
        rest done filePos buffer hserves hd hflags hmeets hpart
      have htaken : done + takenBytes extent start length done filePos =
          min (filePos + extent.bytes - start) length := by
        unfold takenBytes
        omega
      obtain ⟨filled, hrun, hbytes, hframe⟩ := @ih
        (done + takenBytes extent start length done filePos) (filePos + extent.bytes) taken
        htaken hcoverRest hrec.2
      refine ⟨filled, hturn.trans hrun, fun k hk hkl => ?_, fun k hk => ?_⟩
      · by_cases hhere : k < done + takenBytes extent start length done filePos
        · have hplace : start - filePos + (k - done) = start + k - filePos := by omega
          have hcell := hcells (k - done) (by omega)
          rw [takenAddress_eq (hsmall (by unfold takenBytes at hhere; omega)), Nat.add_assoc,
            hplace, Nat.add_sub_cancel' hk] at hcell
          rw [hframe k (.inl hhere), hcell, udfFileByte_here (by omega), udfExtentByte,
            if_pos hflags]
        · rw [hlater k hk (by omega)]
          exact hbytes k (by omega) hkl
      · rw [hframe k (by omega), hkept k (by omega)]

/-! ## Cursors out of step -/

theorem udfReadList_keeps (hserves : ∀ block bytes, fs.device.serves block bytes = true)
    {extents : List UdfExtent} {done filePos : ℕ} {buffer filled : Cells}
    (hrun : udfReadList fs start length incomplete extents done filePos buffer = some filled)
    {k : ℕ} (hk : k < done) : filled k = buffer k := by
  induction extents generalizing done filePos buffer with
  | nil =>
    rw [udfReadList] at hrun
    split_ifs at hrun
    rw [← Option.some.inj hrun]
  | cons extent rest ih =>
    by_cases hd : done < length
    case neg =>
      rw [udfReadList_stop (by omega)] at hrun
      rw [← Option.some.inj hrun]
    by_cases hskip : extent.flags ≠ recordedAllocated ∨ filePos + extent.bytes ≤ start
    · rw [udfReadList_skip hd hskip] at hrun
      exact ih hrun hk
    simp only [not_or, not_not, not_le] at hskip
    by_cases hpart : udfFindPartitionStart fs extent.part = noPartition
    · rw [udfReadList_noPartition hd hskip.1 hskip.2 hpart] at hrun
      exact absurd hrun (by simp)
    · obtain ⟨taken, hturn, -, hkept⟩ := @udfReadList_read fs start length incomplete extent
        rest done filePos buffer hserves hd hskip.1 hskip.2 hpart
      rw [hturn] at hrun
      rw [ih hrun (by omega), hkept k (.inl hk)]

theorem udfReadList_next (hserves : ∀ block bytes, fs.device.serves block bytes = true)
    {extents : List UdfExtent} {done filePos : ℕ} {buffer filled : Cells} (hpast : start ≤ filePos)
    (hblank : buffer done = none)
    (hrun : udfReadList fs start length incomplete extents done filePos buffer = some filled) :
    filled done = none ∨
      ∃ block, filled done = some (fs.device.contents (block * udfBlockSize)) := by
  induction extents generalizing filePos buffer with
  | nil =>
    rw [udfReadList] at hrun
    split_ifs at hrun
    rw [← Option.some.inj hrun]
    exact .inl hblank
  | cons extent rest ih =>
    by_cases hd : done < length
    case neg =>
      rw [udfReadList_stop (by omega)] at hrun
      rw [← Option.some.inj hrun]
      exact .inl hblank
    by_cases hskip : extent.flags ≠ recordedAllocated ∨ filePos + extent.bytes ≤ start
    · rw [udfReadList_skip hd hskip] at hrun
      exact ih (by omega) hblank hrun
    simp only [not_or, not_not, not_le] at hskip
    by_cases hpart : udfFindPartitionStart fs extent.part = noPartition
    · rw [udfReadList_noPartition hd hskip.1 hskip.2 hpart] at hrun
      exact absurd hrun (by simp)
    obtain ⟨taken, hturn, hcells, hkept⟩ := @udfReadList_read fs start length incomplete extent
      rest done filePos buffer hserves hd hskip.1 hskip.2 hpart
    rw [hturn] at hrun
    have hbegin : start - filePos = 0 := by omega
    by_cases hnone : takenBytes extent start length done filePos = 0
    · rw [hnone] at hrun hkept
      exact ih (by omega) (by rw [hkept done (by omega), hblank]) hrun
    · have hcell := hcells 0 (by omega)
      simp only [takenAddress, hbegin, Nat.zero_mod, Nat.add_zero] at hcell
      exact .inr ⟨_, by rw [udfReadList_keeps hserves hrun (by omega), hcell]⟩

end Synced

/-! ## Which ranges are filled -/

def UdfVolume.withContents (fs : UdfVolume) (contents : Buffer) : UdfVolume :=
  ⟨{ fs.device with contents := contents }, fs.blockSize_eq, fs.partitions⟩

def UdfVolume.KeepsBlock (fs : UdfVolume) (block : ℕ) (contents : Buffer) : Prop :=
  ∀ k < udfBlockSize,
    contents (block * udfBlockSize + k) = fs.device.contents (block * udfBlockSize + k)

@[simp] theorem withContents_findPartitionStart (fs : UdfVolume) (contents : Buffer) (part : ℕ) :
    udfFindPartitionStart (fs.withContents contents) part = udfFindPartitionStart fs part := rfl

@[simp] theorem withContents_serves (fs : UdfVolume) (contents : Buffer) :
    (fs.withContents contents).device.serves = fs.device.serves := rfl

@[simp] theorem withContents_contents (fs : UdfVolume) (contents : Buffer) :
    (fs.withContents contents).device.contents = contents := rfl

@[simp] theorem withContents_takenAddress (fs : UdfVolume) (contents : Buffer)
    (extent : UdfExtent) (start filePos : ℕ) :
    takenAddress (fs.withContents contents) extent start filePos =
      takenAddress fs extent start filePos := rfl

section Converse

variable {fs : UdfVolume} {start length : ℕ} {incomplete : Bool} {block : ℕ}

def onesOutside (fs : UdfVolume) (block : ℕ) : Buffer :=
  fun a => if block * udfBlockSize ≤ a ∧ a < block * udfBlockSize + udfBlockSize
    then fs.device.contents a else 1

theorem onesOutside_keeps : fs.KeepsBlock block (onesOutside fs block) := by
  intro k hk
  exact if_pos ⟨by omega, by omega⟩

theorem onesOutside_block_ne_zero (hfirst : fs.device.contents (block * udfBlockSize) ≠ 0)
    (other : ℕ) : onesOutside fs block (other * udfBlockSize) ≠ 0 := by
  unfold onesOutside
  split_ifs with hin
  · have hsame : other = block := by
      simp only [udfBlockSize] at hin
      omega
    rwa [hsame]
  · decide

/-- One turn in step, the loop from an extent on fills the range for every content of the other
blocks: then the extent can be read, if it meets the range. -/
theorem readsExtent_of_fills (hserves : ∀ block bytes, fs.device.serves block bytes = true)
    (hblock : block < 2 ^ 32) (hfirst : fs.device.contents (block * udfBlockSize) ≠ 0)
    {extent : UdfExtent} {rest : List UdfExtent} {done filePos : ℕ}
    (hdone : done = filePos - start) (hd : done < length)
    (hmeets : start < filePos + extent.bytes)
    (hfills : ∀ contents, fs.KeepsBlock block contents →
      ∃ buffer : Cells, (∀ k, done ≤ k → buffer k = none) ∧
        ListFills (fs.withContents contents) start length incomplete (extent :: rest) done filePos
          buffer) :
    ReadsExtent fs extent (start - filePos) := by
  have hplace : start + done - filePos = start - filePos := by omega
  constructor
  · intro hbytes
    by_contra hflags
    obtain ⟨buffer, hblank, filled, hrun, hcells, -⟩ :=
      hfills (onesOutside fs block) onesOutside_keeps
    have hcell := hcells done le_rfl hd
    rw [hplace, udfFileByte_here (by omega), udfExtentByte, if_neg hflags] at hcell
    rw [udfReadList_skip hd (.inl hflags)] at hrun
    have hserved : ∀ number bytes,
        (fs.withContents (onesOutside fs block)).device.serves number bytes = true := hserves
    rcases udfReadList_next hserved (by omega) (hblank done le_rfl) hrun with hnone | ⟨other, hbyte⟩
    · rw [hnone] at hcell
      exact absurd hcell (by simp)
    · rw [hbyte] at hcell
      exact onesOutside_block_ne_zero hfirst other (Option.some.inj hcell)
  · intro hflags
    have hpart : udfFindPartitionStart fs extent.part ≠ noPartition := by
      intro hpart
      obtain ⟨buffer, -, filled, hrun, -⟩ := hfills fs.device.contents fun k hk => rfl
      have hnone : udfFindPartitionStart (fs.withContents fs.device.contents) extent.part =
          noPartition := hpart
      rw [udfReadList_noPartition hd hflags hmeets hnone] at hrun
      exact absurd hrun (by simp)
    refine ⟨hpart, fun hbytes => ?_⟩
    by_contra hbig
    -- the byte wanted lies beyond all blocks that a 32-bit number names
    let wanted := (udfFindPartitionStart fs extent.part + extent.lba) * udfBlockSize +
      (start - filePos)
    have hwanted : 2 ^ 32 * udfBlockSize ≤ wanted := by
      simp only [wanted, udfBlockSize] at hbig ⊢
      omega
    have htaken : takenAddress fs extent start filePos < 2 ^ 32 * udfBlockSize := by
      have hnumber : fs.blockNumber extent.part
          (u32 (extent.lba + (start - filePos) / udfBlockSize)) < 2 ^ 32 :=
        Nat.mod_lt _ (by decide)
      simp only [takenAddress, udfBlockSize] at hnumber ⊢
      omega
    let changed := Function.update fs.device.contents wanted
      (fs.device.contents (takenAddress fs extent start filePos) + 1)
    have hkeeps : fs.KeepsBlock block changed := by
      intro k hk
      apply Function.update_of_ne
      simp only [udfBlockSize] at hwanted hk ⊢
      omega
    obtain ⟨buffer, -, filled, hrun, hcells, -⟩ := hfills changed hkeeps
    have hcell := hcells done le_rfl hd
    rw [hplace, udfFileByte_here (by omega), udfExtentByte, if_pos hflags,
      withContents_findPartitionStart, withContents_contents] at hcell
    have hserved : ∀ number bytes,
        (fs.withContents changed).device.serves number bytes = true := hserves
    obtain ⟨taken, hturn, hread, -⟩ := @udfReadList_read (fs.withContents changed) start length
      incomplete extent rest done filePos buffer hserved hd hflags hmeets hpart
    rw [hturn] at hrun
    have hhere : 0 < takenBytes extent start length done filePos := by
      unfold takenBytes
      omega
    have hbyte := hread 0 hhere
    rw [Nat.add_zero, Nat.add_zero, withContents_takenAddress, withContents_contents] at hbyte
    rw [udfReadList_keeps hserved hrun (by omega), hbyte] at hcell
    have hsame := Option.some.inj hcell
    rw [show changed wanted = _ from Function.update_self _ _ _,
      show changed _ = fs.device.contents _ from Function.update_of_ne (by omega) _ _] at hsame
    exact absurd hsame (by simp)

theorem recorded_of_listFills (hserves : ∀ block bytes, fs.device.serves block bytes = true)
    (hblock : block < 2 ^ 32) (hfirst : fs.device.contents (block * udfBlockSize) ≠ 0)
    (hlength : 0 < length) {extents : List UdfExtent} {done filePos : ℕ}
    (hdone : done = min (filePos - start) length)
    (hfills : ∀ contents, fs.KeepsBlock block contents →
      ∃ buffer : Cells, (∀ k, done ≤ k → buffer k = none) ∧
        ListFills (fs.withContents contents) start length incomplete extents done filePos buffer) :
    RangeRecorded fs start (start + length) filePos extents := by
  induction extents generalizing done filePos with
  | nil => trivial
  | cons extent rest ih =>
    by_cases hd : done < length
    case neg => exact rangeRecorded_of_past (by omega)
    have hreads : filePos < start + length → start < filePos + extent.bytes →
        ReadsExtent fs extent (start - filePos) := fun _ hmeets =>
      readsExtent_of_fills hserves hblock hfirst (by omega) hd hmeets hfills
    refine ⟨hreads, ?_⟩
    by_cases hskip : extent.flags ≠ recordedAllocated ∨ filePos + extent.bytes ≤ start
    · have hempty : filePos + extent.bytes ≤ start ∨ extent.bytes = 0 := by
        by_contra hmeets
        have hflags := (hreads (by omega) (by omega)).1 (by omega)
        exact hskip.elim (fun hne => hne hflags) (fun hpast => by omega)
      refine @ih done (filePos + extent.bytes) (by omega) fun contents hkeeps => ?_
      obtain ⟨buffer, hblank, filled, hrun, hcells, hframe⟩ := hfills contents hkeeps
      rw [udfReadList_skip hd hskip] at hrun
      refine ⟨buffer, hblank, filled, hrun, fun k hk hkl => ?_, hframe⟩
      rw [hcells k hk hkl, udfFileByte_later (by omega), Nat.sub_sub]
    · simp only [not_or, not_not, not_le] at hskip
      obtain ⟨hflags, hmeets⟩ := hskip
      obtain ⟨hpart, -⟩ := (hreads (by omega) hmeets).2 hflags
      have htaken : done + takenBytes extent start length done filePos =
          min (filePos + extent.bytes - start) length := by
        unfold takenBytes
        omega
      refine ih htaken fun contents hkeeps => ?_
      obtain ⟨buffer, hblank, filled, hrun, hcells, hframe⟩ := hfills contents hkeeps
      have hserved : ∀ number bytes,
          (fs.withContents contents).device.serves number bytes = true := hserves
      obtain ⟨taken, hturn, -, hkept⟩ := @udfReadList_read (fs.withContents contents) start length
        incomplete extent rest done filePos buffer hserved hd hflags hmeets hpart
      rw [hturn] at hrun
      refine ⟨taken, fun k hk => ?_, filled, hrun, fun k hk hkl => ?_, fun k hk => ?_⟩
      · rw [hkept k (by omega), hblank k (by omega)]
      · rw [hcells k (by omega) hkl, udfFileByte_later (by omega), Nat.sub_sub]
      · rcases hk with hk | hk
        · exact udfReadList_keeps hserved hrun hk
        · rw [hframe k (.inr hk), hkept k (by omega)]

end Converse

/-! ## The theorem -/

/-- A file entry that describes its file: the volume has its partition, the block is one of the
two kinds, its parts fit in the block, and its short or long allocation descriptors cover the
information length. -/
structure UdfCovered (fs : UdfVolume) (part : ℕ) (entry : Buffer) : Prop where
  known : udfFindPartitionStart fs part ≠ noPartition
  tag : be16 entry 0 = tagFileEntry ∨ be16 entry 0 = tagExtendedFileEntry
  fits : (udfFileHeader entry).ads + (udfFileHeader entry).lenAd ≤ udfBlockSize
  kind : (udfFileHeader entry).adType = adShort ∨ (udfFileHeader entry).adType = adLong
  covers : (udfFileHeader entry).informationLength ≤ extentsLength (udfExtents entry part)

section Covered

variable {fs : UdfVolume} {part icbLba : ℕ} {entry : Buffer}

theorem extentsLength_le (extents : List UdfExtent) :
    extentsLength extents ≤ extents.length * 2 ^ 30 := by
  induction extents with
  | nil => simp [extentsLength]
  | cons extent rest ih =>
    have := extent.bytes_lt
    simp only [extentsLength, List.map_cons, List.sum_cons, List.length_cons] at ih ⊢
    omega

theorem informationLength_lt (hcovered : UdfCovered fs part entry) :
    (udfFileHeader entry).informationLength < 2 ^ 42 := by
  have hcount : (udfExtents entry part).length ≤ udfBlockSize := by
    simp only [udfExtents, List.length_map, List.length_range]
    exact (Nat.div_le_self _ _).trans ((Nat.le_add_left _ _).trans hcovered.fits)
  have hsum := extentsLength_le (udfExtents entry part)
  have := hcovered.covers
  simp only [udfBlockSize] at hcount
  omega

theorem udfReadFileData_eq (hserves : ∀ block bytes, fs.device.serves block bytes = true)
    (hentry : fs.blockBytes (fs.blockNumber part icbLba) = entry)
    (hcovered : UdfCovered fs part entry) (range : FileRange) (buffer : Cells) :
    udfReadFileData fs part icbLba range buffer =
      udfReadList fs range.start (cutLength (udfFileHeader entry).informationLength range)
        (decide ((udfFileHeader entry).lenAd % udfDescriptorSize entry ≠ 0))
        (udfExtents entry part) 0 0 buffer := by
  have hsize := informationLength_lt hcovered
  have hlength := range.length_lt
  have htag := hcovered.tag
  rw [← hentry] at htag
  rw [udfReadFileData, udfReadFileEntry_served hserves hcovered.known htag,
    Option.bind_some, hentry]
  dsimp only
  by_cases hpast : (udfFileHeader entry).informationLength ≤ range.start
  · rw [if_pos hpast, udfReadList_stop (by unfold cutLength; omega)]
  have hcut : (if (udfFileHeader entry).informationLength < u64 (range.start + range.length)
      then u32 ((udfFileHeader entry).informationLength - range.start) else range.length) =
      cutLength (udfFileHeader entry).informationLength range := by
    rw [u64_of_lt (by omega), cutLength]
    split_ifs with hlong
    · rw [u32_of_lt (by omega)]
      omega
    · omega
  have hkind : (udfFileHeader entry).adType ≠ adInIcb := by
    rcases hcovered.kind with h | h <;> rw [h] <;> decide
  rw [if_neg hpast, hcut, if_neg (not_lt.mpr hcovered.fits), if_neg hkind]
  have hloop := @udfReadLoop_eq_list fs entry part range.start
    (cutLength (udfFileHeader entry).informationLength range) hcovered.kind
    (udfFileHeader entry).lenAd 0 0 0 buffer (Nat.zero_le _) (by omega)
  rwa [Nat.zero_mul, List.drop_zero] at hloop

end Covered

def RangeReadable (fs : UdfVolume) (part : ℕ) (entry : Buffer) (range : FileRange) : Prop :=
  let length := cutLength (udfFileHeader entry).informationLength range
  0 < length →
    RangeRecorded fs range.start (range.start + length) 0 (udfExtents entry part)

section Top

variable {fs : UdfVolume} {part icbLba : ℕ}

theorem withContents_blockBytes {block : ℕ} {contents : Buffer}
    (hkeeps : fs.KeepsBlock block contents) :
    (fs.withContents contents).blockBytes block = fs.blockBytes block := by
  funext k
  simp only [UdfVolume.blockBytes, Cells.bytes, withContents_contents]
  by_cases hk : k < udfBlockSize
  · rw [Cells.deliver_inside hk, Cells.deliver_inside hk, hkeeps k hk]
  · rw [Cells.deliver_outside (not_lt.mp hk), Cells.deliver_outside (not_lt.mp hk)]

theorem withContents_covered {entry : Buffer} {contents : Buffer}
    (hcovered : UdfCovered fs part entry) : UdfCovered (fs.withContents contents) part entry :=
  ⟨hcovered.known, hcovered.tag, hcovered.fits, hcovered.kind, hcovered.covers⟩

theorem covered_first_ne_zero {block : ℕ} (hcovered : UdfCovered fs part (fs.blockBytes block)) :
    fs.device.contents (block * udfBlockSize) ≠ 0 := by
  intro hzero
  have hfirst : fs.blockBytes block 0 = 0 := by
    rw [UdfVolume.blockBytes, Cells.bytes, Cells.deliver_inside (by decide), Nat.add_zero, hzero]
    rfl
  have hlow := (fs.blockBytes block 1).isLt
  have htag := hcovered.tag
  simp only [be16, hfirst, tagFileEntry, tagExtendedFileEntry] at htag
  simp at htag
  omega

theorem udfFills_iff_listFills {extents : List UdfExtent} {size : ℕ} {range : FileRange}
    {incomplete : Bool} {buffer : Cells} :
    UdfFills fs extents size range buffer
        (udfReadList fs range.start (cutLength size range) incomplete extents 0 0 buffer) ↔
      ListFills fs range.start (cutLength size range) incomplete extents 0 0 buffer := by
  apply exists_congr
  intro filled
  simp only [cutLength, Nat.zero_le, true_implies, Nat.sub_zero, Nat.not_lt_zero, false_or]

/-- With other contents outside the block of the entry, the read is the loop over the same
extents. -/
theorem withContents_fills_iff (hserves : ∀ block bytes, fs.device.serves block bytes = true)
    (hcovered : UdfCovered fs part (fs.blockBytes (fs.blockNumber part icbLba)))
    {contents : Buffer} (hkeeps : fs.KeepsBlock (fs.blockNumber part icbLba) contents)
    (range : FileRange) (buffer : Cells) :
    UdfFills (fs.withContents contents)
        (udfExtents (fs.blockBytes (fs.blockNumber part icbLba)) part)
        (udfFileHeader (fs.blockBytes (fs.blockNumber part icbLba))).informationLength range buffer
        (udfReadFileData (fs.withContents contents) part icbLba range buffer) ↔
      ListFills (fs.withContents contents) range.start
        (cutLength (udfFileHeader (fs.blockBytes (fs.blockNumber part icbLba))).informationLength
          range)
        (decide ((udfFileHeader (fs.blockBytes (fs.blockNumber part icbLba))).lenAd %
          udfDescriptorSize (fs.blockBytes (fs.blockNumber part icbLba)) ≠ 0))
        (udfExtents (fs.blockBytes (fs.blockNumber part icbLba)) part) 0 0 buffer := by
  have hserved : ∀ block bytes,
      (fs.withContents contents).device.serves block bytes = true := hserves
  rw [udfReadFileData_eq hserved (withContents_blockBytes hkeeps) (withContents_covered hcovered)
    range buffer]
  exact udfFills_iff_listFills

theorem withContents_recorded {contents : Buffer} {start stop pos : ℕ}
    {extents : List UdfExtent} :
    RangeRecorded (fs.withContents contents) start stop pos extents ↔
      RangeRecorded fs start stop pos extents := by
  induction extents generalizing pos with
  | nil => rfl
  | cons extent rest ih => exact and_congr Iff.rfl ih

/-- **Reading a file.** For every file entry whose allocation descriptors cover its information
length, every start and every length, the read fills the buffer with the bytes of the file, for
every content of the device outside the block of the entry and for every buffer, if and only if
every extent that meets the range is recorded, in a partition of the volume and at 32-bit block
numbers. -/
theorem udfReadFileData_fills_iff (fs : UdfVolume) (part icbLba : ℕ) (range : FileRange)
    (hserves : ∀ block bytes, fs.device.serves block bytes = true)
    (hcovered : UdfCovered fs part (fs.blockBytes (fs.blockNumber part icbLba))) :
    (∀ contents, fs.KeepsBlock (fs.blockNumber part icbLba) contents → ∀ buffer,
      UdfFills (fs.withContents contents)
        (udfExtents (fs.blockBytes (fs.blockNumber part icbLba)) part)
        (udfFileHeader (fs.blockBytes (fs.blockNumber part icbLba))).informationLength range buffer
        (udfReadFileData (fs.withContents contents) part icbLba range buffer)) ↔
      RangeReadable fs part (fs.blockBytes (fs.blockNumber part icbLba)) range := by
  constructor
  · intro hfills hlength
    exact recorded_of_listFills hserves (Nat.mod_lt _ (by decide))
      (covered_first_ne_zero hcovered) hlength (by omega) fun contents hkeeps =>
        ⟨Cells.fresh, fun k hk => rfl,
          (withContents_fills_iff hserves hcovered hkeeps range _).mp (hfills contents hkeeps _)⟩
  · intro hreadable contents hkeeps buffer
    have hserved : ∀ block bytes,
        (fs.withContents contents).device.serves block bytes = true := hserves
    have hcovers := hcovered.covers
    apply (withContents_fills_iff hserves hcovered hkeeps range buffer).mpr
    by_cases hlength : 0 < cutLength
        (udfFileHeader (fs.blockBytes (fs.blockNumber part icbLba))).informationLength range
    · apply listFills_of_recorded hserved (by omega)
      · unfold cutLength at hlength ⊢
        omega
      · exact withContents_recorded.mpr (hreadable hlength)
    · exact ⟨buffer, udfReadList_stop (by omega), fun k hk hkl => by omega, fun k hk => rfl⟩

end Top

theorem sparseDevice_blockSize_pos : 0 < udfBlockSize := by decide

/-- The bytes other than 0 of a file entry with two short descriptors: 2048 unrecorded bytes, then
the recorded block 2. -/
def sparseEntry : List (ℕ × Byte) :=
  [(0, 1), (1, 5), (60, 0x10), (173, 16), (174, 0x40), (176, 8), (181, 1), (184, 8), (189, 2)]

def sparseVolume : UdfVolume :=
  ⟨⟨udfBlockSize, sparseDevice_blockSize_pos,
    fun a => if a < 2048 then (sparseEntry.find? fun field => field.1 == a).elim 0 Prod.snd else 7,
    fun _ _ => true⟩, rfl, [⟨0, 0⟩]⟩

theorem sparseVolume_covered :
    UdfCovered sparseVolume 0 (sparseVolume.blockBytes (sparseVolume.blockNumber 0 0)) :=
  ⟨by decide +kernel, by decide +kernel, by decide +kernel, by decide +kernel, by decide +kernel⟩

theorem sparseVolume_extents :
    udfExtents (sparseVolume.blockBytes (sparseVolume.blockNumber 0 0)) 0 =
      [udfExtent 0x40000800 1 0, udfExtent 0x800 2 0] := by
  decide +kernel

theorem secondBlock_start_lt : 2048 < 2 ^ 64 := by decide

theorem secondBlock_length_lt : 2048 < 2 ^ 32 := by decide

def secondBlock : FileRange := ⟨2048, 2048, secondBlock_start_lt, secondBlock_length_lt⟩

/-- The recorded half is read rightly. -/
theorem udfReadFileData_fills_secondBlock :
    UdfFills sparseVolume (udfExtents (sparseVolume.blockBytes (sparseVolume.blockNumber 0 0)) 0)
      (udfFileHeader (sparseVolume.blockBytes (sparseVolume.blockNumber 0 0))).informationLength
      secondBlock Cells.fresh (udfReadFileData sparseVolume 0 0 secondBlock Cells.fresh) := by
  have hreadable : RangeReadable sparseVolume 0
      (sparseVolume.blockBytes (sparseVolume.blockNumber 0 0)) secondBlock := by
    intro _
    rw [sparseVolume_extents]
    refine ⟨fun _ hmeets => absurd hmeets (by decide), fun _ _ => ?_, trivial⟩
    exact ⟨fun _ => by decide, fun _ => ⟨by decide, fun _ => by decide⟩⟩
  exact (udfReadFileData_fills_iff sparseVolume 0 0 secondBlock (fun _ _ => rfl)
    sparseVolume_covered).mpr hreadable sparseVolume.device.contents (fun _ _ => rfl) Cells.fresh

theorem firstByte_start_lt : 0 < 2 ^ 64 := by decide

theorem firstByte_length_lt : 1 < 2 ^ 32 := by decide

def firstByte : FileRange := ⟨0, 1, firstByte_start_lt, firstByte_length_lt⟩

/-- The first byte of the file is 0; the read gives the first byte of the recorded half. -/
theorem udfReadFileData_sparse :
    udfFileByte sparseVolume (udfExtents (sparseVolume.blockBytes 0) 0) 0 = 0 ∧
      (udfReadFileData sparseVolume 0 0 firstByte Cells.fresh).map (fun filled => filled 0) =
        some (some 7) ∧
      ¬ UdfFills sparseVolume (udfExtents (sparseVolume.blockBytes 0) 0)
        (udfFileHeader (sparseVolume.blockBytes 0)).informationLength firstByte Cells.fresh
        (udfReadFileData sparseVolume 0 0 firstByte Cells.fresh) := by
  have hbyte : udfFileByte sparseVolume (udfExtents (sparseVolume.blockBytes 0) 0) 0 = 0 := by
    decide +kernel
  have hread : (udfReadFileData sparseVolume 0 0 firstByte Cells.fresh).map
      (fun filled => filled 0) = some (some 7) := by
    decide +kernel
  refine ⟨hbyte, hread, ?_⟩
  rintro ⟨filled, hfilled, hcells, -⟩
  have hcell := hcells 0 (by decide +kernel)
  rw [hfilled, Option.map_some, hcell] at hread
  have hwanted := Option.some.inj (Option.some.inj hread)
  rw [show firstByte.start + 0 = 0 from rfl, hbyte] at hwanted
  exact absurd hwanted (by decide)

end RetroRocket
