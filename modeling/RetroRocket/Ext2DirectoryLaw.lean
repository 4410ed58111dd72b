import RetroRocket.Ext2Directory

/-!
# When the metadata of an ext2 volume is parsed safely

Four things are taken from the disk without a check: the number of inodes of a group, by which a
number is divided; the place of an inode, which may run over the end of its block; a hole in a
directory, behind which the array is not filled; and the lengths of records and names. A call
without a fault meets none of them, and a call that meets none of them ends.
-/

namespace RetroRocket

/-! ## Inodes -/

section Inodes

variable {fs : Ext2Volume} {inodeNum : ℕ} {inode : Ext2Inode}

def Ext2Volume.inodeOffset (fs : Ext2Volume) (inodeNum : ℕ) : ℕ :=
  u32 ((inodeNum - 1) % fs.inodesPerGroup * fs.inodeSize)

def Ext2Volume.inodeBlock (fs : Ext2Volume) (inodeNum : ℕ) : Option Cells :=
  if (inodeNum - 1) / fs.inodesPerGroup < fs.groupCount then
    ext2ReadBlock fs
      (ext2InodeTableBlock fs ((inodeNum - 1) / fs.inodesPerGroup) (fs.inodeOffset inodeNum))
  else none

def Ext2InodeInside (fs : Ext2Volume) (inodeNum : ℕ) : Prop :=
  inodeNum ≠ 0 → fs.inodesPerGroup ≠ 0 ∧
    (fs.inodeBlock inodeNum ≠ none →
      fs.inodeOffset inodeNum % fs.blockSize + ext2InodeBytes ≤ fs.blockSize)

def Ext2InodeThere (fs : Ext2Volume) (inodeNum : ℕ) (inode : Ext2Inode) : Prop :=
  inodeNum ≠ 0 ∧ ∃ block, fs.inodeBlock inodeNum = some block ∧
    inode = ext2InodeAt block.bytes (fs.inodeOffset inodeNum % fs.blockSize)

theorem ext2ReadInode_cases (fs : Ext2Volume) (inodeNum : ℕ) :
    (¬ Ext2InodeInside fs inodeNum ∧ ∃ reason, ext2ReadInode fs inodeNum = .fault reason) ∨
    (Ext2InodeInside fs inodeNum ∧ (∀ inode, ¬ Ext2InodeThere fs inodeNum inode) ∧
      ext2ReadInode fs inodeNum = .failed) ∨
    (Ext2InodeInside fs inodeNum ∧ ∃ inode, Ext2InodeThere fs inodeNum inode ∧
      ext2ReadInode fs inodeNum = .ok inode) := by
  unfold ext2ReadInode
  by_cases hnum : inodeNum = 0
  · rw [if_pos hnum]
    exact .inr (.inl ⟨fun h => absurd hnum h, fun inode h => h.1 hnum, rfl⟩)
  rw [if_neg hnum]
  by_cases hper : fs.inodesPerGroup = 0
  · rw [if_pos hper]
    exact .inl ⟨fun h => (h hnum).1 hper, .divideError, rfl⟩
  rw [if_neg hper]
  dsimp only
  by_cases hgroup : fs.groupCount ≤ (inodeNum - 1) / fs.inodesPerGroup
  · have hnone : fs.inodeBlock inodeNum = none := if_neg (not_lt.mpr hgroup)
    rw [if_pos hgroup]
    refine .inr (.inl ⟨fun _ => ⟨hper, fun h => absurd hnone h⟩, ?_, rfl⟩)
    rintro inode ⟨-, block, hblock, -⟩
    exact absurd (hnone.symm.trans hblock) (by simp)
  rw [if_neg hgroup]
  have hread : fs.inodeBlock inodeNum = ext2ReadBlock fs
      (ext2InodeTableBlock fs ((inodeNum - 1) / fs.inodesPerGroup) (fs.inodeOffset inodeNum)) :=
    if_pos (not_le.mp hgroup)
  rw [← Ext2Volume.inodeOffset, ← hread]
  cases hblock : fs.inodeBlock inodeNum with
  | none =>
    refine .inr (.inl ⟨fun _ => ⟨hper, fun h => absurd hblock h⟩, ?_, rfl⟩)
    rintro inode ⟨-, block, hsome, -⟩
    exact absurd (hblock.symm.trans hsome) (by simp)
  | some block =>
    dsimp only
    have hthere : fs.inodeBlock inodeNum ≠ none := by simp [hblock]
    by_cases hcut : fs.blockSize < fs.inodeOffset inodeNum % fs.blockSize + ext2InodeBytes
    · rw [if_pos hcut]
      exact .inl ⟨fun h => absurd ((h hnum).2 hthere) (not_le.mpr hcut), .overrun, rfl⟩
    · rw [if_neg hcut]
      exact .inr (.inr ⟨fun _ => ⟨hper, fun _ => not_lt.mp hcut⟩, _,
        ⟨hnum, block, hblock, rfl⟩, rfl⟩)

theorem ext2InodeThere_unique {other : Ext2Inode} (h : Ext2InodeThere fs inodeNum inode)
    (hother : Ext2InodeThere fs inodeNum other) : other = inode := by
  obtain ⟨-, block, hblock, rfl⟩ := h
  obtain ⟨-, block', hblock', rfl⟩ := hother
  rw [Option.some.inj (hblock.symm.trans hblock')]

end Inodes

/-! ## The bytes of a directory -/

section Fill

variable {fs : Ext2Volume} {inode : Ext2Inode}

def ext2DirByte (fs : Ext2Volume) (inode : Ext2Inode) (pos : ℕ) : Byte :=
  (ext2ReadBlock fs (ext2InodeBlock fs inode (pos / fs.blockSize))).elim 0
    fun block => block.bytes (pos % fs.blockSize)

/-- The first bytes of a directory, up to `stop`, are before its end and before its first hole. -/
def Ext2Mapped (fs : Ext2Volume) (inode : Ext2Inode) (stop : ℕ) : Prop :=
  stop ≤ inode.size ∧ ∀ logical, logical * fs.blockSize < stop → ext2InodeBlock fs inode logical ≠ 0

def Ext2DirServed (fs : Ext2Volume) (inode : Ext2Inode) : Prop :=
  ∀ pos, Ext2Mapped fs inode (pos + 1) →
    ext2ReadBlock fs (ext2InodeBlock fs inode (pos / fs.blockSize)) ≠ none

theorem Ext2Mapped.mono {stop before : ℕ} (h : Ext2Mapped fs inode stop) (hle : before ≤ stop) :
    Ext2Mapped fs inode before :=
  ⟨hle.trans h.1, fun logical hlogical => h.2 logical (lt_of_lt_of_le hlogical hle)⟩

def HoldsDirectory (fs : Ext2Volume) (inode : Ext2Inode) (buffer : Cells) : Prop :=
  ∀ k, (Ext2Mapped fs inode (k + 1) → buffer k = some (ext2DirByte fs inode k)) ∧
    (¬ Ext2Mapped fs inode (k + 1) → buffer k = none)

structure FillState (fs : Ext2Volume) (inode : Ext2Inode) (logical copied : ℕ) (buffer : Cells) :
    Prop where
  copied_eq : copied = min inode.size (logical * fs.blockSize)
  mapped : Ext2Mapped fs inode copied
  bytes : ∀ k < copied, buffer k = some (ext2DirByte fs inode k)
  blank : ∀ k, copied ≤ k → buffer k = none
  served : ∀ k < copied, ext2ReadBlock fs (ext2InodeBlock fs inode (k / fs.blockSize)) ≠ none

theorem ext2ReadBlock_isSome {block k : ℕ} {blk : Cells} (hread : ext2ReadBlock fs block = some blk)
    (hk : k < fs.blockSize) : blk k = some (blk.bytes k) := by
  rw [ext2ReadBlock, BlockSource.readStorageDevice] at hread
  split_ifs at hread
  rw [← Option.some.inj hread, Cells.bytes,
    Cells.deliver_inside (lt_of_lt_of_le hk BlockSource.le_transferLength), Option.getD_some]

theorem ext2FillLoop_cases (hpos : 0 < fs.blockSize) {fuel logical copied : ℕ} {buffer : Cells}
    (hstate : FillState fs inode logical copied buffer) :
    (ext2FillLoop fs inode fuel logical copied buffer = none ∧ fuel ≤ inode.size - copied) ∨
    (¬ Ext2DirServed fs inode ∧
      ext2FillLoop fs inode fuel logical copied buffer = some none) ∨
    (Ext2DirServed fs inode ∧ ∃ filled, HoldsDirectory fs inode filled ∧
      ext2FillLoop fs inode fuel logical copied buffer = some (some filled)) := by
  induction fuel generalizing logical copied buffer with
  | zero => exact .inl ⟨rfl, Nat.zero_le _⟩
  | succ fuel ih =>
    have hcopied := hstate.copied_eq
    -- where the loop stops, the mapped bytes are those copied
    have hstop : (∀ stop, Ext2Mapped fs inode stop → stop ≤ copied) →
        Ext2DirServed fs inode ∧ HoldsDirectory fs inode buffer := by
      intro hall
      refine ⟨fun pos hmapped => hstate.served pos (hall _ hmapped), fun k => ⟨fun hmapped => ?_,
        fun hunmapped => ?_⟩⟩
      · exact hstate.bytes k (hall _ hmapped)
      · apply hstate.blank
        by_contra hk
        exact hunmapped (hstate.mapped.mono (by omega))
    rw [ext2FillLoop]
    by_cases hmore : copied < inode.size
    case neg =>
      rw [if_neg hmore]
      obtain ⟨hserved, hholds⟩ := hstop fun stop hmapped => hmapped.1.trans (by omega)
      exact .inr (.inr ⟨hserved, buffer, hholds, rfl⟩)
    have hblocks : copied = logical * fs.blockSize := by omega
    have hhere : copied / fs.blockSize = logical := by
      rw [hblocks, Nat.mul_div_cancel _ hpos]
    rw [if_pos hmore]
    dsimp only
    by_cases hphys : ext2InodeBlock fs inode logical = 0
    · rw [if_pos hphys]
      obtain ⟨hserved, hholds⟩ := hstop fun stop hmapped => by
        by_contra hlong
        exact hmapped.2 logical (by omega) hphys
      exact .inr (.inr ⟨hserved, buffer, hholds, rfl⟩)
    rw [if_neg hphys]
    have hmapped : ∀ stop, stop ≤ inode.size → stop ≤ (logical + 1) * fs.blockSize →
        Ext2Mapped fs inode stop := by
      intro stop hsize hblock
      refine ⟨hsize, fun l hl => ?_⟩
      by_cases hlast : l = logical
      · rwa [hlast]
      · apply hstate.mapped.2
        have hlt : l < logical + 1 := Nat.lt_of_mul_lt_mul_right (lt_of_lt_of_le hl hblock)
        rw [hblocks]
        exact Nat.mul_lt_mul_of_pos_right (by omega) hpos
    cases hread : ext2ReadBlock fs (ext2InodeBlock fs inode logical) with
    | none =>
      refine .inr (.inl ⟨fun hserved => ?_, rfl⟩)
      apply hserved copied (hmapped _ (by omega) (by rw [Nat.succ_mul]; omega))
      rwa [hhere]
    | some blk =>
      dsimp only
      generalize hamount : (if fs.blockSize < inode.size - copied then fs.blockSize
        else inode.size - copied) = amount
      have hamountLe : 0 < amount ∧ amount ≤ fs.blockSize ∧ copied + amount ≤ inode.size ∧
          copied + amount = min inode.size ((logical + 1) * fs.blockSize) := by
        rw [Nat.succ_mul]
        split_ifs at hamount with hlong <;> omega
      have hplace : ∀ k, copied ≤ k → k < copied + amount →
          k / fs.blockSize = logical ∧ k % fs.blockSize = k - copied := by
        intro k hlow hhigh
        have hsplit : k = fs.blockSize * logical + (k - copied) := by
          rw [Nat.mul_comm, ← hblocks]
          omega
        constructor
        · rw [hsplit, Nat.mul_add_div hpos, Nat.div_eq_of_lt (by omega), Nat.add_zero]
        · conv_lhs => rw [hsplit]
          rw [Nat.mul_add_mod, Nat.mod_eq_of_lt (by omega)]
      have hnext : FillState fs inode (logical + 1) (copied + amount)
          (buffer.copy copied blk 0 amount) := by
        refine ⟨hamountLe.2.2.2,
          hmapped _ hamountLe.2.2.1 (by omega), fun k hk => ?_, fun k hk => ?_,
          fun k hk => ?_⟩
        · by_cases hold : k < copied
          · rw [Cells.copy_outside (.inl hold), hstate.bytes k hold]
          · obtain ⟨hdiv, hmod⟩ := hplace k (by omega) hk
            rw [Cells.copy_inside (by omega) hk, Nat.zero_add, ext2DirByte, hdiv, hmod, hread,
              ext2ReadBlock_isSome hread (by omega)]
            rfl
        · rw [Cells.copy_outside (.inr hk), hstate.blank k (by omega)]
        · by_cases hold : k < copied
          · exact hstate.served k hold
          · rw [(hplace k (by omega) hk).1, hread]
            simp
      rcases ih hnext with ⟨hrun, hfuel⟩ | hfailed | hfilled
      · exact .inl ⟨hrun, by omega⟩
      · exact .inr (.inl hfailed)
      · exact .inr (.inr hfilled)

end Fill

/-! ## Records -/

/-- The offsets at which the walk over a directory of `size` bytes looks, from one of them on. -/
inductive Ext2Visits (p : Buffer) (size : ℕ) : ℕ → ℕ → Prop
  | here {off : ℕ} : off < size → Ext2Visits p size off off
  | next {off place : ℕ} : off < size → ext2RecLen p off ≠ 0 →
      Ext2Visits p size (off + ext2RecLen p off) place → Ext2Visits p size off place

/-- A record with an inode and a name has both in the mapped part of the directory, and the inode
lies in its block; the inodes of the records for `.` and `..` are not looked at. -/
def Ext2EntryInside (fs : Ext2Volume) (inode : Ext2Inode) (off : ℕ) : Prop :=
  let p := ext2DirByte fs inode
  ext2EntryInode p off ≠ 0 → Ext2Mapped fs inode (off + 7) ∧
    (ext2NameLen p off ≠ 0 → Ext2Mapped fs inode (off + 8 + ext2NameLen p off) ∧
      (isDotName (ext2Filename p off) = false → Ext2InodeInside fs (ext2EntryInode p off)))

/-- The length of a record is in the mapped part of the directory, and so is the rest of it, if the
length is not 0. -/
def Ext2RecordInside (fs : Ext2Volume) (inode : Ext2Inode) (off : ℕ) : Prop :=
  Ext2Mapped fs inode (off + 6) ∧
    (ext2RecLen (ext2DirByte fs inode) off ≠ 0 → Ext2EntryInside fs inode off)

section Walk

variable {fs : Ext2Volume} {inode : Ext2Inode} {buffer : Cells} {off : ℕ}

theorem HoldsDirectory.bytes_eq (hholds : HoldsDirectory fs inode buffer) {k stop : ℕ}
    (hmapped : Ext2Mapped fs inode stop) (hk : k < stop) :
    buffer.bytes k = ext2DirByte fs inode k := by
  rw [Cells.bytes, (hholds k).1 (hmapped.mono hk), Option.getD_some]

theorem HoldsDirectory.filled_iff (hholds : HoldsDirectory fs inode buffer) {n : ℕ} (hn : n ≠ 0) :
    buffer.filled off n = true ↔ Ext2Mapped fs inode (off + n) := by
  rw [Cells.filled, List.all_eq_true]
  constructor
  · intro hall
    by_contra hunmapped
    have hlast := hall (n - 1) (List.mem_range.mpr (by omega))
    rw [(hholds (off + (n - 1))).2 (by rwa [Nat.add_assoc, Nat.sub_add_cancel (by omega)])] at hlast
    exact absurd hlast (by decide)
  · intro hmapped i hi
    have hlt := List.mem_range.mp hi
    rw [(hholds (off + i)).1 (hmapped.mono (by omega))]
    rfl

theorem HoldsDirectory.recLen_eq (hholds : HoldsDirectory fs inode buffer)
    (hmapped : Ext2Mapped fs inode (off + 6)) :
    ext2RecLen buffer.bytes off = ext2RecLen (ext2DirByte fs inode) off :=
  le16_congr fun i hi => hholds.bytes_eq hmapped (by omega)

theorem HoldsDirectory.entryInode_eq (hholds : HoldsDirectory fs inode buffer)
    (hmapped : Ext2Mapped fs inode (off + 6)) :
    ext2EntryInode buffer.bytes off = ext2EntryInode (ext2DirByte fs inode) off :=
  le32_congr fun i hi => hholds.bytes_eq hmapped (by omega)

theorem HoldsDirectory.nameLen_eq (hholds : HoldsDirectory fs inode buffer)
    (hmapped : Ext2Mapped fs inode (off + 7)) :
    ext2NameLen buffer.bytes off = ext2NameLen (ext2DirByte fs inode) off := by
  rw [ext2NameLen, ext2NameLen, hholds.bytes_eq hmapped (by omega)]

theorem HoldsDirectory.filename_eq (hholds : HoldsDirectory fs inode buffer)
    (hmapped : Ext2Mapped fs inode (off + 8 + ext2NameLen (ext2DirByte fs inode) off)) :
    ext2Filename buffer.bytes off = ext2Filename (ext2DirByte fs inode) off := by
  have hlen := hholds.nameLen_eq (hmapped.mono (show off + 7 ≤ _ by omega))
  rw [ext2Filename, ext2Filename, hlen]
  congr 1
  apply List.map_congr_left
  intro i hi
  have hlt := List.mem_range.mp hi
  exact hholds.bytes_eq hmapped (by omega)

theorem ext2AddRecord_cases (hholds : HoldsDirectory fs inode buffer)
    (hhead : Ext2Mapped fs inode (off + 6)) (list : List Ext2Entry) :
    (¬ Ext2EntryInside fs inode off ∧
      ∃ reason, ext2AddRecord fs buffer off list = .fault reason) ∨
    (Ext2EntryInside fs inode off ∧ ∃ list', ext2AddRecord fs buffer off list = .ok list') := by
  have hfour : buffer.filled off 4 = true :=
    (hholds.filled_iff (by decide)).mpr (hhead.mono (by omega))
  rw [ext2AddRecord, if_neg (not_not.mpr hfour), hholds.entryInode_eq hhead]
  by_cases hinode : ext2EntryInode (ext2DirByte fs inode) off = 0
  · rw [if_pos hinode]
    exact .inr ⟨fun h => absurd hinode h, list, rfl⟩
  rw [if_neg hinode]
  have hseven := @HoldsDirectory.filled_iff fs inode buffer (off + 6) hholds 1 (by decide)
  by_cases hlength : Ext2Mapped fs inode (off + 7)
  case neg =>
    rw [if_pos fun hfilled => hlength (hseven.mp hfilled)]
    exact .inl ⟨fun h => hlength (h hinode).1, .overrun, rfl⟩
  rw [if_neg (not_not.mpr (hseven.mpr hlength)), hholds.nameLen_eq hlength]
  by_cases hempty : ext2NameLen (ext2DirByte fs inode) off = 0
  · rw [if_pos hempty]
    exact .inr ⟨fun _ => ⟨hlength, fun h => absurd hempty h⟩, list, rfl⟩
  rw [if_neg hempty]
  have hname := @HoldsDirectory.filled_iff fs inode buffer (off + 8) hholds _ hempty
  by_cases hnamed : Ext2Mapped fs inode (off + 8 + ext2NameLen (ext2DirByte fs inode) off)
  case neg =>
    rw [if_pos fun hfilled => hnamed (hname.mp hfilled)]
    exact .inl ⟨fun h => hnamed ((h hinode).2 hempty).1, .overrun, rfl⟩
  rw [if_neg (not_not.mpr (hname.mpr hnamed)), hholds.filename_eq hnamed]
  by_cases hdot : isDotName (ext2Filename (ext2DirByte fs inode) off) = true
  · rw [if_pos hdot]
    exact .inr ⟨fun _ => ⟨hlength, fun _ => ⟨hnamed, fun h => by simp [h] at hdot⟩⟩, list, rfl⟩
  rw [if_neg hdot]
  have hplain : isDotName (ext2Filename (ext2DirByte fs inode) off) = false := by simpa using hdot
  rcases ext2ReadInode_cases fs (ext2EntryInode (ext2DirByte fs inode) off) with
    ⟨hout, reason, hrun⟩ | ⟨hin, -, hrun⟩ | ⟨hin, child, -, hrun⟩
  · rw [hrun]
    exact .inl ⟨fun h => hout (((h hinode).2 hempty).2 hplain), reason, rfl⟩
  · rw [hrun]
    exact .inr ⟨fun _ => ⟨hlength, fun _ => ⟨hnamed, fun _ => hin⟩⟩, _, rfl⟩
  · rw [hrun]
    exact .inr ⟨fun _ => ⟨hlength, fun _ => ⟨hnamed, fun _ => hin⟩⟩, _, rfl⟩

theorem ext2WalkLoop_cases (hholds : HoldsDirectory fs inode buffer) (fuel off : ℕ)
    (list : List Ext2Entry) :
    (ext2WalkLoop fs buffer inode.size fuel off list = none ∧ fuel ≤ inode.size - off) ∨
    ((∃ place, Ext2Visits (ext2DirByte fs inode) inode.size off place ∧
        ¬ Ext2RecordInside fs inode place) ∧
      ∃ reason, ext2WalkLoop fs buffer inode.size fuel off list = some (.fault reason)) ∨
    ((∀ place, Ext2Visits (ext2DirByte fs inode) inode.size off place →
        Ext2RecordInside fs inode place) ∧
      ∃ entries, ext2WalkLoop fs buffer inode.size fuel off list = some (.ok entries)) := by
  induction fuel generalizing off list with
  | zero => exact .inl ⟨rfl, Nat.zero_le _⟩
  | succ fuel ih =>
    rw [ext2WalkLoop]
    by_cases hmore : off < inode.size
    case neg =>
      rw [if_neg hmore]
      refine .inr (.inr ⟨fun place hvisits => ?_, list, rfl⟩)
      cases hvisits with
      | here h => exact absurd h hmore
      | next h => exact absurd h hmore
    rw [if_pos hmore]
    have hsix := @HoldsDirectory.filled_iff fs inode buffer (off + 4) hholds 2 (by decide)
    by_cases hhead : Ext2Mapped fs inode (off + 6)
    case neg =>
      rw [if_pos fun hfilled => hhead (hsix.mp hfilled)]
      exact .inr (.inl ⟨⟨off, .here hmore, fun h => hhead h.1⟩, .overrun, rfl⟩)
    rw [if_neg (not_not.mpr (hsix.mpr hhead)), hholds.recLen_eq hhead]
    by_cases hlast : ext2RecLen (ext2DirByte fs inode) off = 0
    · rw [if_pos hlast]
      refine .inr (.inr ⟨fun place hvisits => ?_, list, rfl⟩)
      cases hvisits with
      | here => exact ⟨hhead, fun h => absurd hlast h⟩
      | next _ h => exact absurd hlast h
    rw [if_neg hlast]
    rcases ext2AddRecord_cases hholds hhead list with ⟨hout, reason, hadd⟩ | ⟨hin, list', hadd⟩
    · rw [hadd]
      exact .inr (.inl ⟨⟨off, .here hmore, fun h => hout (h.2 hlast)⟩, reason, rfl⟩)
    · rw [hadd]
      dsimp only
      rcases ih (off + ext2RecLen (ext2DirByte fs inode) off) list' with
        ⟨hrun, hfuel⟩ | ⟨⟨place, hvisits, hout⟩, hrun⟩ | ⟨hall, hrun⟩
      · exact .inl ⟨hrun, by omega⟩
      · exact .inr (.inl ⟨⟨place, .next hmore hlast hvisits, hout⟩, hrun⟩)
      · refine .inr (.inr ⟨fun place hvisits => ?_, hrun⟩)
        cases hvisits with
        | here => exact ⟨hhead, fun _ => hin⟩
        | next _ _ h => exact hall place h

end Walk

/-! ## Mounted volumes -/

section Mount

variable {fs : Ext2Volume} {gdBlock : ℕ}

theorem ext2ReadGroups_filled {blocks : List ℕ} {groups filled : Cells} {bound : ℕ}
    (hrun : ext2ReadGroups fs gdBlock blocks groups = some filled)
    (hgroups : ∀ k < bound, groups k ≠ none) : ∀ k < bound, filled k ≠ none := by
  induction blocks generalizing groups with
  | nil =>
    rw [← Option.some.inj hrun]
    exact hgroups
  | cons i rest ih =>
    obtain ⟨blk, hread, hrest⟩ := Option.bind_eq_some_iff.mp hrun
    apply ih hrest
    intro k hk
    by_cases hin : i * fs.blockSize ≤ k ∧ k < i * fs.blockSize + fs.blockSize
    · rw [Cells.copy_inside hin.1 hin.2, Nat.zero_add, ext2ReadBlock_isSome hread (by omega)]
      simp
    · rw [Cells.copy_outside (by omega)]
      exact hgroups k hk

theorem ext2MountGeometry_blockSize_pos {device : BlockSource} {start length : ℕ}
    {superblock : Ext2Superblock}
    (hfs : ext2MountGeometry device start length superblock = .ok fs) : 0 < fs.blockSize := by
  unfold ext2MountGeometry at hfs
  split_ifs at hfs
  all_goals
    rw [← Checked.ok.inj hfs]
    exact Nat.mul_pos (by decide) (Nat.two_pow_pos _)

theorem ext2MountVolume_groups {device : BlockSource} {start length : ℕ} {superblock : Buffer}
    {mount : Ext2Mount} (haccepted : ext2MountVolume device start length superblock = .ok mount) :
    0 < mount.volume.blockSize ∧ ∀ group < mount.volume.groupCount, ∀ k < ext2GroupDescBytes,
      mount.groups (ext2GroupDescBytes * group + k) ≠ none := by
  rw [ext2MountVolume] at haccepted
  cases hfs : ext2MountGeometry device start length (ext2SuperblockAt superblock) with
  | fault reason => simp [hfs] at haccepted
  | failed => simp [hfs] at haccepted
  | ok fs =>
    have hpos := ext2MountGeometry_blockSize_pos hfs
    rw [hfs] at haccepted
    dsimp only at haccepted
    cases hgroups : ext2ReadGroups fs (if fs.blockSize = 1024 then 2 else 1)
        (List.range fs.gdBlocks) (Cells.zeroed (fs.gdBlocks * fs.blockSize)) with
    | none => simp [hgroups] at haccepted
    | some groups =>
      rw [hgroups] at haccepted
      rw [← Checked.ok.inj haccepted]
      have hround : fs.groupCount * ext2GroupDescBytes ≤ fs.gdBlocks * fs.blockSize := by
        have h := Nat.lt_div_mul_add
          (a := fs.groupCount * ext2GroupDescBytes + fs.blockSize - 1) hpos
        unfold Ext2Volume.gdBlocks
        omega
      refine ⟨hpos, fun group hgroup k hk => ?_⟩
      change group < fs.groupCount at hgroup
      apply ext2ReadGroups_filled hgroups fun j hj => ?_
      · calc ext2GroupDescBytes * group + k < ext2GroupDescBytes * (group + 1) := by
              rw [Nat.mul_succ]
              exact Nat.add_lt_add_left hk _
          _ ≤ ext2GroupDescBytes * fs.groupCount := Nat.mul_le_mul_left _ hgroup
          _ ≤ fs.gdBlocks * fs.blockSize := by rwa [Nat.mul_comm]
      · rw [Cells.zeroed]
        simp [hj]

end Mount

/-! ## The theorem -/

/-- A directory that is too large is not parsed, and neither is one with a block that cannot be
read; in any other all records of the walk are inside. -/
def Ext2DirectoryInside (fs : Ext2Volume) (inode : Ext2Inode) : Prop :=
  inode.size ≤ ext2DirectoryLimit → Ext2DirServed fs inode →
    ∀ place, Ext2Visits (ext2DirByte fs inode) inode.size 0 place → Ext2RecordInside fs inode place

/-- The descriptors of the groups are in their array, and both calls with an inode number end
without a division by zero and without a read outside a buffer or of bytes never filled. -/
structure Ext2ParsedSafely (mount : Ext2Mount) (inodeNum : ℕ) : Prop where
  descriptors : ∀ group < mount.volume.groupCount, ∀ k < ext2GroupDescBytes,
    mount.groups (ext2GroupDescBytes * group + k) ≠ none
  inode : ∀ reason, ext2ReadInode mount.volume inodeNum ≠ .fault reason
  directory : ∃ fuel result, ext2ParseDirectory mount.volume inodeNum fuel = some result ∧
    ∀ reason, result ≠ .fault reason

theorem fillState_start (fs : Ext2Volume) (inode : Ext2Inode) :
    FillState fs inode 0 0 Cells.fresh :=
  ⟨by simp, ⟨Nat.zero_le _, fun logical h => absurd h (Nat.not_lt_zero _)⟩,
    fun k hk => absurd hk (Nat.not_lt_zero k), fun _ _ => rfl,
    fun k hk => absurd hk (Nat.not_lt_zero k)⟩

theorem ext2ParseDirectory_cases {fs : Ext2Volume} {inodeNum : ℕ} {inode : Ext2Inode}
    (hpos : 0 < fs.blockSize) (hinode : ext2ReadInode fs inodeNum = .ok inode) (fuel : ℕ) :
    (ext2ParseDirectory fs inodeNum fuel = none ∧ fuel ≤ inode.size) ∨
    (¬ Ext2DirectoryInside fs inode ∧
      ∃ reason, ext2ParseDirectory fs inodeNum fuel = some (.fault reason)) ∨
    (Ext2DirectoryInside fs inode ∧ ∃ result, ext2ParseDirectory fs inodeNum fuel = some result ∧
      ∀ reason, result ≠ .fault reason) := by
  rw [ext2ParseDirectory, hinode]
  dsimp only
  by_cases hlarge : ext2DirectoryLimit < inode.size
  · rw [if_pos hlarge]
    exact .inr (.inr ⟨fun h => absurd hlarge (not_lt.mpr h), .failed, rfl, by simp⟩)
  rw [if_neg hlarge]
  rcases @ext2FillLoop_cases fs inode hpos fuel 0 0 _ (fillState_start fs inode) with
    ⟨hrun, hfuel⟩ | ⟨hserved, hrun⟩ | ⟨hserved, buffer, hholds, hrun⟩
  · rw [hrun]
    exact .inl ⟨rfl, hfuel⟩
  · rw [hrun]
    exact .inr (.inr ⟨fun _ h => absurd h hserved, .failed, rfl, by simp⟩)
  · rw [hrun]
    dsimp only
    rcases ext2WalkLoop_cases hholds fuel 0 [] with
      ⟨hwalk, hfuel⟩ | ⟨⟨place, hvisits, hout⟩, reason, hwalk⟩ | ⟨hall, entries, hwalk⟩
    · exact .inl ⟨hwalk, hfuel⟩
    · exact .inr (.inl ⟨fun h => hout (h (not_lt.mp hlarge) hserved place hvisits), reason, hwalk⟩)
    · exact .inr (.inr ⟨fun _ _ => hall, .ok entries, hwalk, by simp⟩)

/-- **Parsing metadata.** For every volume that is mounted, whatever is on the device, and every
inode number, the calls are safe if and only if the groups have inodes, the inode does not run over
the end of its block, and neither the directory's records nor their names nor the inodes they name
leave what was read. -/
theorem ext2ParsedSafely_iff (device : BlockSource) (start length : ℕ) (superblock : Buffer)
    (mount : Ext2Mount) (haccepted : ext2MountVolume device start length superblock = .ok mount)
    (inodeNum : ℕ) :
    Ext2ParsedSafely mount inodeNum ↔
      Ext2InodeInside mount.volume inodeNum ∧
        ∀ inode, Ext2InodeThere mount.volume inodeNum inode →
          Ext2DirectoryInside mount.volume inode := by
  obtain ⟨hpos, hgroups⟩ := ext2MountVolume_groups haccepted
  rcases ext2ReadInode_cases mount.volume inodeNum with
    ⟨hout, reason, hrun⟩ | ⟨hin, hnone, hrun⟩ | ⟨hin, inode, hthere, hrun⟩
  · constructor
    · intro hsafe
      exact absurd hrun (hsafe.inode reason)
    · intro hinside
      exact absurd hinside.1 hout
  · constructor
    · exact fun _ => ⟨hin, fun inode h => absurd h (hnone inode)⟩
    · intro _
      refine ⟨hgroups, fun reason h => ?_, 0, .failed, ?_, by simp⟩
      · exact absurd (hrun.symm.trans h) (by simp)
      · rw [ext2ParseDirectory, hrun]
  · constructor
    · intro hsafe
      refine ⟨hin, fun other hother => ?_⟩
      rw [ext2InodeThere_unique hthere hother]
      obtain ⟨fuel, result, hparse, hresult⟩ := hsafe.directory
      rcases ext2ParseDirectory_cases hpos hrun fuel with
        ⟨hstuck, -⟩ | ⟨-, reason, hfault⟩ | ⟨hinside, -⟩
      · exact absurd (hstuck.symm.trans hparse) (by simp)
      · exact absurd (Option.some.inj (hparse.symm.trans hfault)) (hresult reason)
      · exact hinside
    · rintro ⟨-, hinside⟩
      refine ⟨hgroups, fun reason h => absurd (hrun.symm.trans h) (by simp), inode.size + 1, ?_⟩
      rcases ext2ParseDirectory_cases hpos hrun (inode.size + 1) with
        ⟨-, hfuel⟩ | ⟨hout, -⟩ | ⟨-, hend⟩
      · omega
      · exact absurd (hinside inode hthere) hout
      · exact hend

theorem not_ext2ParsedSafely_of_fault {mount : Ext2Mount} {inodeNum fuel : ℕ} {reason : Ext2Fault}
    (hpos : 0 < mount.volume.blockSize)
    (hfault : ext2ParseDirectory mount.volume inodeNum fuel = some (.fault reason)) :
    ¬ Ext2ParsedSafely mount inodeNum := by
  intro hsafe
  cases hinode : ext2ReadInode mount.volume inodeNum with
  | fault reason => exact hsafe.inode reason hinode
  | failed =>
    rw [ext2ParseDirectory, hinode] at hfault
    exact absurd hfault (by simp)
  | ok inode =>
    obtain ⟨turns, result, hparse, hresult⟩ := hsafe.directory
    rcases ext2ParseDirectory_cases hpos hinode fuel with
      ⟨hstuck, -⟩ | ⟨hout, -⟩ | ⟨-, result', hend, hclean⟩
    · exact absurd (hstuck.symm.trans hfault) (by simp)
    · rcases ext2ParseDirectory_cases hpos hinode turns with
        ⟨hstuck, -⟩ | ⟨-, reason', hagain⟩ | ⟨hin, -⟩
      · exact absurd (hstuck.symm.trans hparse) (by simp)
      · exact hresult reason' (Option.some.inj (hparse.symm.trans hagain))
      · exact hout hin
    · exact hclean reason (Option.some.inj (hend.symm.trans hfault))

/-! ## A small image -/

def sparseBytes (bytes : List (ℕ × Byte)) : Buffer := fun a =>
  (bytes.find? fun field => field.1 == a).elim 0 Prod.snd

def tinySuperblock (inodesPerGroup : Byte) : Buffer :=
  sparseBytes [(4, 8), (32, 8), (40, inodesPerGroup), (56, 0x53), (57, 0xEF)]

theorem tinyDevice_blockSize_pos : 0 < 512 := by decide

/-- The inode table is block 3. Inode 2, the root directory, has twelve bytes and one pointer; block
4 holds the record for `.`. -/
def tinyDevice (pointer : Byte) : BlockSource :=
  ⟨512, tinyDevice_blockSize_pos,
    sparseBytes [(2056, 3), (3204, 12), (3240, pointer), (4096, 2), (4100, 12),
      (4102, 1), (4104, 0x2e)],
    fun _ _ => true⟩

def tinyGroups (pointer : Byte) : Cells :=
  (Cells.zeroed 1024).copy 0 (Cells.fresh.deliver (tinyDevice pointer).contents 2048 1024) 0 1024

def tinyMount (inodesPerGroup pointer : Byte) : Ext2Mount :=
  ⟨⟨tinyDevice pointer, 0, 8192, 1024, 128, inodesPerGroup.toNat, 1,
    fun group => le32 (tinyGroups pointer).bytes (ext2GroupDescBytes * group + 8)⟩,
    tinyGroups pointer⟩

theorem tinySuperblock_fields (inodesPerGroup : Byte) :
    ext2SuperblockAt (tinySuperblock inodesPerGroup) =
      ⟨8, 0, 8, inodesPerGroup.toNat, ext2SuperMagic, 0, 0⟩ := by
  simp [ext2SuperblockAt, tinySuperblock, sparseBytes, le32, le16, leValue]

theorem tinyMount_accepted (inodesPerGroup pointer : Byte) :
    ext2MountVolume (tinyDevice pointer) 0 8192 (tinySuperblock inodesPerGroup) =
      .ok (tinyMount inodesPerGroup pointer) := by
  have hcount : Ext2Superblock.groupCount ⟨8, 0, 8, inodesPerGroup.toNat, ext2SuperMagic, 0, 0⟩ =
      1 := by
    simp [Ext2Superblock.groupCount, u32]
  have hgeo : ext2MountGeometry (tinyDevice pointer) 0 8192
      (ext2SuperblockAt (tinySuperblock inodesPerGroup)) =
        .ok ⟨tinyDevice pointer, 0, 8192, 1024, 128, inodesPerGroup.toNat, 1, fun _ => 0⟩ := by
    rw [tinySuperblock_fields, ext2MountGeometry, hcount]
    simp [ext2Unsupported, ext2GroupLimit, ext2GroupDescBytes]
  obtain ⟨fs, hfs⟩ : ∃ fs : Ext2Volume, fs =
      ⟨tinyDevice pointer, 0, 8192, 1024, 128, inodesPerGroup.toNat, 1, fun _ => 0⟩ := ⟨_, rfl⟩
  have hsize : fs.blockSize = 1024 := by rw [hfs]
  have hblocks : fs.gdBlocks = 1 := by
    rw [hfs]
    exact show (1 * 32 + 1024 - 1) / 1024 = 1 by decide
  have hread : ext2ReadBlock fs 2 =
      some (Cells.fresh.deliver (tinyDevice pointer).contents 2048 1024) := by
    have hlba : ext2BlockToLba fs 2 = 4 := by
      rw [hfs]
      exact show (if u64 (0 + 8192 / 512) ≤ u64 (0 + 2 * 1024 / 512) then 0
        else u64 (0 + 2 * 1024 / 512)) = 4 by decide
    have htransfer : (tinyDevice pointer).transferLength 1024 = 1024 :=
      show (1024 + 512 - 1) / 512 * 512 = 1024 by decide
    have hserves : (tinyDevice pointer).serves 4 1024 = true := rfl
    have hdevice : fs.device = tinyDevice pointer := by rw [hfs]
    rw [ext2ReadBlock, hlba, hsize, hdevice, BlockSource.readStorageDevice, if_pos hserves,
      htransfer]
    rfl
  have hgroups : ext2ReadGroups fs 2 (List.range fs.gdBlocks)
      (Cells.zeroed (fs.gdBlocks * fs.blockSize)) = some (tinyGroups pointer) := by
    rw [hblocks, hsize, List.range_one, ext2ReadGroups, hread, Option.bind_some, ext2ReadGroups,
      hsize]
    rfl
  rw [← hfs] at hgeo
  rw [ext2MountVolume, hgeo]
  dsimp only
  rw [if_pos hsize, hgroups, hfs]
  rfl

/-- The root directory of the image is parsed safely. -/
theorem ext2ParsedSafely_root : Ext2ParsedSafely (tinyMount 8 4) 2 := by
  apply (ext2ParsedSafely_iff (tinyDevice 4) 0 8192 (tinySuperblock 8) (tinyMount 8 4)
    (tinyMount_accepted 8 4) 2).mpr
  have htable : ext2InodeTableBlock (tinyMount 8 4).volume 0 128 = 3 := by decide +kernel
  have hlba : ext2BlockToLba (tinyMount 8 4).volume 3 = 6 := by decide +kernel
  have htransfer : (tinyDevice 4).transferLength 1024 = 1024 := by decide +kernel
  have hserves : (tinyDevice 4).serves 6 1024 = true := rfl
  have hblock : (tinyMount 8 4).volume.inodeBlock 2 =
      some (Cells.fresh.deliver (tinyDevice 4).contents 3072 1024) := by
    have hoffset : (tinyMount 8 4).volume.inodeOffset 2 = 128 := by decide +kernel
    have hsize : (tinyMount 8 4).volume.blockSize = 1024 := rfl
    have hdevice : (tinyMount 8 4).volume.device = tinyDevice 4 := rfl
    rw [Ext2Volume.inodeBlock, if_pos (by decide +kernel), hoffset]
    change ext2ReadBlock _ (ext2InodeTableBlock (tinyMount 8 4).volume 0 128) = _
    rw [htable, ext2ReadBlock, hlba, hsize, hdevice, BlockSource.readStorageDevice,
      if_pos hserves, htransfer]
    rfl
  refine ⟨fun _ => ⟨by decide, fun _ => by decide⟩, ?_⟩
  rintro inode ⟨-, block, hsome, rfl⟩
  obtain rfl := Option.some.inj (hblock.symm.trans hsome)
  generalize hinode : ext2InodeAt (Cells.fresh.deliver (tinyDevice 4).contents 3072 1024).bytes
    ((tinyMount 8 4).volume.inodeOffset 2 % (tinyMount 8 4).volume.blockSize) = inode
  have hsize : inode.size = 12 := by rw [← hinode]; decide +kernel
  have hfirst : ext2InodeBlock (tinyMount 8 4).volume inode 0 = 4 := by
    rw [← hinode]
    decide +kernel
  have hlength : ext2RecLen (ext2DirByte (tinyMount 8 4).volume inode) 0 = 12 := by
    rw [← hinode]
    decide +kernel
  have hnameLen : ext2NameLen (ext2DirByte (tinyMount 8 4).volume inode) 0 = 1 := by
    rw [← hinode]
    decide +kernel
  have hdot : isDotName (ext2Filename (ext2DirByte (tinyMount 8 4).volume inode) 0) = true := by
    rw [← hinode]
    decide +kernel
  have hmapped : ∀ stop ≤ 12, Ext2Mapped (tinyMount 8 4).volume inode stop := by
    intro stop hstop
    refine ⟨by omega, fun logical hlogical => ?_⟩
    change logical * 1024 < stop at hlogical
    obtain rfl : logical = 0 := by omega
    rw [hfirst]
    decide
  intro _ _ place hvisits
  cases hvisits with
  | here =>
    refine ⟨hmapped _ (by decide), fun _ _ => ⟨hmapped _ (by decide), fun _ => ?_⟩⟩
    refine ⟨hmapped _ (by rw [hnameLen]; decide), fun hplain => ?_⟩
    exact absurd (hdot.symm.trans hplain) (by decide)
  | next _ _ hlater =>
    rw [hlength, hsize] at hlater
    cases hlater with
    | here h => exact absurd h (by decide)
    | next h => exact absurd h (by decide)

/-- Where the superblock says that a group has no inodes, the call divides by zero; where the only
block of the directory is a hole, the walk starts in bytes that were never filled. -/
theorem ext2ParsedSafely_damaged :
    ext2ReadInode (tinyMount 0 4).volume 2 = .fault .divideError ∧
      ¬ Ext2ParsedSafely (tinyMount 0 4) 2 ∧
      ext2ParseDirectory (tinyMount 8 0).volume 2 13 = some (.fault .overrun) ∧
      ¬ Ext2ParsedSafely (tinyMount 8 0) 2 := by
  have hzero : ext2ReadInode (tinyMount 0 4).volume 2 = .fault .divideError := rfl
  have hhole : ext2ParseDirectory (tinyMount 8 0).volume 2 13 = some (.fault .overrun) := by
    decide +kernel
  refine ⟨hzero, fun hsafe => hsafe.inode _ hzero, hhole, ?_⟩
  exact not_ext2ParsedSafely_of_fault (show 0 < 1024 by decide) hhole

end RetroRocket
