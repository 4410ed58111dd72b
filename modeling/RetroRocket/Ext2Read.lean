import RetroRocket.Ext2

/-!
# Reading a file of an ext2 volume

The blocks of a file by its inode: a pointer of 0, at any level, is a hole; a pointer to a block
that does not lie in the volume is an error. The driver reads holes short, takes block 0 for a block
of pointers where the pointer to it is 0, and reads the first block of the volume for one outside.
-/

namespace RetroRocket

/-! ## The geometry of a volume -/

/-- Blocks of 1 to 16 KB that are whole blocks of the device, and a last block with a number in 64
bits. -/
structure Ext2Geometry (fs : Ext2Volume) : Prop where
  size : ∃ log ≤ 4, fs.blockSize = 1024 * 2 ^ log
  dvd : fs.device.blockSize ∣ fs.blockSize
  end_lt : fs.start + fs.length / fs.device.blockSize < 2 ^ 64

namespace Ext2Volume

def blockAddress (fs : Ext2Volume) (block : ℕ) : ℕ :=
  fs.start * fs.device.blockSize + block * fs.blockSize

def Contains (fs : Ext2Volume) (block : ℕ) : Prop := (block + 1) * fs.blockSize ≤ fs.length

instance (fs : Ext2Volume) (block : ℕ) : Decidable (fs.Contains block) :=
  inferInstanceAs (Decidable (_ ≤ _))

def ServedBy (fs : Ext2Volume) (serves : ℕ → ℕ → Bool) : Prop :=
  ∀ lba bytes, fs.start ≤ lba → lba * fs.device.blockSize + bytes ≤
    fs.start * fs.device.blockSize + fs.length → serves lba bytes = true

def withDevice (fs : Ext2Volume) (contents : Buffer) (serves : ℕ → ℕ → Bool) : Ext2Volume :=
  { fs with device := { fs.device with contents := contents, serves := serves } }

def AgreesBehindBoot (fs : Ext2Volume) (contents : Buffer) : Prop :=
  ∀ a, a < fs.blockAddress 0 ∨ fs.blockAddress 0 + fs.blockSize ≤ a →
    contents a = fs.device.contents a

end Ext2Volume

/-! ## The blocks of a file -/

/-- One step down the tree of pointers: `none` is a block outside the volume. -/
def ext2Follow (fs : Ext2Volume) (block : Option ℕ) (idx : ℕ) : Option ℕ :=
  block.bind fun number =>
    if number = 0 then some 0
    else if fs.Contains number then
      some (le32 fs.device.contents (fs.blockAddress number + 4 * idx))
    else none

def ext2LastPointer (fs : Ext2Volume) (inode : Ext2Inode) (logical : ℕ) : Option ℕ :=
  let entries := fs.blockEntries
  let single := logical - 12
  let double := single - entries
  let triple := double - entries * entries
  if logical < 12 then some (inode.block logical)
  else if single < entries then ext2Follow fs (some (inode.block 12)) single
  else if double < entries * entries then
    ext2Follow fs (ext2Follow fs (some (inode.block 13)) (double / entries)) (double % entries)
  else
    ext2Follow fs
      (ext2Follow fs (ext2Follow fs (some (inode.block 14)) (triple / (entries * entries)))
        (triple % (entries * entries) / entries))
      (triple % (entries * entries) % entries)

/-- The block that holds a block of a file: 0 for a hole, `none` for one outside the volume. -/
def ext2FileBlock (fs : Ext2Volume) (inode : Ext2Inode) (logical : ℕ) : Option ℕ :=
  (ext2LastPointer fs inode logical).bind fun number =>
    if number = 0 ∨ fs.Contains number then some number else none

def ext2FileByte (fs : Ext2Volume) (inode : Ext2Inode) (pos : ℕ) : Byte :=
  (ext2FileBlock fs inode (pos / fs.blockSize)).elim 0 fun number =>
    if number = 0 then 0
    else fs.device.contents (fs.blockAddress number + pos % fs.blockSize)

/-! ## Reading blocks -/

section Blocks

variable {fs : Ext2Volume} {block idx : ℕ}

theorem Ext2Geometry.blockSize_pos (hgeo : Ext2Geometry fs) : 0 < fs.blockSize := by
  obtain ⟨log, -, hsize⟩ := hgeo.size
  rw [hsize]
  exact Nat.mul_pos (by decide) (Nat.two_pow_pos log)

theorem ext2BlockToLba_eq (hgeo : Ext2Geometry fs) (hin : fs.Contains block) :
    ext2BlockToLba fs block = fs.start + block * fs.blockSize / fs.device.blockSize := by
  have hend := hgeo.end_lt
  have hpos := hgeo.blockSize_pos
  obtain ⟨ratio, hratio⟩ := hgeo.dvd
  have hdevice := fs.device.blockSize_pos
  have hratioPos : 0 < ratio := Nat.pos_of_ne_zero fun hzero => by simp [hzero] at hratio; omega
  have hblock : block * fs.blockSize / fs.device.blockSize = block * ratio := by
    rw [hratio, Nat.mul_left_comm, Nat.mul_div_cancel_left _ hdevice]
  have hlast : (block + 1) * ratio ≤ fs.length / fs.device.blockSize := by
    rw [Nat.le_div_iff_mul_le hdevice, Nat.mul_assoc, Nat.mul_comm ratio, ← hratio]
    exact hin
  rw [Nat.succ_mul] at hlast
  unfold ext2BlockToLba
  dsimp only
  rw [hblock, u64_of_lt hend, u64_of_lt (by omega), if_neg (by omega)]

theorem ext2BlockToLba_address (hgeo : Ext2Geometry fs) (hin : fs.Contains block) :
    ext2BlockToLba fs block * fs.device.blockSize = fs.blockAddress block := by
  rw [ext2BlockToLba_eq hgeo hin, Nat.add_mul, Ext2Volume.blockAddress,
    Nat.div_mul_cancel (hgeo.dvd.mul_left block)]

theorem transferLength_block (hgeo : Ext2Geometry fs) :
    fs.device.transferLength fs.blockSize = fs.blockSize := by
  obtain ⟨ratio, hratio⟩ := hgeo.dvd
  rw [hratio, Nat.mul_comm]
  exact BlockSource.transferLength_mul ratio

theorem ext2ReadBlock_eq (hgeo : Ext2Geometry fs) (hserves : fs.ServedBy fs.device.serves)
    (hin : fs.Contains block) :
    ext2ReadBlock fs block =
      some (Cells.fresh.deliver fs.device.contents (fs.blockAddress block) fs.blockSize) := by
  have haddress := ext2BlockToLba_address hgeo hin
  have hserved : fs.device.serves (ext2BlockToLba fs block) fs.blockSize = true := by
    apply hserves
    · rw [ext2BlockToLba_eq hgeo hin]
      exact Nat.le_add_right _ _
    · rw [haddress, Ext2Volume.blockAddress, Nat.add_assoc, ← Nat.succ_mul]
      exact Nat.add_le_add_left hin _
  rw [ext2ReadBlock, BlockSource.readStorageDevice, if_pos hserved, haddress,
    transferLength_block hgeo]

theorem ext2Pointer_eq (hgeo : Ext2Geometry fs) (hserves : fs.ServedBy fs.device.serves)
    (hin : fs.Contains block) (hidx : idx < fs.blockEntries) :
    ext2Pointer fs block idx =
      some (le32 fs.device.contents (fs.blockAddress block + 4 * idx)) := by
  rw [ext2Pointer, ext2ReadBlock_eq hgeo hserves hin, Option.map_some]
  unfold Ext2Volume.blockEntries at hidx
  congr 1
  apply le32_congr
  intro i hi
  rw [Cells.bytes, Cells.deliver_inside (by omega), Nat.add_assoc]
  rfl

end Blocks

/-! ## The block map of the driver -/

/-- A pointer of the driver is the one of the file, where that is one of the values `good`. -/
def PointerAgrees (good : ℕ → Prop) (block found : Option ℕ) : Prop :=
  ∀ number, good number → block = some number → found = some number

section Map

variable {fs : Ext2Volume} {inode : Ext2Inode} {good : ℕ → Prop}

theorem pointerAgrees_follow (hgeo : Ext2Geometry fs) (hserves : fs.ServedBy fs.device.serves)
    (hgood : ∀ number, number ≠ 0 → good number)
    (hzero : good 0 → ∀ idx < fs.blockEntries, ext2Pointer fs 0 idx = some 0)
    {block found : Option ℕ} (hagrees : PointerAgrees good block found) {idx : ℕ}
    (hidx : idx < fs.blockEntries) :
    PointerAgrees good (ext2Follow fs block idx)
      (found.bind fun number => ext2Pointer fs number idx) := by
  intro next hnext hfollow
  obtain ⟨number, hblock, hstep⟩ := Option.bind_eq_some_iff.mp hfollow
  by_cases hhole : number = 0
  · rw [if_pos hhole] at hstep
    obtain rfl := Option.some.inj hstep
    subst hhole
    rw [hagrees 0 hnext hblock, Option.bind_some]
    exact hzero hnext idx hidx
  · rw [if_neg hhole] at hstep
    by_cases hin : fs.Contains number
    · rw [if_pos hin] at hstep
      rw [hagrees number (hgood number hhole) hblock, Option.bind_some,
        ext2Pointer_eq hgeo hserves hin hidx, Option.some.inj hstep]
    · rw [if_neg hin] at hstep
      exact absurd hstep (by simp)

theorem pointerAgrees_self (number : ℕ) : PointerAgrees good (some number) (some number) :=
  fun _ _ => id

theorem ext2InodeBlock_eq (hgeo : Ext2Geometry fs) (hserves : fs.ServedBy fs.device.serves)
    (hgood : ∀ number, number ≠ 0 → good number)
    (hzero : good 0 → ∀ idx < fs.blockEntries, ext2Pointer fs 0 idx = some 0) {logical number : ℕ}
    (hlogical : logical ≤ 2 ^ 22) (hnumber : good number)
    (hblock : ext2FileBlock fs inode logical = some number) :
    ext2InodeBlock fs inode logical = number := by
  obtain ⟨log, hlog, hsize⟩ := hgeo.size
  have hentries : 256 ≤ fs.blockEntries ∧ fs.blockEntries ≤ 4096 := by
    have hlow := Nat.one_le_two_pow (n := log)
    have hhigh := Nat.pow_le_pow_right (show 0 < 2 by decide) hlog
    unfold Ext2Volume.blockEntries
    omega
  have hlast : ext2LastPointer fs inode logical = some number := by
    obtain ⟨last, hlast, hstep⟩ := Option.bind_eq_some_iff.mp hblock
    split_ifs at hstep with hin
    rw [hlast, Option.some.inj hstep]
  have hsquare : fs.blockEntries * fs.blockEntries ≤ 4096 * 4096 :=
    Nat.mul_le_mul hentries.2 hentries.2
  have hspan : u32 (fs.blockEntries * fs.blockEntries) = fs.blockEntries * fs.blockEntries :=
    u32_of_lt (by omega)
  have hpos : 0 < fs.blockEntries := by omega
  have hstep : ∀ {block found : Option ℕ} {idx : ℕ}, PointerAgrees good block found →
      idx < fs.blockEntries → PointerAgrees good (ext2Follow fs block idx)
        (found.bind fun number => ext2Pointer fs number idx) :=
    fun hagrees hidx => pointerAgrees_follow hgeo hserves hgood hzero hagrees hidx
  unfold ext2InodeBlock
  unfold ext2LastPointer at hlast
  dsimp only at hlast ⊢
  rw [hspan]
  generalize fs.blockEntries = entries at *
  by_cases hdirect : logical < 12
  · rw [if_pos hdirect] at hlast ⊢
    exact Option.some.inj hlast
  rw [if_neg hdirect] at hlast ⊢
  by_cases hsingle : logical - 12 < entries
  · rw [if_pos hsingle] at hlast ⊢
    have hfound := hstep (pointerAgrees_self (inode.block 12)) hsingle number hnumber hlast
    rw [Option.bind_some] at hfound
    rw [hfound, Option.getD_some]
  rw [if_neg hsingle] at hlast ⊢
  by_cases hdouble : logical - 12 - entries < entries * entries
  · rw [if_pos hdouble] at hlast ⊢
    have hidx1 : (logical - 12 - entries) / entries < entries := Nat.div_lt_of_lt_mul hdouble
    have hidx2 : (logical - 12 - entries) % entries < entries := Nat.mod_lt _ hpos
    have hfound := hstep (hstep (pointerAgrees_self (inode.block 13)) hidx1) hidx2 number hnumber
      hlast
    rw [Option.bind_some] at hfound
    rw [hfound, Option.getD_some]
  · rw [if_neg hdouble] at hlast ⊢
    generalize hrest : logical - 12 - entries - entries * entries = rest at *
    have hsquarePos : 256 * 256 ≤ entries * entries := Nat.mul_le_mul hentries.1 hentries.1
    have hidx1 : rest / (entries * entries) < entries := by
      apply Nat.div_lt_of_lt_mul
      calc rest < 256 * 256 * 256 := by omega
        _ ≤ entries * entries * entries := Nat.mul_le_mul hsquarePos hentries.1
    have hidx2 : rest % (entries * entries) / entries < entries :=
      Nat.div_lt_of_lt_mul (Nat.mod_lt _ (by omega))
    have hidx3 : rest % (entries * entries) % entries < entries := Nat.mod_lt _ hpos
    have hfound := hstep (hstep (hstep (pointerAgrees_self (inode.block 14)) hidx1) hidx2) hidx3
      number hnumber hlast
    rw [Option.bind_some, Option.bind_assoc] at hfound
    rw [hfound, Option.getD_some]

end Map

/-! ## The loop -/

section Loop

variable {fs : Ext2Volume} {inode : Ext2Inode} {start length : ℕ}

theorem blockOf_add {size pos k : ℕ} (hk : pos % size + k < size) :
    (pos + k) / size = pos / size ∧ (pos + k) % size = pos % size + k := by
  have hpos : 0 < size := by omega
  have hsplit : pos + k = pos % size + k + size * (pos / size) := by
    have := Nat.mod_add_div pos size
    omega
  constructor
  · rw [hsplit, Nat.add_mul_div_left _ _ hpos, Nat.div_eq_of_lt hk, Nat.zero_add]
  · rw [hsplit, Nat.add_mul_mod_self_left, Nat.mod_eq_of_lt hk]

theorem ext2ReadLoop_fills (hgeo : Ext2Geometry fs) (hserves : fs.ServedBy fs.device.serves)
    (hend : start + length ≤ 2 ^ 32)
    (hblocks : ∀ k < length, ∃ number, number ≠ 0 ∧
      ext2FileBlock fs inode ((start + k) / fs.blockSize) = some number)
    {fuel done : ℕ} {buffer : Cells} (henough : length ≤ done + fuel) :
    ∃ filled, ext2ReadLoop fs inode start length fuel done buffer = some filled ∧
      (∀ k, done ≤ k → k < length → filled k = some (ext2FileByte fs inode (start + k))) ∧
      ∀ k, k < done ∨ length ≤ k → filled k = buffer k := by
  have hpos := hgeo.blockSize_pos
  induction fuel generalizing done buffer with
  | zero => exact ⟨buffer, rfl, fun k hk hkl => by omega, fun k hk => rfl⟩
  | succ fuel ih =>
    by_cases hd : done < length
    case neg =>
      refine ⟨buffer, ?_, fun k hk hkl => by omega, fun k hk => rfl⟩
      rw [ext2ReadLoop, if_neg hd]
    obtain ⟨number, hne, hblock⟩ := hblocks done hd
    have hlogical : (start + done) / fs.blockSize ≤ 2 ^ 22 := by
      obtain ⟨log, -, hsize⟩ := hgeo.size
      have hkilo : 1024 ≤ fs.blockSize := by
        rw [hsize]
        exact Nat.le_mul_of_pos_right _ (Nat.two_pow_pos log)
      exact (Nat.div_le_div_left hkilo (by decide)).trans (by omega)
    have hphys : ext2InodeBlock fs inode (u32 ((start + done) / fs.blockSize)) = number := by
      rw [u32_of_lt (by omega)]
      exact ext2InodeBlock_eq hgeo hserves (fun _ => id) (fun h => absurd rfl h) hlogical hne hblock
    have hin : fs.Contains number := by
      obtain ⟨last, -, hstep⟩ := Option.bind_eq_some_iff.mp hblock
      split_ifs at hstep with hlast
      obtain rfl := Option.some.inj hstep
      exact hlast.resolve_left hne
    have hoffset : (start + done) % fs.blockSize < fs.blockSize := Nat.mod_lt _ hpos
    generalize hchunk : min (fs.blockSize - (start + done) % fs.blockSize) (length - done) = chunk
    obtain ⟨filled, hrun, hbytes, hframe⟩ := @ih (done + chunk) (buffer.copy done
      (Cells.fresh.deliver fs.device.contents (fs.blockAddress number) fs.blockSize)
      ((start + done) % fs.blockSize) chunk) (by omega)
    refine ⟨filled, ?_, fun k hk hkl => ?_, fun k hk => ?_⟩
    · rw [ext2ReadLoop, if_pos hd]
      dsimp only
      rw [hphys, if_neg hne, ext2ReadBlock_eq hgeo hserves hin, Option.bind_some, hchunk, hrun]
    · by_cases hhere : k < done + chunk
      · have hplace := blockOf_add (show (start + done) % fs.blockSize + (k - done) <
          fs.blockSize by omega)
        rw [show start + done + (k - done) = start + k by omega] at hplace
        rw [hframe k (.inl hhere), Cells.copy_inside hk hhere, Cells.deliver_inside (by omega),
          ext2FileByte, hplace.1, hplace.2, hblock, Option.elim_some, if_neg hne]
      · exact hbytes k (by omega) hkl
    · rw [hframe k (by omega), Cells.copy_outside (by omega)]

theorem ext2ReadLoop_served (hserves : ∀ lba bytes, fs.device.serves lba bytes = true)
    (fuel done : ℕ) (buffer : Cells) :
    ∃ filled, ext2ReadLoop fs inode start length fuel done buffer = some filled := by
  induction fuel generalizing done buffer with
  | zero => exact ⟨buffer, rfl⟩
  | succ fuel ih =>
    rw [ext2ReadLoop]
    split_ifs with hd
    · dsimp only
      split_ifs with hphys
      · exact ⟨buffer, rfl⟩
      · rw [ext2ReadBlock, BlockSource.readStorageDevice, if_pos (hserves _ _), Option.bind_some]
        exact ih _ _
    · exact ⟨buffer, rfl⟩

theorem ext2InodeBlock_ne_zero_of_filled {fuel done : ℕ} {buffer filled : Cells}
    (hpos : 0 < fs.blockSize)
    (hrun : ext2ReadLoop fs inode start length fuel done buffer = some filled)
    (hblank : ∀ k, done ≤ k → buffer k = none)
    (hfilled : ∀ k, done ≤ k → k < length → filled k ≠ none) :
    ∀ k, done ≤ k → k < length →
      ext2InodeBlock fs inode (u32 ((start + k) / fs.blockSize)) ≠ 0 := by
  induction fuel generalizing done buffer with
  | zero =>
    intro k hk hkl
    rw [ext2ReadLoop] at hrun
    rw [← Option.some.inj hrun] at hfilled
    exact absurd (hblank k hk) (hfilled k hk hkl)
  | succ fuel ih =>
    intro k hk hkl
    have hoffset : (start + done) % fs.blockSize < fs.blockSize := Nat.mod_lt _ hpos
    rw [ext2ReadLoop, if_pos (by omega)] at hrun
    dsimp only at hrun
    by_cases hphys : ext2InodeBlock fs inode (u32 ((start + done) / fs.blockSize)) = 0
    · rw [if_pos hphys] at hrun
      rw [← Option.some.inj hrun] at hfilled
      exact absurd (hblank k hk) (hfilled k hk hkl)
    · rw [if_neg hphys] at hrun
      obtain ⟨blk, -, hrest⟩ := Option.bind_eq_some_iff.mp hrun
      generalize hchunk : min (fs.blockSize - (start + done) % fs.blockSize) (length - done) =
        chunk at hrest
      by_cases hhere : k < done + chunk
      · have hplace := blockOf_add (show (start + done) % fs.blockSize + (k - done) <
          fs.blockSize by omega)
        rw [show start + done + (k - done) = start + k by omega] at hplace
        rwa [hplace.1]
      · refine ih hrest (fun j hj => ?_) (fun j hj hjl => hfilled j (by omega) hjl) k (by omega) hkl
        rw [Cells.copy_outside (by omega), hblank j (by omega)]

end Loop

/-! ## The theorem -/

/-- A call fills the part of the range that lies in the file with its bytes, holes being zeros, and
writes no others; if a block of that part lies outside the volume, it fails. -/
def Ext2Fills (fs : Ext2Volume) (inode : Ext2Inode) (range : FileRange) (buffer : Cells)
    (result : Checked Cells) : Prop :=
  let outside := ∃ k < cutLength inode.size range,
    ext2FileBlock fs inode ((range.start + k) / fs.blockSize) = none
  (outside → result = .failed) ∧
    (¬ outside → ∃ filled, result = .ok filled ∧
      (∀ k < cutLength inode.size range,
        filled k = some (ext2FileByte fs inode (range.start + k))) ∧
      ∀ k, cutLength inode.size range ≤ k → filled k = buffer k)

section Variants

variable {fs : Ext2Volume} {inode : Ext2Inode} {contents : Buffer} {serves : ℕ → ℕ → Bool}

theorem ext2Follow_withDevice (hagrees : fs.AgreesBehindBoot contents) (block : Option ℕ)
    {idx : ℕ} : ext2Follow (fs.withDevice contents serves) block idx = ext2Follow fs block idx := by
  unfold ext2Follow
  congr 1
  funext number
  by_cases hhole : number = 0
  · rw [if_pos hhole, if_pos hhole]
  rw [if_neg hhole, if_neg hhole]
  by_cases hin : fs.Contains number
  · rw [if_pos hin, if_pos (show (fs.withDevice contents serves).Contains number from hin)]
    congr 1
    apply le32_congr
    intro i hi
    apply hagrees
    right
    have hfirst : fs.blockSize ≤ number * fs.blockSize :=
      Nat.le_mul_of_pos_left _ (Nat.pos_of_ne_zero hhole)
    change fs.start * fs.device.blockSize + 0 * fs.blockSize + fs.blockSize ≤
      fs.start * fs.device.blockSize + number * fs.blockSize + 4 * idx + i
    omega
  · rw [if_neg hin, if_neg (show ¬ (fs.withDevice contents serves).Contains number from hin)]

theorem ext2FileBlock_withDevice (hagrees : fs.AgreesBehindBoot contents) (logical : ℕ) :
    ext2FileBlock (fs.withDevice contents serves) inode logical =
      ext2FileBlock fs inode logical := by
  unfold ext2FileBlock ext2LastPointer
  simp only [ext2Follow_withDevice hagrees]
  rfl

def Ext2Volume.zeroBoot (fs : Ext2Volume) : Ext2Volume :=
  fs.withDevice (fun a => if fs.blockAddress 0 ≤ a ∧ a < fs.blockAddress 0 + fs.blockSize then 0
    else fs.device.contents a) fun _ _ => true

theorem withDevice_geometry (hgeo : Ext2Geometry fs) :
    Ext2Geometry (fs.withDevice contents serves) :=
  ⟨hgeo.size, hgeo.dvd, hgeo.end_lt⟩

theorem ext2Pointer_zeroBoot (hgeo : Ext2Geometry fs) {idx : ℕ} (hidx : idx < fs.blockEntries) :
    ext2Pointer fs.zeroBoot 0 idx = some 0 := by
  have hstart : fs.start < 2 ^ 64 := lt_of_le_of_lt (Nat.le_add_right _ _) hgeo.end_lt
  have hlba : ext2BlockToLba fs.zeroBoot 0 = fs.start := by
    unfold ext2BlockToLba
    simp only [Nat.zero_mul, Nat.zero_div, Nat.add_zero]
    rw [show fs.zeroBoot.start = fs.start from rfl, u64_of_lt hstart, ite_self]
  have htransfer : fs.zeroBoot.device.transferLength fs.zeroBoot.blockSize = fs.blockSize :=
    transferLength_block (withDevice_geometry hgeo)
  unfold Ext2Volume.blockEntries at hidx
  rw [ext2Pointer, ext2ReadBlock, BlockSource.readStorageDevice,
    if_pos (show fs.zeroBoot.device.serves _ _ = true from rfl), Option.map_some, hlba, htransfer]
  congr 1
  have hbyte : ∀ k < fs.blockSize, (Cells.fresh.deliver fs.zeroBoot.device.contents
      (fs.start * fs.zeroBoot.device.blockSize) fs.blockSize).bytes k = 0 := by
    intro k hk
    rw [Cells.bytes, Cells.deliver_inside hk, Option.getD_some]
    apply if_pos
    rw [Ext2Volume.blockAddress, Nat.zero_mul, Nat.add_zero]
    change fs.start * fs.device.blockSize ≤ fs.start * fs.device.blockSize + k ∧
      fs.start * fs.device.blockSize + k < fs.start * fs.device.blockSize + fs.blockSize
    omega
  have hzero : le32 (fun _ => 0) 0 = 0 := by decide
  rw [← hzero]
  apply le32_congr
  intro i hi
  exact hbyte (4 * idx + i) (by omega)

theorem inodeSize_lt {fs : Ext2Volume} {inodeNum : ℕ}
    (hinode : ext2ReadInode fs inodeNum = .ok inode) : inode.size < 2 ^ 32 := by
  unfold ext2ReadInode at hinode
  split_ifs at hinode with hzero hgroups
  dsimp only at hinode
  cases hread : ext2ReadBlock fs (ext2InodeTableBlock fs ((inodeNum - 1) / fs.inodesPerGroup)
      (u32 ((inodeNum - 1) % fs.inodesPerGroup * fs.inodeSize))) with
  | none => simp [hread] at hinode
  | some block =>
    rw [hread] at hinode
    dsimp only at hinode
    split_ifs at hinode with hcut
    rw [← Checked.ok.inj hinode]
    exact le32_lt _ _

theorem ext2ReadFile_eq {fs : Ext2Volume} {inodeNum : ℕ} {range : FileRange} {buffer : Cells}
    (hinode : ext2ReadInode fs inodeNum = .ok inode) :
    ext2ReadFile fs inodeNum range buffer =
      (ext2ReadLoop fs inode range.start (cutLength inode.size range)
        (cutLength inode.size range) 0 buffer).elim .failed .ok := by
  have hsize := inodeSize_lt hinode
  have hlength := range.length_lt
  rw [ext2ReadFile, hinode]
  dsimp only
  by_cases hpast : inode.size ≤ range.start
  · have hcut : cutLength inode.size range = 0 := by
      unfold cutLength
      omega
    rw [if_pos hpast, hcut]
    rfl
  · have hcut : (if inode.size < u64 (range.start + range.length) then
        u32 (inode.size - range.start) else range.length) = cutLength inode.size range := by
      rw [u64_of_lt (by omega), cutLength]
      split_ifs with hlong
      · rw [u32_of_lt (by omega)]
        omega
      · omega
    rw [if_neg hpast, hcut]
    cases ext2ReadLoop fs inode range.start (cutLength inode.size range)
      (cutLength inode.size range) 0 buffer with
    | none => rfl
    | some filled => rfl

/-- Each block of the file that holds a byte of the range is there: no pointer on the way to it is
0, and all of them lie in the volume. -/
def Ext2RangeThere (fs : Ext2Volume) (inode : Ext2Inode) (range : FileRange) : Prop :=
  ∀ k < cutLength inode.size range, ∃ number, number ≠ 0 ∧
    ext2FileBlock fs inode ((range.start + k) / fs.blockSize) = some number

theorem cutLength_le {size : ℕ} {range : FileRange} (h : 0 < cutLength size range) :
    range.start + cutLength size range ≤ size := by
  unfold cutLength at h ⊢
  omega

theorem ext2Fills_of_there {fs : Ext2Volume} {inodeNum : ℕ} {range : FileRange} {buffer : Cells}
    (hgeo : Ext2Geometry fs) (hserves : fs.ServedBy fs.device.serves)
    (hinode : ext2ReadInode fs inodeNum = .ok inode) (hthere : Ext2RangeThere fs inode range) :
    Ext2Fills fs inode range buffer (ext2ReadFile fs inodeNum range buffer) := by
  have hsize := inodeSize_lt hinode
  rw [ext2ReadFile_eq hinode]
  constructor
  · rintro ⟨k, hk, hnone⟩
    obtain ⟨number, -, hblock⟩ := hthere k hk
    rw [hblock] at hnone
    exact absurd hnone (by simp)
  · intro _
    by_cases hempty : 0 < cutLength inode.size range
    · have hend := cutLength_le hempty
      obtain ⟨filled, hrun, hbytes, hframe⟩ := @ext2ReadLoop_fills fs inode range.start
        (cutLength inode.size range) hgeo hserves (by omega) hthere (cutLength inode.size range) 0
        buffer (by omega)
      rw [hrun]
      exact ⟨filled, rfl, fun k hk => hbytes k (Nat.zero_le k) hk, fun k hk => hframe k (.inr hk)⟩
    · have hcut : cutLength inode.size range = 0 := by omega
      rw [hcut]
      exact ⟨buffer, rfl, fun k hk => by omega, fun k hk => rfl⟩

/-- **Reading a file.** For every volume and every inode that does not depend on block 0, every
start and every length, a call fills the buffer with the bytes of the file and fails on a block
outside the volume, for every content of block 0, every device that serves the requests inside the
volume and every buffer, if and only if no pointer on the way to a byte of the range is 0 or lies
outside the volume. -/
theorem ext2ReadFile_fills_iff (fs : Ext2Volume) (hgeo : Ext2Geometry fs) (inodeNum : ℕ)
    (inode : Ext2Inode) (range : FileRange)
    (hinode : ∀ contents serves, fs.AgreesBehindBoot contents → fs.ServedBy serves →
      ext2ReadInode (fs.withDevice contents serves) inodeNum = .ok inode) :
    (∀ contents serves, fs.AgreesBehindBoot contents → fs.ServedBy serves → ∀ buffer,
      Ext2Fills (fs.withDevice contents serves) inode range buffer
        (ext2ReadFile (fs.withDevice contents serves) inodeNum range buffer)) ↔
      Ext2RangeThere fs inode range := by
  constructor
  · intro hfills k hk
    have hagrees : fs.AgreesBehindBoot fs.zeroBoot.device.contents := by
      intro a ha
      exact if_neg fun hin => by omega
    have hserves : fs.ServedBy fs.zeroBoot.device.serves := fun _ _ _ _ => rfl
    have hread : ext2ReadInode fs.zeroBoot inodeNum = .ok inode := hinode _ _ hagrees hserves
    have hright : Ext2Fills fs.zeroBoot inode range Cells.fresh
        (ext2ReadFile fs.zeroBoot inodeNum range Cells.fresh) := hfills _ _ hagrees hserves _
    rw [ext2ReadFile_eq hread] at hright
    obtain ⟨filled, hrun⟩ := @ext2ReadLoop_served fs.zeroBoot inode range.start
      (cutLength inode.size range) (fun _ _ => rfl) (cutLength inode.size range) 0 Cells.fresh
    rw [hrun] at hright
    obtain ⟨hfails, hfilled⟩ := hright
    have hinside : ¬ ∃ k < cutLength inode.size range,
        ext2FileBlock fs.zeroBoot inode ((range.start + k) / fs.zeroBoot.blockSize) = none :=
      fun houtside => absurd (hfails houtside) (by simp)
    obtain ⟨found, hfound, hbytes, -⟩ := hfilled hinside
    obtain rfl := Checked.ok.inj hfound
    have hpos : 0 < fs.zeroBoot.blockSize := hgeo.blockSize_pos
    have hmapped := ext2InodeBlock_ne_zero_of_filled hpos hrun (fun _ _ => rfl)
      (fun j _ hj => by rw [hbytes j hj]; simp) k (Nat.zero_le k) hk
    cases hblock : ext2FileBlock fs.zeroBoot inode ((range.start + k) / fs.zeroBoot.blockSize) with
    | none => exact absurd ⟨k, hk, hblock⟩ hinside
    | some number =>
      refine ⟨number, fun hzero => hmapped ?_, ?_⟩
      · have hend := cutLength_le (show 0 < cutLength inode.size range by omega)
        have hsize := inodeSize_lt hread
        have hlogical : (range.start + k) / fs.zeroBoot.blockSize ≤ 2 ^ 22 := by
          obtain ⟨log, -, hlog⟩ := hgeo.size
          have hkilo : 1024 ≤ fs.zeroBoot.blockSize := by
            rw [show fs.zeroBoot.blockSize = 1024 * 2 ^ log from hlog]
            exact Nat.le_mul_of_pos_right _ (Nat.two_pow_pos log)
          exact (Nat.div_le_div_left hkilo (by decide)).trans (by omega)
        rw [u32_of_lt (by omega), ← hzero]
        exact @ext2InodeBlock_eq fs.zeroBoot inode (fun _ => True) (withDevice_geometry hgeo)
          hserves (fun _ _ => trivial) (fun _ idx hidx => ext2Pointer_zeroBoot hgeo hidx) _ number
          hlogical trivial hblock
      · rw [← hblock]
        exact (ext2FileBlock_withDevice hagrees _).symm
  · intro hthere contents serves hagrees hserves buffer
    have hserved : (fs.withDevice contents serves).ServedBy serves := hserves
    apply ext2Fills_of_there (withDevice_geometry hgeo) hserved (hinode _ _ hagrees hserves)
    intro k hk
    obtain ⟨number, hne, hblock⟩ := hthere k hk
    exact ⟨number, hne, by rw [ext2FileBlock_withDevice hagrees]; exact hblock⟩

theorem ext2ReadBlock_withDevice (hgeo : Ext2Geometry fs) (hagrees : fs.AgreesBehindBoot contents)
    (hserves : fs.ServedBy serves) {block : ℕ} (hin : fs.Contains block) (hne : block ≠ 0) :
    ext2ReadBlock (fs.withDevice contents serves) block =
      some (Cells.fresh.deliver fs.device.contents (fs.blockAddress block) fs.blockSize) := by
  have hserved : (fs.withDevice contents serves).ServedBy serves := hserves
  have hinside : (fs.withDevice contents serves).Contains block := hin
  have hfirst : fs.blockSize ≤ block * fs.blockSize :=
    Nat.le_mul_of_pos_left _ (Nat.pos_of_ne_zero hne)
  rw [ext2ReadBlock_eq (withDevice_geometry hgeo) hserved hinside]
  congr 1
  funext k
  change Cells.fresh.deliver contents (fs.blockAddress block) fs.blockSize k = _
  by_cases hk : k < fs.blockSize
  · rw [Cells.deliver_inside hk, Cells.deliver_inside hk]
    congr 1
    apply hagrees
    right
    change fs.start * fs.device.blockSize + 0 * fs.blockSize + fs.blockSize ≤
      fs.start * fs.device.blockSize + block * fs.blockSize + k
    omega
  · rw [Cells.deliver_outside (not_lt.mp hk), Cells.deliver_outside (not_lt.mp hk)]

end Variants

/-! ## A small volume -/

theorem smallExt2_blockSize_pos : 0 < 512 := by decide

/-- Eight blocks of 1 KB. The inode table is block 2; its first inode has ten bytes and one pointer;
block 3 is filled with sevens. -/
def smallExt2 (pointer : Byte) : Ext2Volume where
  device := ⟨512, smallExt2_blockSize_pos,
    fun a => if a = 2052 then 10 else if a = 2088 then pointer
      else if 3072 ≤ a ∧ a < 4096 then 7 else 0,
    fun _ _ => true⟩
  start := 0
  length := 8192
  blockSize := 1024
  inodeSize := 128
  inodesPerGroup := 8
  groupCount := 1
  inodeTable _ := 2

def smallExt2Inode (pointer : Byte) : Ext2Inode :=
  ext2InodeAt (Cells.fresh.deliver (smallExt2 pointer).device.contents
    ((smallExt2 pointer).blockAddress 2) (smallExt2 pointer).blockSize).bytes 0

theorem smallExt2_geometry (pointer : Byte) : Ext2Geometry (smallExt2 pointer) :=
  ⟨⟨0, by decide, rfl⟩, ⟨2, rfl⟩, show 0 + 8192 / 512 < 2 ^ 64 by decide⟩

theorem smallExt2_readInode (pointer : Byte) (contents : Buffer) (serves : ℕ → ℕ → Bool)
    (hagrees : (smallExt2 pointer).AgreesBehindBoot contents)
    (hserves : (smallExt2 pointer).ServedBy serves) :
    ext2ReadInode ((smallExt2 pointer).withDevice contents serves) 1 =
      .ok (smallExt2Inode pointer) := by
  have hread := ext2ReadBlock_withDevice (smallExt2_geometry pointer) hagrees hserves
    (show (2 + 1) * 1024 ≤ 8192 by decide) (by decide)
  obtain ⟨fs, hfs⟩ : ∃ fs, fs = (smallExt2 pointer).withDevice contents serves := ⟨_, rfl⟩
  have hper : fs.inodesPerGroup = 8 := by rw [hfs]; rfl
  have hgroup : fs.groupCount = 1 := by rw [hfs]; rfl
  have hsize : fs.blockSize = 1024 := by rw [hfs]; rfl
  have hoffset : u32 ((1 - 1) % fs.inodesPerGroup * fs.inodeSize) = 0 := by
    rw [hper]
    simp [u32]
  have htable : ext2InodeTableBlock fs ((1 - 1) / fs.inodesPerGroup) 0 = 2 := by
    rw [hfs]
    exact show u32 (2 + 0 / 1024) = 2 by decide
  rw [← hfs] at hread ⊢
  rw [ext2ReadInode_of_block (by decide) (by omega) (by rw [hper, hgroup]; decide)
    (by rw [hoffset, htable, hread])
    (by rw [hoffset, hsize]; decide), hoffset, Nat.zero_mod]
  rfl

theorem tenBytes_start_lt : 0 < 2 ^ 64 := by decide

theorem tenBytes_length_lt : 10 < 2 ^ 32 := by decide

def tenBytes : FileRange := ⟨0, 10, tenBytes_start_lt, tenBytes_length_lt⟩

/-- A file whose only block is block 3 is read rightly. -/
theorem ext2ReadFile_fills_blockThree :
    Ext2Fills (smallExt2 3) (smallExt2Inode 3) tenBytes Cells.fresh
      (ext2ReadFile (smallExt2 3) 1 tenBytes Cells.fresh) := by
  have hcut : cutLength (smallExt2Inode 3).size tenBytes = 10 := by decide +kernel
  have hfirst : ext2FileBlock (smallExt2 3) (smallExt2Inode 3) 0 = some 3 := by decide +kernel
  have hthere : Ext2RangeThere (smallExt2 3) (smallExt2Inode 3) tenBytes := by
    intro k hk
    have hlogical : (tenBytes.start + k) / (smallExt2 3).blockSize = 0 := by
      rw [hcut] at hk
      change (0 + k) / 1024 = 0
      omega
    exact ⟨3, by decide, by rw [hlogical, hfirst]⟩
  exact (ext2ReadFile_fills_iff (smallExt2 3) (smallExt2_geometry 3) 1 (smallExt2Inode 3) tenBytes
    (smallExt2_readInode 3)).mpr hthere (smallExt2 3).device.contents (smallExt2 3).device.serves
    (fun _ _ => rfl) (fun _ _ _ _ => rfl) Cells.fresh

/-- Where the only pointer is 0 the ten bytes are a hole: the call succeeds and writes none of them.
Where it names a block behind the volume the call succeeds too, with bytes of the first block. -/
theorem ext2ReadFile_hole :
    (ext2ReadFile (smallExt2 0) 1 tenBytes Cells.fresh).result?.map (fun filled => filled 0) =
        some none ∧
      ¬ Ext2Fills (smallExt2 0) (smallExt2Inode 0) tenBytes Cells.fresh
        (ext2ReadFile (smallExt2 0) 1 tenBytes Cells.fresh) ∧
      (ext2ReadFile (smallExt2 9) 1 tenBytes Cells.fresh).result?.map (fun filled => filled 0) =
        some (some 0) ∧
      ¬ Ext2Fills (smallExt2 9) (smallExt2Inode 9) tenBytes Cells.fresh
        (ext2ReadFile (smallExt2 9) 1 tenBytes Cells.fresh) := by
  have hhole : (ext2ReadFile (smallExt2 0) 1 tenBytes Cells.fresh).result?.map
      (fun filled => filled 0) = some none := by
    decide +kernel
  have hbehind : (ext2ReadFile (smallExt2 9) 1 tenBytes Cells.fresh).result?.map
      (fun filled => filled 0) = some (some 0) := by
    decide +kernel
  refine ⟨hhole, fun hfills => ?_, hbehind, fun hfills => ?_⟩
  · have hbyte : 0 < cutLength (smallExt2Inode 0).size tenBytes := by decide +kernel
    by_cases houtside : ∃ k < cutLength (smallExt2Inode 0).size tenBytes,
        ext2FileBlock (smallExt2 0) (smallExt2Inode 0)
          ((tenBytes.start + k) / (smallExt2 0).blockSize) = none
    · rw [hfills.1 houtside] at hhole
      exact absurd hhole (by decide)
    · obtain ⟨filled, hok, hbytes, -⟩ := hfills.2 houtside
      rw [hok] at hhole
      have hnone : filled 0 = none := Option.some.inj hhole
      rw [hbytes 0 hbyte] at hnone
      exact absurd hnone (by simp)
  · have houtside : ext2FileBlock (smallExt2 9) (smallExt2Inode 9)
        ((tenBytes.start + 0) / (smallExt2 9).blockSize) = none := by
      decide +kernel
    rw [hfills.1 ⟨0, by decide +kernel, houtside⟩] at hbehind
    exact absurd hbehind (by decide)

end RetroRocket
