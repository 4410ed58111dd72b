import RetroRocket.BlockSource

/-!
# ext2 volumes: blocks, inodes and the block map

`ext2_block_to_lba`, `ext2_read_block`, `ext2_read_inode` and `ext2_inode_block`. What goes wrong in
the machine, a division by zero or a read outside a buffer, is an outcome of its own, apart from a
call that fails.
-/

namespace RetroRocket

/-- The part of `ext2_t` that reading uses; `inodeTable` is the field of the group descriptors. -/
structure Ext2Volume where
  device : BlockSource
  /-- The first block of the volume on the device. -/
  start : ℕ
  /-- The length of the volume in bytes. -/
  length : ℕ
  blockSize : ℕ
  inodeSize : ℕ
  inodesPerGroup : ℕ
  groupCount : ℕ
  inodeTable : ℕ → ℕ

/-- The fields of `ext2_inode_t` that are used. -/
structure Ext2Inode where
  mode : ℕ
  size : ℕ
  mtime : ℕ
  block : ℕ → ℕ

inductive Ext2Fault where
  | divideError
  /-- A read behind the end of a buffer, or of bytes of it that were never filled. -/
  | overrun
  deriving DecidableEq

/-- How a call ends: with a fault of the machine, with `false`, or with a result. -/
inductive Checked (α : Type) where
  | fault (reason : Ext2Fault)
  | failed
  | ok (value : α)
  deriving DecidableEq

def Checked.result? {α : Type} : Checked α → Option α
  | .ok value => some value
  | _ => none

/-! ## Blocks -/

/-- `ext2_block_to_lba`: a block behind the end of the volume becomes its first one. -/
def ext2BlockToLba (fs : Ext2Volume) (block : ℕ) : ℕ :=
  let lba := u64 (fs.start + block * fs.blockSize / fs.device.blockSize)
  let partitionEnd := u64 (fs.start + fs.length / fs.device.blockSize)
  if partitionEnd ≤ lba then fs.start else lba

/-- `ext2_read_block`, into a buffer nobody has written. -/
def ext2ReadBlock (fs : Ext2Volume) (block : ℕ) : Option Cells :=
  fs.device.readStorageDevice (ext2BlockToLba fs block) fs.blockSize Cells.fresh

/-! ## Inodes -/

/-- `sizeof(ext2_inode_t)`. -/
abbrev ext2InodeBytes : ℕ := 128

def ext2InodeAt (block : Buffer) (off : ℕ) : Ext2Inode where
  mode := le16 block off
  size := le32 block (off + 4)
  mtime := le32 block (off + 16)
  block i := le32 block (off + 40 + 4 * i)

def ext2InodeTableBlock (fs : Ext2Volume) (group offset : ℕ) : ℕ :=
  u32 (fs.inodeTable group + offset / fs.blockSize)

def ext2ReadInode (fs : Ext2Volume) (inodeNum : ℕ) : Checked Ext2Inode :=
  if inodeNum = 0 then .failed
  else if fs.inodesPerGroup = 0 then .fault .divideError
  else
    let group := (inodeNum - 1) / fs.inodesPerGroup
    let index := (inodeNum - 1) % fs.inodesPerGroup
    if fs.groupCount ≤ group then .failed
    else
      let offset := u32 (index * fs.inodeSize)
      let blockOffset := offset % fs.blockSize
      match ext2ReadBlock fs (ext2InodeTableBlock fs group offset) with
      | none => .failed
      | some buffer =>
        if fs.blockSize < blockOffset + ext2InodeBytes then .fault .overrun
        else .ok (ext2InodeAt buffer.bytes blockOffset)

theorem ext2ReadInode_of_block {fs : Ext2Volume} {inodeNum : ℕ} {buffer : Cells}
    (hnum : inodeNum ≠ 0) (hper : fs.inodesPerGroup ≠ 0)
    (hgroup : (inodeNum - 1) / fs.inodesPerGroup < fs.groupCount)
    (hread : ext2ReadBlock fs (ext2InodeTableBlock fs ((inodeNum - 1) / fs.inodesPerGroup)
      (u32 ((inodeNum - 1) % fs.inodesPerGroup * fs.inodeSize))) = some buffer)
    (hfits : u32 ((inodeNum - 1) % fs.inodesPerGroup * fs.inodeSize) % fs.blockSize +
      ext2InodeBytes ≤ fs.blockSize) :
    ext2ReadInode fs inodeNum = .ok (ext2InodeAt buffer.bytes
      (u32 ((inodeNum - 1) % fs.inodesPerGroup * fs.inodeSize) % fs.blockSize)) := by
  rw [ext2ReadInode, if_neg hnum, if_neg hper]
  dsimp only
  rw [if_neg (not_le.mpr hgroup), hread]
  exact if_neg (not_lt.mpr hfits)

/-! ## The block map -/

/-- Entry `idx` of a block of pointers, if the block can be read. -/
def ext2Pointer (fs : Ext2Volume) (block idx : ℕ) : Option ℕ :=
  (ext2ReadBlock fs block).map fun level => le32 level.bytes (4 * idx)

def Ext2Volume.blockEntries (fs : Ext2Volume) : ℕ := fs.blockSize / 4

/-- `ext2_inode_block`: 0 also where a block of pointers cannot be read. -/
def ext2InodeBlock (fs : Ext2Volume) (inode : Ext2Inode) (logical : ℕ) : ℕ :=
  let entries := fs.blockEntries
  if logical < 12 then inode.block logical
  else
    let logical := logical - 12
    if logical < entries then (ext2Pointer fs (inode.block 12) logical).getD 0
    else
      let logical := logical - entries
      if logical < entries * entries then
        ((ext2Pointer fs (inode.block 13) (logical / entries)).bind fun level2 =>
          ext2Pointer fs level2 (logical % entries)).getD 0
      else
        let logical := logical - entries * entries
        let span := u32 (entries * entries)
        let rem := logical % span
        ((ext2Pointer fs (inode.block 14) (logical / span)).bind fun level2 =>
          (ext2Pointer fs level2 (rem / entries)).bind fun level3 =>
            ext2Pointer fs level3 (rem % entries)).getD 0

/-! ## Reading a file -/

/-- `while (done < length)` of `ext2_read_file`. -/
def ext2ReadLoop (fs : Ext2Volume) (inode : Ext2Inode) (start length : ℕ) :
    ℕ → ℕ → Cells → Option Cells
  | 0, _, buffer => some buffer
  | fuel + 1, done, buffer =>
    if done < length then
      let pos := start + done
      let offset := pos % fs.blockSize
      let phys := ext2InodeBlock fs inode (u32 (pos / fs.blockSize))
      if phys = 0 then some buffer
      else
        (ext2ReadBlock fs phys).bind fun blk =>
          let chunk := min (fs.blockSize - offset) (length - done)
          ext2ReadLoop fs inode start length fuel (done + chunk) (buffer.copy done blk offset chunk)
    else some buffer

/-- `ext2_read_file` of the file with an inode number. Each turn of its loop delivers a byte or
more. -/
def ext2ReadFile (fs : Ext2Volume) (inodeNum : ℕ) (range : FileRange) (buffer : Cells) :
    Checked Cells :=
  match ext2ReadInode fs inodeNum with
  | .fault reason => .fault reason
  | .failed => .failed
  | .ok inode =>
    let start := range.start
    if inode.size ≤ start then .ok buffer
    else
      let length := if inode.size < u64 (start + range.length) then u32 (inode.size - start)
        else range.length
      match ext2ReadLoop fs inode start length length 0 buffer with
      | none => .failed
      | some filled => .ok filled

end RetroRocket
