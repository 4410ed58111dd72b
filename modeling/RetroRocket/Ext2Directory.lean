import RetroRocket.Ext2

/-!
# Mounting an ext2 volume and parsing its directories

`ext2_mount_volume` from the superblock to the group descriptors, and `ext2_parse_directory`. The
array for a directory is memory nobody has written; a read of a byte that was not filled from the
device ends the call with a fault. Loops are followed for at most `fuel` turns; allocations succeed.
-/

namespace RetroRocket

/-! ## Mounting -/

/-- The fields of `ext2_superblock_t` that are used. -/
structure Ext2Superblock where
  blocksCount : ℕ
  logBlockSize : ℕ
  blocksPerGroup : ℕ
  inodesPerGroup : ℕ
  magic : ℕ
  inodeSize : ℕ
  featureIncompat : ℕ

def ext2SuperblockAt (bytes : Buffer) : Ext2Superblock where
  blocksCount := le32 bytes 4
  logBlockSize := le32 bytes 24
  blocksPerGroup := le32 bytes 32
  inodesPerGroup := le32 bytes 40
  magic := le16 bytes 56
  inodeSize := le16 bytes 88
  featureIncompat := le32 bytes 96

abbrev ext2SuperMagic : ℕ := 0xEF53

/-- `EXT2_INCOMPAT_COMPRESSION`, `EXT2_INCOMPAT_RECOVER` and `EXT2_INCOMPAT_META_BG`. -/
def ext2Unsupported (features : ℕ) : Bool :=
  features.testBit 0 || features.testBit 2 || features.testBit 4

/-- `sizeof(ext2_group_desc_t)`. -/
abbrev ext2GroupDescBytes : ℕ := 32

/-- A mounted volume and the memory at `groups`. -/
structure Ext2Mount where
  volume : Ext2Volume
  groups : Cells

def ext2ReadGroups (fs : Ext2Volume) (gdBlock : ℕ) : List ℕ → Cells → Option Cells
  | [], groups => some groups
  | i :: rest, groups =>
    (ext2ReadBlock fs (gdBlock + i)).bind fun blk =>
      ext2ReadGroups fs gdBlock rest (groups.copy (i * fs.blockSize) blk 0 fs.blockSize)

/-- `kcalloc(count, size)`. -/
def Cells.zeroed (bytes : ℕ) : Cells := fun k => if k < bytes then some 0 else none

def Ext2Superblock.groupCount (superblock : Ext2Superblock) : ℕ :=
  u32 (superblock.blocksCount + superblock.blocksPerGroup + 2 ^ 32 - 1) / superblock.blocksPerGroup

/-- `UINT32_MAX / sizeof(ext2_group_desc_t)`. -/
def ext2GroupLimit : ℕ := (2 ^ 32 - 1) / ext2GroupDescBytes

/-- `ext2_mount_volume`: the checks of the superblock and the fields that are set from it. The table
of group descriptors is not there yet. -/
def ext2MountGeometry (device : BlockSource) (start length : ℕ) (superblock : Ext2Superblock) :
    Checked Ext2Volume :=
  if superblock.magic ≠ ext2SuperMagic then .failed
  else if ext2Unsupported superblock.featureIncompat then .failed
  else if 4 < superblock.logBlockSize then .failed
  else if superblock.blocksPerGroup = 0 then .fault .divideError
  else if ext2GroupLimit < superblock.groupCount then .failed
  else .ok
    { device := device, start := start, length := length,
      blockSize := 1024 * 2 ^ superblock.logBlockSize,
      inodeSize := if superblock.inodeSize ≠ 0 then superblock.inodeSize else 128,
      inodesPerGroup := superblock.inodesPerGroup,
      groupCount := superblock.groupCount,
      inodeTable := fun _ => 0 }

def Ext2Volume.gdBlocks (fs : Ext2Volume) : ℕ :=
  (fs.groupCount * ext2GroupDescBytes + fs.blockSize - 1) / fs.blockSize

/-- `ext2_mount_volume` from the superblock up to the root directory. -/
def ext2MountVolume (device : BlockSource) (start length : ℕ) (superblock : Buffer) :
    Checked Ext2Mount :=
  match ext2MountGeometry device start length (ext2SuperblockAt superblock) with
  | .fault reason => .fault reason
  | .failed => .failed
  | .ok fs =>
    let gdBlock := if fs.blockSize = 1024 then 2 else 1
    match ext2ReadGroups fs gdBlock (List.range fs.gdBlocks)
      (Cells.zeroed (fs.gdBlocks * fs.blockSize)) with
    | none => .failed
    | some groups =>
      let inodeTable := fun group => le32 groups.bytes (ext2GroupDescBytes * group + 8)
      .ok ⟨{ fs with inodeTable := inodeTable }, groups⟩

/-! ## Dates -/

def isLeap (year : ℕ) : Bool := (year % 4 == 0 && year % 100 != 0) || year % 400 == 0

/-- The year and the day in it, days being counted from the start of `year`. A year takes a day or
more. -/
def yearOfDays : ℕ → ℕ → ℕ → ℕ × ℕ
  | 0, year, days => (year, days)
  | fuel + 1, year, days =>
    let daysThisYear := if isLeap year then 366 else 365
    if days < daysThisYear then (year, days)
    else yearOfDays fuel (year + 1) (days - daysThisYear)

def monthOfDays (year : ℕ) : List ℕ → ℕ → ℕ → ℕ × ℕ
  | [], month, days => (month, days)
  | length :: rest, month, days =>
    let dim := if month = 2 ∧ isLeap year then length + 1 else length
    if days < dim then (month, days) else monthOfDays year rest (month + 1) (days - dim)

/-- A `datetime_t`, with the century in the year. -/
structure Datetime where
  year : ℕ
  month : ℕ
  day : ℕ
  hour : ℕ
  minute : ℕ
  second : ℕ
  deriving DecidableEq

def datetimeFromTimeT (timestamp : ℕ) : Datetime :=
  let days := timestamp / 86400
  let secsOfDay := timestamp % 86400
  let (year, dayOfYear) := yearOfDays days 1970 days
  let (month, dayOfMonth) :=
    monthOfDays year [31, 28, 31, 30, 31, 30, 31, 31, 30, 31, 30, 31] 1 dayOfYear
  { year, month, day := dayOfMonth + 1, hour := secsOfDay / 3600,
    minute := secsOfDay % 3600 / 60, second := secsOfDay % 60 }

/-! ## Directories -/

/-- The fields of `fs_directory_entry_t` that are filled from a record and its inode; `modified` is
`none` where the inode could not be read. -/
structure Ext2Entry where
  filename : List Byte
  lbapos : ℕ
  size : ℕ
  modified : Option Datetime
  isDirectory : Bool
  deriving DecidableEq

abbrev ext2DirectoryLimit : ℕ := 1024 * 1024 * 4

/-- The fields of an `ext2_dir_entry_t`. -/
def ext2EntryInode (p : Buffer) (off : ℕ) : ℕ := le32 p off

def ext2RecLen (p : Buffer) (off : ℕ) : ℕ := le16 p (off + 4)

def ext2NameLen (p : Buffer) (off : ℕ) : ℕ := (p (off + 6)).toNat

/-- `filename`, up to the first zero byte. -/
def ext2Filename (p : Buffer) (off : ℕ) : List Byte :=
  ((List.range (ext2NameLen p off)).map fun i => p (off + 8 + i)).takeWhile fun b => b != 0

/-- The names `.` and `..`. -/
def isDotName (name : List Byte) : Bool := name == [0x2e] || name == [0x2e, 0x2e]

def ext2Entry (p : Buffer) (off : ℕ) (child : Option Ext2Inode) : Ext2Entry where
  filename := ext2Filename p off
  lbapos := ext2EntryInode p off
  size := child.elim 0 fun inode => if inode.mode &&& 0xF000 = 0x8000 then inode.size else 0
  modified := child.map fun inode => datetimeFromTimeT inode.mtime
  isDirectory := child.elim false fun inode => inode.mode &&& 0xF000 == 0x4000

/-- The bytes from `off` to `off + n` have been written. -/
def Cells.filled (cells : Cells) (off n : ℕ) : Bool :=
  (List.range n).all fun i => (cells (off + i)).isSome

/-- `while (copied < inode.size)`: `some none` is a block that cannot be read. -/
def ext2FillLoop (fs : Ext2Volume) (inode : Ext2Inode) :
    ℕ → ℕ → ℕ → Cells → Option (Option Cells)
  | 0, _, _, _ => none
  | fuel + 1, logical, copied, buffer =>
    if copied < inode.size then
      let phys := ext2InodeBlock fs inode logical
      if phys = 0 then some (some buffer)
      else
        match ext2ReadBlock fs phys with
        | none => some none
        | some blk =>
          let remain := inode.size - copied
          let amount := if fs.blockSize < remain then fs.blockSize else remain
          ext2FillLoop fs inode fuel (logical + 1) (copied + amount)
            (buffer.copy copied blk 0 amount)
    else some (some buffer)

def ext2AddRecord (fs : Ext2Volume) (buffer : Cells) (off : ℕ) (list : List Ext2Entry) :
    Checked (List Ext2Entry) :=
  if ¬ buffer.filled off 4 then .fault .overrun
  else if ext2EntryInode buffer.bytes off = 0 then .ok list
  else if ¬ buffer.filled (off + 6) 1 then .fault .overrun
  else if ext2NameLen buffer.bytes off = 0 then .ok list
  else if ¬ buffer.filled (off + 8) (ext2NameLen buffer.bytes off) then .fault .overrun
  else if isDotName (ext2Filename buffer.bytes off) then .ok list
  else
    match ext2ReadInode fs (ext2EntryInode buffer.bytes off) with
    | .fault reason => .fault reason
    | .failed => .ok (ext2Entry buffer.bytes off none :: list)
    | .ok child => .ok (ext2Entry buffer.bytes off (some child) :: list)

/-- `while (walk < buffer + inode.size)`. -/
def ext2WalkLoop (fs : Ext2Volume) (buffer : Cells) (size : ℕ) :
    ℕ → ℕ → List Ext2Entry → Option (Checked (List Ext2Entry))
  | 0, _, _ => none
  | fuel + 1, off, list =>
    if off < size then
      if ¬ buffer.filled (off + 4) 2 then some (.fault .overrun)
      else if ext2RecLen buffer.bytes off = 0 then some (.ok list)
      else
        match ext2AddRecord fs buffer off list with
        | .fault reason => some (.fault reason)
        | .failed => some .failed
        | .ok list' => ext2WalkLoop fs buffer size fuel (off + ext2RecLen buffer.bytes off) list'
    else some (.ok list)

def ext2ParseDirectory (fs : Ext2Volume) (inodeNum fuel : ℕ) :
    Option (Checked (List Ext2Entry)) :=
  match ext2ReadInode fs inodeNum with
  | .fault reason => some (.fault reason)
  | .failed => some .failed
  | .ok inode =>
    if ext2DirectoryLimit < inode.size then some .failed
    else
      match ext2FillLoop fs inode fuel 0 0 Cells.fresh with
      | none => none
      | some none => some .failed
      | some (some buffer) => ext2WalkLoop fs buffer inode.size fuel 0 []

end RetroRocket
