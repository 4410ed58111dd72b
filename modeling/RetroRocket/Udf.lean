import RetroRocket.BlockSource
import RetroRocket.Ip

/-!
# UDF volumes: partitions, blocks and file entries

The structures of `udf.h` are read at their packed offsets, multi-byte fields through `ntohs`,
`ntohl` and `ntohll`, that is with the most significant byte first. A volume is mounted on devices
with blocks of `UDF_BLOCK_SIZE` only.
-/

namespace RetroRocket

abbrev udfBlockSize : ℕ := 2048

abbrev noPartition : ℕ := 0xffffffff

/-- `ntohll` of the 64-bit field at `off`. -/
def be64 (p : Buffer) (off : ℕ) : ℕ := 2 ^ 32 * be32 p off + be32 p (off + 4)

structure UdfPartition where
  number : ℕ
  startLba : ℕ

/-- The part of `udf_t` that the reading of files and directories uses. -/
structure UdfVolume where
  device : BlockSource
  blockSize_eq : device.blockSize = udfBlockSize
  partitions : List UdfPartition

def udfFindPartitionStart (fs : UdfVolume) (number : ℕ) : ℕ :=
  (fs.partitions.find? fun partition => partition.number == number).elim noPartition
    UdfPartition.startLba

def udfReadBlocks (fs : UdfVolume) (lba blocks : ℕ) (buffer : Cells) : Option Cells :=
  fs.device.readStorageDevice lba (u32 (blocks * udfBlockSize)) buffer

def udfReadPartitionBlocks (fs : UdfVolume) (part lba blocks : ℕ) (buffer : Cells) :
    Option Cells :=
  let partStart := udfFindPartitionStart fs part
  if partStart = noPartition then none
  else udfReadBlocks fs (u32 (partStart + lba)) blocks buffer

/-- `UDF_TAGID_FE`. -/
abbrev tagFileEntry : ℕ := 261

/-- `UDF_TAGID_EFE`. -/
abbrev tagExtendedFileEntry : ℕ := 266

def udfReadFileEntry (fs : UdfVolume) (part lba : ℕ) : Option Buffer :=
  (udfReadPartitionBlocks fs part lba 1 Cells.fresh).bind fun block =>
    let entry := block.bytes
    if be16 entry 0 = tagFileEntry ∨ be16 entry 0 = tagExtendedFileEntry then some entry else none

/-- The fields of `udf_file_entry_t` or `udf_extended_file_entry_t` that are used, with the size
of the structure. -/
structure UdfFileHeader where
  informationLength : ℕ
  icbFlags : ℕ
  lenEa : ℕ
  lenAd : ℕ
  headerSize : ℕ

def udfFileHeader (entry : Buffer) : UdfFileHeader :=
  if be16 entry 0 = tagFileEntry then
    ⟨be64 entry 54, be16 entry 32, be32 entry 166, be32 entry 170, 174⟩
  else ⟨be64 entry 54, be16 entry 32, be32 entry 202, be32 entry 206, 210⟩

namespace UdfFileHeader

/-- `icb_flags & 0x0007`. -/
def adType (header : UdfFileHeader) : ℕ := header.icbFlags % 2 ^ 3

def ads (header : UdfFileHeader) : ℕ := header.headerSize + header.lenEa

end UdfFileHeader

/-- `UDF_AD_SHORT`. -/
abbrev adShort : ℕ := 0

/-- `UDF_AD_LONG`. -/
abbrev adLong : ℕ := 1

/-- `UDF_AD_INICB`. -/
abbrev adInIcb : ℕ := 3

/-! ## The block of a file entry -/

def UdfVolume.blockNumber (fs : UdfVolume) (part lba : ℕ) : ℕ :=
  u32 (udfFindPartitionStart fs part + lba)

def UdfVolume.blockBytes (fs : UdfVolume) (block : ℕ) : Buffer :=
  (Cells.fresh.deliver fs.device.contents (block * udfBlockSize) udfBlockSize).bytes

section Blocks

variable {fs : UdfVolume} {part lba blocks : ℕ} {buffer : Cells}

theorem transferLength_blocks (hsmall : blocks * udfBlockSize < 2 ^ 32) :
    fs.device.transferLength (u32 (blocks * udfBlockSize)) = blocks * udfBlockSize := by
  rw [u32_of_lt hsmall, ← fs.blockSize_eq]
  exact BlockSource.transferLength_mul blocks

theorem udfReadPartitionBlocks_served (hserves : ∀ block bytes, fs.device.serves block bytes = true)
    (hpart : udfFindPartitionStart fs part ≠ noPartition)
    (hsmall : blocks * udfBlockSize < 2 ^ 32) :
    udfReadPartitionBlocks fs part lba blocks buffer =
      some (buffer.deliver fs.device.contents (fs.blockNumber part lba * udfBlockSize)
        (blocks * udfBlockSize)) := by
  rw [udfReadPartitionBlocks, if_neg hpart, udfReadBlocks, BlockSource.readStorageDevice,
    if_pos (hserves _ _), transferLength_blocks hsmall, fs.blockSize_eq]
  rfl

theorem udfReadFileEntry_served (hserves : ∀ block bytes, fs.device.serves block bytes = true)
    (hpart : udfFindPartitionStart fs part ≠ noPartition)
    (htag : be16 (fs.blockBytes (fs.blockNumber part lba)) 0 = tagFileEntry ∨
      be16 (fs.blockBytes (fs.blockNumber part lba)) 0 = tagExtendedFileEntry) :
    udfReadFileEntry fs part lba = some (fs.blockBytes (fs.blockNumber part lba)) := by
  rw [udfReadFileEntry, udfReadPartitionBlocks_served hserves hpart (by decide), Nat.one_mul]
  exact if_pos htag

end Blocks

end RetroRocket
