import Mathlib.Order.Interval.Set.Basic
import RetroRocket.BuddyBlocks
import RetroRocket.Partitions

/-!
# The installer

The installer divides a disk into a system partition for the boot image and a partition for the file
system, writes a GPT that says so, unpacks the boot image, and formats the file system. A ramdisk is
formatted as a whole.

An error page never returns, so an installation that shows one has made the writes up to there. A
size has 64 bits; the checks keep the arithmetic on it from wrapping.
-/

namespace RetroRocket

/-! ## Bytes of the table -/

def alignUpU64 (x a : ℕ) : ℕ := if a = 0 then x else alignUp x a

def randomGuidV4 (r1 r2 : ℕ) : BinaryGuid :=
  let out := leBytes 8 r1 ++ leBytes 8 r2
  (out.modify 6 fun b => b &&& 0x0F ||| 0x40).modify 8 fun b => b &&& 0x3F ||| 0x80

def makeUtf16leName (ascii : String) : List Byte :=
  let units := (bytesOf ascii).take 36
  units.flatMap (fun b => [b, 0]) ++ List.replicate (72 - 2 * units.length) 0

def crcShift (c : BitVec 32) : BitVec 32 := if c &&& 1 = 0 then c >>> 1 else 0xEDB88320 ^^^ c >>> 1

def installerCrc32Update (crc : BitVec 32) (data : List Byte) : BitVec 32 :=
  data.foldl (fun c b => crcShift^[8] ((c ^^^ b.setWidth 32) &&& 0xFF) ^^^ c >>> 8)
    (crc ^^^ 0xFFFFFFFF) ^^^ 0xFFFFFFFF

def gptPteCount : ℕ := 128

def gptPteSizeBytes : ℕ := 128

def sectorBytesRequired : ℕ := 512

def gptEfiSystem : TextGuid := "C12A7328-F81F-11D2-BA4B-00A0C93EC93B".toList

def rfsGptGuid : TextGuid := "4DEC1156-FEC8-4495-854B-20D888E21AF0".toList

/-! ## The layout -/

structure LbaRange where
  first : ℕ
  last : ℕ

namespace LbaRange

def sectors (r : LbaRange) : Set ℕ := Set.Icc r.first r.last

def count (r : LbaRange) : ℕ := r.last - r.first + 1

end LbaRange

def ptesSectors : ℕ :=
  (gptPteCount * gptPteSizeBytes + sectorBytesRequired - 1) / sectorBytesRequired

def espSectors (espBytes : ℕ) : ℕ := (espBytes + sectorBytesRequired - 1) / sectorBytesRequired

def primaryPtesLba : ℕ := 2

def backupPtesLba (lbaCount : ℕ) : ℕ := lbaCount - 1 - ptesSectors + 1

def align1mInLbas : ℕ := 2048

def firstUsable : ℕ := alignUpU64 (max (primaryPtesLba + ptesSectors) 34) align1mInLbas

def lastUsable (lbaCount : ℕ) : ℕ := backupPtesLba lbaCount - 1

def espLastLba (espBytes : ℕ) : ℕ := firstUsable + espSectors espBytes - 1

def rfsFirstLba (espBytes : ℕ) : ℕ := alignUpU64 (espLastLba espBytes + 1) align1mInLbas

/-- The sizes of a disk, in sectors, and of a boot image, in bytes, that the installer goes on
with. -/
structure GptLayout where
  lbaCount : ℕ
  espBytes : ℕ
  lbaCount_lt : lbaCount < 2 ^ 64 - 1
  lbaCount_ge : 34 ≤ lbaCount
  espBytes_pos : 0 < espBytes
  espBytes_lt : espBytes < 2 ^ 32
  esp_fits : espLastLba espBytes < lastUsable lbaCount
  rfs_fits : rfsFirstLba espBytes ≤ lastUsable lbaCount

/-- A disk with its size: a number of sectors, or `SIZE_MAX` if it is not known. -/
structure BlockDevice extends Disk where
  size : ℕ

def gptLayout (dev : BlockDevice) (fileSize : ℕ) (isize : BitVec 32) : Option GptLayout :=
  if h : dev.blockSize = sectorBytesRequired ∧ (dev.size < 2 ^ 64 - 1 ∧ 34 ≤ dev.size) ∧
      18 ≤ fileSize ∧ 0 < isize.toNat ∧ espLastLba isize.toNat < lastUsable dev.size ∧
      rfsFirstLba isize.toNat ≤ lastUsable dev.size then
    some ⟨dev.size, isize.toNat, h.2.1.1, h.2.1.2, h.2.2.2.1, isize.isLt, h.2.2.2.2.1, h.2.2.2.2.2⟩
  else none

namespace GptLayout

def protectiveMbr (_ : GptLayout) : LbaRange := ⟨0, 0⟩

def primaryHeader (_ : GptLayout) : LbaRange := ⟨1, 1⟩

def primaryPtes (_ : GptLayout) : LbaRange := ⟨primaryPtesLba, primaryPtesLba + ptesSectors - 1⟩

def esp (l : GptLayout) : LbaRange := ⟨firstUsable, espLastLba l.espBytes⟩

def rfs (l : GptLayout) : LbaRange := ⟨rfsFirstLba l.espBytes, lastUsable l.lbaCount⟩

def backupPtes (l : GptLayout) : LbaRange :=
  ⟨backupPtesLba l.lbaCount, backupPtesLba l.lbaCount + ptesSectors - 1⟩

def backupHeader (l : GptLayout) : LbaRange := ⟨l.lbaCount - 1, l.lbaCount - 1⟩

def ranges (l : GptLayout) : List LbaRange :=
  [l.protectiveMbr, l.primaryHeader, l.primaryPtes, l.esp, l.rfs, l.backupPtes, l.backupHeader]

end GptLayout

/-! ## The writes -/

/-- `write_lbas` of whole sectors. -/
structure LbaWrite where
  lba : ℕ
  bytes : List Byte

namespace LbaWrite

def sectors (w : LbaWrite) : Set ℕ := Set.Ico w.lba (w.lba + w.bytes.length / sectorBytesRequired)

end LbaWrite

def Disk.writeLbas (d : Disk) (w : LbaWrite) : Disk where
  blockSize := d.blockSize
  readBlock lba :=
    if w.lba ≤ lba ∧ (lba - w.lba + 1) * d.blockSize ≤ w.bytes.length then
      some (fieldBytes w.bytes ((lba - w.lba) * d.blockSize) d.blockSize)
    else d.readBlock lba
  length_of_readBlock {lba block} h := by
    split at h
    case isTrue hin =>
      cases h
      have := hin.2
      rw [Nat.succ_mul] at this
      rw [fieldBytes, List.length_take, List.length_drop]
      omega
    case isFalse => exact d.length_of_readBlock h

def protectiveMbrBytes (lbaCount : ℕ) : List Byte :=
  List.replicate 0x1BE 0 ++ ([0, 0, 0, 0, 0xEE, 0, 0, 0] ++ leBytes 4 1 ++
    leBytes 4 (min (lbaCount - 1) 0xFFFFFFFF)) ++ List.replicate 48 0 ++ [0x55, 0xAA]

def gptEntryBytes (type : TextGuid) (unique : BinaryGuid) (r : LbaRange) (name : String) :
    List Byte :=
  guidToBinary type ++ unique ++ leBytes 8 r.first ++ leBytes 8 r.last ++ leBytes 8 0 ++
    makeUtf16leName name

/-- The entries; `rand` are the numbers that `mt_rand` returns. -/
def ptesBytes (l : GptLayout) (rand : ℕ → ℕ) : List Byte :=
  gptEntryBytes gptEfiSystem (randomGuidV4 (rand 0) (rand 1)) l.esp "EFI System" ++
    gptEntryBytes rfsGptGuid (randomGuidV4 (rand 2) (rand 3)) l.rfs "RetroFS" ++
    List.replicate (126 * 128) 0

def gptHeaderBytes (l : GptLayout) (rand : ℕ → ℕ) (this alternative ptes : ℕ) : List Byte :=
  let header (crc : BitVec 32) :=
    bytesOf "EFI PART" ++ leBytes 4 0x00010000 ++ leBytes 4 92 ++ leBytes 4 crc.toNat ++
      leBytes 4 0 ++ leBytes 8 this ++ leBytes 8 alternative ++ leBytes 8 firstUsable ++
      leBytes 8 (lastUsable l.lbaCount) ++ randomGuidV4 (rand 4) (rand 5) ++ leBytes 8 ptes ++
      leBytes 4 gptPteCount ++ leBytes 4 gptPteSizeBytes ++
      leBytes 4 (installerCrc32Update 0 (ptesBytes l rand)).toNat
  header (installerCrc32Update 0 (header 0))

def headerSector (header : List Byte) : List Byte := header ++ List.replicate (512 - 92) 0

def tableWrites (l : GptLayout) (rand : ℕ → ℕ) : List LbaWrite :=
  [⟨0, protectiveMbrBytes l.lbaCount⟩,
    ⟨primaryPtesLba, ptesBytes l rand⟩,
    ⟨1, headerSector (gptHeaderBytes l rand 1 (l.lbaCount - 1) primaryPtesLba)⟩,
    ⟨backupPtesLba l.lbaCount, ptesBytes l rand⟩,
    ⟨l.lbaCount - 1,
      headerSector (gptHeaderBytes l rand (l.lbaCount - 1) 1 (backupPtesLba l.lbaCount))⟩]

/-! ## The boot image -/

inductive InflateResult
  | ok
  | streamEnd
  | error
deriving DecidableEq

/-- A call of `inflate`: what it adds to the buffer, and what it returns. -/
structure InflateCall where
  output : List Byte
  result : InflateResult

def chunkBytes : ℕ := 64 * 1024

def finalWrite (espBuffer : List Byte) (outLba : ℕ) : List LbaWrite :=
  if espBuffer = [] then []
  else
    let pad := espBuffer.length % sectorBytesRequired
    [⟨outLba, espBuffer ++ List.replicate (if pad = 0 then 0 else sectorBytesRequired - pad) 0⟩]

/-- What a call of `inflate` leads to, given the writes that follow if the stream goes on. -/
def afterInflate (result : InflateResult) (next : List LbaWrite) (espBuffer : List Byte)
    (outLba : ℕ) : List LbaWrite :=
  match result with
  | .ok => next
  | .streamEnd => finalWrite espBuffer outLba
  | .error => []

def inflateLoop : List InflateCall → List Byte → ℕ → List LbaWrite
  | [], _, _ => []
  | call :: calls, espBuffer, outLba =>
    let filled := espBuffer ++ call.output
    if filled.length = chunkBytes then
      let lba := outLba + chunkBytes / sectorBytesRequired
      ⟨outLba, filled⟩ :: afterInflate call.result (inflateLoop calls [] lba) [] lba
    else afterInflate call.result (inflateLoop calls filled outLba) filled outLba

def espWrites (calls : List InflateCall) : List LbaWrite := inflateLoop calls [] firstUsable

def installed (dev : BlockDevice) (l : GptLayout) (rand : ℕ → ℕ) (calls : List InflateCall) :
    BlockDevice :=
  { dev with toDisk := (tableWrites l rand ++ espWrites calls).foldl Disk.writeLbas dev.toDisk }

/-! ## Formatting -/

/-- What `rfs_format` is told. -/
structure RfsInfo where
  start : ℕ
  length : ℕ
  totalSectors : ℕ

def rfsQuery : PartitionQuery := ⟨0xFF, rfsGptGuid, 0, 0xFF, none⟩

def prepareRfsPartition (dev : BlockDevice) (noisy allocated : Bool) (a : Byte) : Option RfsInfo :=
  if allocated = false then none
  else if noisy then
    ((findPartitionOfType dev.toDisk rfsQuery a).bind PartitionScan.found).bind fun found =>
      if found.partitionId = 0xFF then
        some ⟨found.extent.start, found.extent.length, found.extent.length⟩
      else none
  else if dev.blockSize = 0 then none
  else some ⟨0, dev.size / dev.blockSize, dev.size / dev.blockSize⟩

def initRamdisk (blocks blocksize : ℕ) (data : ℕ → Byte) : BlockDevice where
  blockSize := blocksize
  readBlock lba :=
    if lba < blocks then some ((List.range blocksize).map fun i => data (lba * blocksize + i)) else
      none
  length_of_readBlock h := by
    split at h
    · cases h
      simp
    · cases h
  size := blocks

end RetroRocket
