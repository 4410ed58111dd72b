import RetroRocket.LittleEndian

/-!
# Partition tables

A disk is a table of sectors. A partition table is read off it entry by entry, from the MBR or from
the GPT, and a physical volume of LVM2 among the entries holds logical volumes, which its text
metadata describes. All of them are numbered by one counter of eight bits.

An access outside the buffer it is made on is `none`, as is a division by zero.
-/

namespace RetroRocket

structure Disk where
  blockSize : ℕ
  readBlock : ℕ → Option (List Byte)
  length_of_readBlock : ∀ {lba block}, readBlock lba = some block → block.length = blockSize

def fieldBytes (bytes : List Byte) (off size : ℕ) : List Byte := (bytes.drop off).take size

def field (bytes : List Byte) (off size : ℕ) : ℕ := leNat (fieldBytes bytes off size)

def structAt (buffer : List Byte) (off size : ℕ) : Option (List Byte) :=
  if off + size ≤ buffer.length then some (fieldBytes buffer off size) else none

/-! ## Text -/

def bytesOf (text : String) : List Byte := text.toList.map fun c => BitVec.ofNat 8 c.toNat

def charOf (b : Byte) : Char := Char.ofNat b.toNat

def cText (bytes : List Byte) : List Char := (bytes.takeWhile (· ≠ 0)).map charOf

def isspace (c : Char) : Bool := c = ' ' || c = '\t'

def toupper (c : Char) : Char := if 'a' ≤ c ∧ c ≤ 'z' then Char.ofNat (c.toNat - 32) else c

def strstr : List Char → List Char → Option (List Char)
  | [], _ => none
  | c :: text, key => if key.isPrefixOf (c :: text) then some (c :: text) else strstr text key

def strchr (text : List Char) (c : Char) : Option (List Char) :=
  match text.dropWhile (· ≠ c) with
  | [] => none
  | found => some found

/-- `strtoul` in base 10: the value of the digits, as long as it fits. -/
def strtoul (text : List Char) : ℕ :=
  let s := text.dropWhile isspace
  let neg := s.head? = some '-'
  let digits := (if neg ∨ s.head? = some '+' then s.tail else s).takeWhile Char.isDigit
  let acc := digits.foldl (fun acc c => 10 * acc + (c.toNat - '0'.toNat)) 0
  if 2 ^ 64 ≤ acc then 2 ^ 64 - 1 else if neg then sub64 0 acc else acc

/-! ## GUIDs -/

abbrev TextGuid := List Char

abbrev BinaryGuid := List Byte

def hexval (c : Char) : ℕ :=
  if '0' ≤ c ∧ c ≤ '9' then c.toNat - '0'.toNat
  else if 'a' ≤ c ∧ c ≤ 'f' then c.toNat - 'a'.toNat + 10
  else if 'A' ≤ c ∧ c ≤ 'F' then c.toNat - 'A'.toNat + 10
  else 0

def parseByte (guid : TextGuid) (off : ℕ) : Byte :=
  BitVec.ofNat 8 (16 * hexval (guid.getD off '0') + hexval (guid.getD (off + 1) '0'))

def guidToBinary (guid : TextGuid) : BinaryGuid :=
  [6, 4, 2, 0, 11, 9, 16, 14, 19, 21, 24, 26, 28, 30, 32, 34].map (parseByte guid)

def hexBin (n : ℕ) : Char := "0123456789ABCDEF".toList.getD n '0'

def guidWriteByte (value : Byte) : List Char :=
  [hexBin (value.toNat / 16), hexBin (value.toNat % 16)]

def binaryToGuid (binary : BinaryGuid) : TextGuid :=
  let group (order : List ℕ) := order.flatMap fun i => guidWriteByte (binary.getD i 0)
  group [3, 2, 1, 0] ++ '-' :: group [5, 4] ++ '-' :: group [7, 6] ++ '-' :: group [8, 9] ++
    '-' :: group [10, 11, 12, 13, 14, 15]

def matchGuidBinary (a b : BinaryGuid) : Bool := a = b

/-- The comparison is the one of `stricmp`. -/
def matchGuidText (a b : TextGuid) : Bool := a.map toupper = b.map toupper

def gptLinuxLvm : TextGuid := "E6D6D379-F507-44C2-A23C-238F2A3DF928".toList

def gptLinuxFilesystem : TextGuid := "0FC63DAF-8483-4772-8E79-3D69D8477DE4".toList

def gptUnused : TextGuid := "00000000-0000-0000-0000-000000000000".toList

/-! ## Logical volumes -/

structure Extent where
  start : ℕ
  length : ℕ
deriving DecidableEq

/-- The loop of `lvm_read_bytes`, which goes round at most once for every byte. -/
def lvmReadBytesLoop (d : Disk) : ℕ → ℕ → ℕ → Option (List Byte)
  | 0, _, _ => some []
  | fuel + 1, byteOffset, bytes =>
    if bytes = 0 then some []
    else
      let offset := byteOffset % d.blockSize
      let amount := min (d.blockSize - offset) bytes
      (d.readBlock (byteOffset / d.blockSize)).bind fun block =>
        (lvmReadBytesLoop d fuel (u64 (byteOffset + amount)) (bytes - amount)).map
          (fieldBytes block offset amount ++ ·)

def lvmReadBytes (d : Disk) (byteOffset bytes : ℕ) : Option (List Byte) :=
  lvmReadBytesLoop d bytes byteOffset bytes

def lvmFindValue (start : List Char) (key : String) : Option (List Char) :=
  (strstr start key.toList).bind fun value =>
    (strchr value '=').map fun value => value.tail.dropWhile isspace

def lvmReadUint64 (start : List Char) (key : String) : Option ℕ :=
  (lvmFindValue start key).map strtoul

/-- The number behind the second comma after `stripes`. -/
def lvmReadPvExtent (start : List Char) : Option ℕ :=
  (strstr start "stripes".toList).bind fun stripe =>
    (strchr stripe ',').bind fun stripe =>
      let stripe := stripe.tail.dropWhile fun c => isspace c || c = '[' || c = '"'
      (strchr stripe ',').map fun stripe => strtoul (stripe.tail.dropWhile isspace)

def lvmVolume (pv : Extent) (extentSize : ℕ) (p : List Char) : Option Extent :=
  if lvmReadUint64 p "segment_count" ≠ some 1 ∨ lvmReadUint64 p "stripe_count" ≠ some 1 ∨
      lvmReadUint64 p "start_extent" ≠ some 0 then none
  else
    (lvmReadUint64 p "extent_count").bind fun extentCount =>
      (lvmReadPvExtent p).bind fun pvExtent =>
        let lv : Extent :=
          ⟨u64 (pv.start + u64 (pvExtent * extentSize)), u64 (extentCount * extentSize)⟩
        if u64 (pv.start + pv.length) < u64 (lv.start + lv.length) then none else some lv

/-- The volumes at the places `segment_count` stands at. -/
def lvmVolumesIn (pv : Extent) (extentSize : ℕ) : List Char → List Extent
  | [] => []
  | c :: text =>
    (if "segment_count".toList.isPrefixOf (c :: text)
      then (lvmVolume pv extentSize (c :: text)).toList else []) ++ lvmVolumesIn pv extentSize text

def lvmMaxMetadataSize : ℕ := 1024 * 1024

def lvmVolumes (d : Disk) (pv : Extent) : Option (List Extent) :=
  match d.readBlock (u64 (pv.start + 1)) with
  | none => some []
  | some sector =>
    (structAt sector 0 32).bind fun label =>
      if fieldBytes label 0 8 ≠ bytesOf "LABELONE" ∨ fieldBytes label 24 8 ≠ bytesOf "LVM2 001" then
        some []
      else
        (structAt sector (field label 20 4) 72).map fun header =>
          let metadataOffset := field header 56 8
          let metadataSize := field header 64 8
          if metadataSize = 0 ∨ lvmMaxMetadataSize < metadataSize then []
          else
            match lvmReadBytes d (u64 (u64 (pv.start * d.blockSize) + metadataOffset))
              metadataSize with
            | none => []
            | some bytes =>
              let metadata := cText bytes
              match lvmReadUint64 metadata "extent_size" with
              | none => []
              | some extentSize => lvmVolumesIn pv extentSize metadata

/-! ## The scan -/

/-- One call of the enumerator; `volume` is what the call is about, which it is not told. -/
structure VolumeCall where
  index : Byte
  matched : Bool
  description : String
  volume : Extent

structure PartitionQuery where
  partitionType : Byte
  partitionTypeGuid : TextGuid
  startIndex : Byte
  endIndex : Byte
  walk : Option Bool

namespace PartitionQuery

def Calls (q : PartitionQuery) : Prop := q.walk = some true

def InRange (q : PartitionQuery) (index : Byte) : Prop := q.startIndex ≤ index ∧ index ≤ q.endIndex

instance (q : PartitionQuery) : Decidable q.Calls := inferInstanceAs (Decidable (_ = _))

instance (q : PartitionQuery) (index : Byte) : Decidable (q.InRange index) :=
  inferInstanceAs (Decidable (_ ∧ _))

def lvmMatches (q : PartitionQuery) : Bool :=
  q.partitionType = 0x83 || matchGuidText q.partitionTypeGuid gptLinuxFilesystem

end PartitionQuery

structure FoundPartition where
  partitionId : Byte
  extent : Extent
  foundGuid : TextGuid

structure PartitionScan where
  calls : List VolumeCall
  found : Option FoundPartition

def PartitionScan.empty : PartitionScan := ⟨[], none⟩

def PartitionScan.after (calls : List VolumeCall) (s : PartitionScan) : PartitionScan :=
  ⟨calls ++ s.calls, s.found⟩

/-- At least two digits, as `%02u` and `%02x` print a number. -/
def twoDigits (base n : ℕ) : String :=
  String.ofList ((if n < base then ['0'] else []) ++ Nat.toDigits base n)

def megabytes (d : Disk) (length : ℕ) : String :=
  toString (u64 (length * d.blockSize) / 1024 / 1024)

structure LvmScan where
  visibleIndex : Byte
  calls : List VolumeCall
  found : Option Extent

def describeLvm (d : Disk) (index : Byte) (lv : Extent) : String :=
  "LVM2 Volume #" ++ twoDigits 10 index.toNat ++ " (" ++ megabytes d lv.length ++ " MB) Type: LVM2"

def scanLvmPv (d : Disk) (q : PartitionQuery) (visibleIndexAddress : Byte) :
    List Extent → Byte → LvmScan
  | [], visibleIndex => ⟨visibleIndex, [], none⟩
  | lv :: lvs, visibleIndex =>
    let calls : List VolumeCall := if q.Calls
      then [⟨visibleIndexAddress, q.lvmMatches, describeLvm d visibleIndex lv, lv⟩] else []
    if q.InRange visibleIndex ∧ q.lvmMatches then ⟨visibleIndex, calls, some lv⟩
    else
      let rest := scanLvmPv d q visibleIndexAddress lvs (visibleIndex + 1)
      { rest with calls := calls ++ rest.calls }

structure Slot where
  /-- A walk calls its function for the entry. -/
  listed : Bool
  matched : Bool
  isLvm : Bool
  extent : Extent
  /-- The logical volumes, where the entry is a physical volume. -/
  volumes : Option (List Extent)
  describe : Byte → String
  partitionId : Byte
  foundGuid : TextGuid
  /-- The id and the GUID found with a logical volume. -/
  lvmPartitionId : Byte
  lvmFoundGuid : TextGuid

inductive SlotRead
  | undefined
  | unreadable
  | slot (s : Slot)

def scanSlots (d : Disk) (q : PartitionQuery) (visibleIndexAddress : Byte) :
    List SlotRead → Byte → Option PartitionScan
  | [], _ => some .empty
  | .undefined :: _, _ => none
  | .unreadable :: _, _ => some .empty
  | .slot s :: rest, visibleIndex =>
    let calls : List VolumeCall := if q.Calls ∧ s.listed
      then [⟨visibleIndex, s.matched, s.describe visibleIndex, s.extent⟩] else []
    if s.matched ∧ q.walk = none ∧ q.InRange visibleIndex then
      some ⟨calls, some ⟨s.partitionId, s.extent, s.foundGuid⟩⟩
    else if s.isLvm then
      s.volumes.bind fun lvs =>
        let scan := scanLvmPv d q visibleIndexAddress lvs visibleIndex
        match scan.found, q.walk with
        | some lv, none => some ⟨calls ++ scan.calls, some ⟨s.lvmPartitionId, lv, s.lvmFoundGuid⟩⟩
        | _, _ =>
          (scanSlots d q visibleIndexAddress rest (scan.visibleIndex + 1)).map
            (.after (calls ++ scan.calls))
    else (scanSlots d q visibleIndexAddress rest (visibleIndex + 1)).map (.after calls)

/-! ## The two tables -/

structure GptHeader where
  lbaOfPartitionEntries : ℕ
  numberPartitionEntries : ℕ
  sizeOfEachEntry : ℕ

def gptHeader (header : List Byte) : GptHeader :=
  ⟨field header 72 8, field header 80 4, field header 84 4⟩

def describeGpt (d : Disk) (length : ℕ) (type : TextGuid) (index : Byte) : String :=
  "GPT Partition #" ++ twoDigits 10 index.toNat ++ " (" ++ megabytes d length ++ " MB) Type: " ++
    String.ofList type

def gptEntrySlot (d : Disk) (q : PartitionQuery) (gpt : List Byte) : Slot :=
  let typeGuid := fieldBytes gpt 0 16
  let extent : Extent := ⟨field gpt 32 8, u64 (sub64 (field gpt 40 8) (field gpt 32 8) + 1)⟩
  { listed := !matchGuidText (binaryToGuid typeGuid) gptUnused
    matched := matchGuidBinary typeGuid (guidToBinary q.partitionTypeGuid)
    isLvm := matchGuidBinary typeGuid (guidToBinary gptLinuxLvm)
    extent
    volumes := lvmVolumes d extent
    describe := describeGpt d extent.length (binaryToGuid typeGuid)
    partitionId := 0xFF
    foundGuid := binaryToGuid (fieldBytes gpt 16 16)
    lvmPartitionId := 0xFF
    lvmFoundGuid := q.partitionTypeGuid }

/-- The cached sector is taken to be number `2 ^ 64 - 1` before one is read. -/
def gptEntry (d : Disk) (q : PartitionQuery) (header : GptHeader) (entryNumber : ℕ) : SlotRead :=
  let entriesPerSector := d.blockSize / header.sizeOfEachEntry
  let sector := u64 (header.lbaOfPartitionEntries + entryNumber / entriesPerSector)
  let offset := entryNumber % entriesPerSector * header.sizeOfEachEntry
  if entriesPerSector = 0 ∨ entryNumber < entriesPerSector ∧ sector = 2 ^ 64 - 1 then .undefined
  else
    match d.readBlock sector with
    | none => .unreadable
    | some gptbuf =>
      match structAt gptbuf offset 48 with
      | none => .undefined
      | some gpt => .slot (gptEntrySlot d q gpt)

def gptEntries (d : Disk) (q : PartitionQuery) : Option (List SlotRead) :=
  match d.readBlock 1 with
  | none => some []
  | some buffer =>
    (structAt buffer 0 8).bind fun signature =>
      if signature ≠ bytesOf "EFI PART" then some []
      else
        (structAt buffer 0 88).bind fun bytes =>
          let header := gptHeader bytes
          if header.sizeOfEachEntry = 0 then none
          else some ((List.range header.numberPartitionEntries).map (gptEntry d q header))

def scanGptEntries (d : Disk) (q : PartitionQuery) (visibleIndexAddress : Byte) :
    Option PartitionScan :=
  (gptEntries d q).bind fun entries => scanSlots d q visibleIndexAddress entries 0

structure Partition where
  bootable : Byte
  systemid : Byte
  startlba : ℕ
  length : ℕ

def partitionEntry (table : List Byte) (i : ℕ) : Partition :=
  let entry := fieldBytes table (16 * i) 16
  ⟨entry.getD 0 0, entry.getD 4 0, field entry 8 4, field entry 12 4⟩

def describeBios (d : Disk) (length : ℕ) (systemid index : Byte) : String :=
  "BIOS Partition #" ++ twoDigits 10 index.toNat ++ " (" ++ megabytes d length ++ " MB) Type: &" ++
    twoDigits 16 systemid.toNat

def partitionSlot (d : Disk) (q : PartitionQuery) (table : List Byte) (i : ℕ) : Slot :=
  let partition := partitionEntry table i
  let extent : Extent := ⟨partition.startlba, partition.length⟩
  { listed := partition.systemid ≠ 0 ∧ 0 < partition.length
    matched := partition.systemid = q.partitionType
    isLvm := partition.systemid = 0x8E
    extent
    volumes := lvmVolumes d extent
    describe := describeBios d extent.length partition.systemid
    partitionId := BitVec.ofNat 8 i
    foundGuid := []
    lvmPartitionId := q.partitionType
    lvmFoundGuid := [] }

def partitionEntries (d : Disk) (q : PartitionQuery) (table : List Byte) : List SlotRead :=
  (List.range 4).map fun i => .slot (partitionSlot d q table i)

def IsProtective (p : Partition) : Prop := p.bootable = 0 ∧ p.systemid = 0xEE ∧ p.startlba = 1

instance (p : Partition) : Decidable (IsProtective p) := inferInstanceAs (Decidable (_ ∧ _ ∧ _))

def findPartitionOfType (d : Disk) (q : PartitionQuery) (visibleIndexAddress : Byte) :
    Option PartitionScan :=
  if d.blockSize < 64 then some .empty
  else
    match d.readBlock 0 with
    | none => some .empty
    | some buffer =>
      (structAt buffer 0x1BE 64).bind fun table =>
        if IsProtective (partitionEntry table 0) then scanGptEntries d q visibleIndexAddress
        else scanSlots d q visibleIndexAddress (partitionEntries d q table) 0

end RetroRocket
