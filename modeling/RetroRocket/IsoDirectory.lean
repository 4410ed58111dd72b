import RetroRocket.BlockSource
import RetroRocket.CaseFolding

/-!
# ISO 9660 directories

`parse_directory` of the ISO 9660 driver, after the read of the directory. `dirbuffer` is the memory
from the start of the array on: the bytes of the directory, one more byte of the array, and
whatever lies behind it. A read behind the array ends the call with `overrun`. The loop is followed
for at most `fuel` turns; allocations succeed.

The walk over the records is written once more without the list, as it is meant: a zero byte leads
to the start of the next sector.
-/

namespace RetroRocket

abbrev isoSectorSize : ℕ := 2048

abbrev maxReasonableIsoDirSize : ℕ := 1024 * 1024

/-- The fields of `fs_directory_entry_t` that are filled from a record. -/
structure IsoEntry where
  filename : List Byte
  year : ℕ
  month : ℕ
  day : ℕ
  hour : ℕ
  min : ℕ
  sec : ℕ
  lbapos : ℕ
  size : ℕ
  isDirectory : Bool
  deriving DecidableEq

inductive IsoListing where
  | failed
  | overrun
  | listed (entries : List IsoEntry)

/-! ## Records -/

/-- `fentry->length`. -/
def isoLength (dirbuffer : Buffer) (off : ℕ) : ℕ := (dirbuffer off).toNat

/-- `fentry->filename_length`. -/
def isoFilenameLength (dirbuffer : Buffer) (off : ℕ) : ℕ := (dirbuffer (off + 32)).toNat

/-- `safe_filename_length`, in 8 bits. -/
def isoSafeFilenameLength (dirbuffer : Buffer) (off : ℕ) : ℕ :=
  if isoLength dirbuffer off < 33 + isoFilenameLength dirbuffer off then
    (isoLength dirbuffer off + 2 ^ 8 - 33) % 2 ^ 8
  else isoFilenameLength dirbuffer off

def isoNameChars (dirbuffer : Buffer) : ℕ → ℕ → List Byte
  | _, 0 => []
  | ptr, left + 1 =>
    if dirbuffer ptr = 0x3b then [] else
      tolower (dirbuffer ptr) :: isoNameChars dirbuffer (ptr + 1) left

def dropFinalDot (name : List Byte) : List Byte :=
  if name.getLast? = some 0x2e then name.dropLast else name

def jolietNameChars (dirbuffer : Buffer) : ℕ → ℕ → List Byte
  | _, 0 => []
  | ptr, left + 1 =>
    (if dirbuffer ptr ≠ 0 then 0x3f else dirbuffer (ptr + 1)) ::
      jolietNameChars dirbuffer (ptr + 2) left

/-- The end of the bytes that `isoNameChars` reads. -/
def isoNameEnd (dirbuffer : Buffer) : ℕ → ℕ → ℕ
  | ptr, 0 => ptr
  | ptr, left + 1 => if dirbuffer ptr = 0x3b then ptr + 1 else isoNameEnd dirbuffer (ptr + 1) left

/-- The end of the bytes that `jolietNameChars` reads. -/
def jolietNameEnd (dirbuffer : Buffer) : ℕ → ℕ → ℕ
  | ptr, 0 => ptr
  | ptr, left + 1 =>
    max (if dirbuffer ptr ≠ 0 then ptr + 1 else ptr + 2) (jolietNameEnd dirbuffer (ptr + 2) left)

def isoFilename (joliet : Bool) (dirbuffer : Buffer) (off : ℕ) : List Byte :=
  let filenameLength := isoFilenameLength dirbuffer off
  if joliet then jolietNameChars dirbuffer (off + 33) (filenameLength / 2)
  else dropFinalDot (isoNameChars dirbuffer (off + 33) filenameLength)

def isoFilenameEnd (joliet : Bool) (dirbuffer : Buffer) (off : ℕ) : ℕ :=
  let filenameLength := isoFilenameLength dirbuffer off
  if joliet then jolietNameEnd dirbuffer (off + 33) (filenameLength / 2)
  else isoNameEnd dirbuffer (off + 33) filenameLength

def isoEntry (joliet : Bool) (dirbuffer : Buffer) (off : ℕ) : IsoEntry where
  filename := isoFilename joliet dirbuffer off
  year := (dirbuffer (off + 18)).toNat + 1900
  month := (dirbuffer (off + 19)).toNat
  day := (dirbuffer (off + 20)).toNat
  hour := (dirbuffer (off + 21)).toNat
  min := (dirbuffer (off + 22)).toNat
  sec := (dirbuffer (off + 23)).toNat
  lbapos := le32 dirbuffer (off + 2)
  size := le32 dirbuffer (off + 10)
  isDirectory := (dirbuffer (off + 25)).getLsbD 1

/-! ## The loop -/

/-- What is done with a record of the directory, which has `lengthbytes` bytes: nothing with the
first two; the others are added to the list, if their name is not empty. The reads of a record end
with its name; those of the fixed fields, with the length of the name. -/
def isoAddRecord (joliet : Bool) (dirbuffer : Buffer) (lengthbytes off entrycount : ℕ)
    (list : List IsoEntry) : Option (List IsoEntry) :=
  if entrycount ≤ 2 then some list
  else if lengthbytes + 1 < off + 33 then none
  else if isoSafeFilenameLength dirbuffer off = 0 then some list
  else if lengthbytes + 1 < isoFilenameEnd joliet dirbuffer off then none
  else some (isoEntry joliet dirbuffer off :: list)

/-- `while (walkbuffer < dirbuffer + lengthbytes)`. -/
def isoWalkLoop (joliet : Bool) (dirbuffer : Buffer) (lengthbytes : ℕ) :
    ℕ → ℕ → ℕ → List IsoEntry → Option IsoListing
  | 0, _, _, _ => none
  | fuel + 1, off, entrycount, list =>
    if off < lengthbytes then
      let length := isoLength dirbuffer off
      if length = 0 then
        let next := (off + 2047) / isoSectorSize * isoSectorSize
        if lengthbytes ≤ next then some (.listed list)
        else isoWalkLoop joliet dirbuffer lengthbytes fuel next entrycount list
      else if lengthbytes < off + length then some (.listed list)
      else
        match isoAddRecord joliet dirbuffer lengthbytes off (entrycount + 1) list with
        | none => some .overrun
        | some list' =>
          isoWalkLoop joliet dirbuffer lengthbytes fuel (off + length) (entrycount + 1) list'
    else some (.listed list)

def isoDirectoryLength (recorded : ℕ) : ℕ :=
  if recorded < 2048 then recorded * 2048 else recorded

/-- `parse_directory`. -/
def isoParseDirectory (joliet served : Bool) (dirbuffer : Buffer) (recorded fuel : ℕ) :
    Option IsoListing :=
  let lengthbytes := isoDirectoryLength recorded
  if served = false then some .failed
  else if maxReasonableIsoDirSize < lengthbytes then some .failed
  else isoWalkLoop joliet dirbuffer lengthbytes fuel 0 0 []

/-! ## The records of a directory -/

def nextSector (off : ℕ) : ℕ := (off / isoSectorSize + 1) * isoSectorSize

theorem lt_nextSector (off : ℕ) : off < nextSector off := by
  simp only [nextSector, isoSectorSize]
  omega

/-- The offsets a walk over the directory comes to: from a record on to the one behind it, from a
zero byte to the next sector, up to the end or to a record that does not fit. -/
def isoVisits (dirbuffer : Buffer) (lengthbytes off : ℕ) : List ℕ :=
  if off < lengthbytes then
    if isoLength dirbuffer off = 0 then off :: isoVisits dirbuffer lengthbytes (nextSector off)
    else if lengthbytes < off + isoLength dirbuffer off then []
    else off :: isoVisits dirbuffer lengthbytes (off + isoLength dirbuffer off)
  else []
termination_by lengthbytes - off
decreasing_by
  · have := lt_nextSector off
    omega
  · omega

def isoRecords (dirbuffer : Buffer) (lengthbytes off : ℕ) : List ℕ :=
  (isoVisits dirbuffer lengthbytes off).filter fun place => isoLength dirbuffer place != 0

def IsoWellFormed (dirbuffer : Buffer) (off : ℕ) : Prop :=
  0 < isoFilenameLength dirbuffer off ∧
    33 + isoFilenameLength dirbuffer off ≤ isoLength dirbuffer off

def IsoInside (joliet : Bool) (dirbuffer : Buffer) (lengthbytes off : ℕ) : Prop :=
  off + 33 ≤ lengthbytes + 1 ∧
    (isoSafeFilenameLength dirbuffer off ≠ 0 →
      isoFilenameEnd joliet dirbuffer off ≤ lengthbytes + 1)

end RetroRocket
