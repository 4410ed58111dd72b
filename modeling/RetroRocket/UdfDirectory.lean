import RetroRocket.UdfRead

/-!
# UDF directories

`udf_decode_name` and `parse_directory` of the UDF driver. The directory is copied or read into a
buffer of its size, whose bytes before that are those of the heap. A read outside the block of the
file entry or outside that buffer ends the call with `overrun`. The loop over the file identifier
descriptors is followed for at most as many turns as the buffer has bytes; allocations succeed.
-/

namespace RetroRocket

/-- `UDF_FT_DIRECTORY`. -/
abbrev fileTypeDirectory : ℕ := 4

/-- `UDF_TAGID_FID`. -/
abbrev tagFileIdentifier : ℕ := 257

abbrev maxReasonableUdfDirSize : ℕ := 4 * 1024 * 1024

/-- `sizeof(udf_file_identifier_descriptor_t)`. -/
abbrev fidSize : ℕ := 38

/-- The fields of `fs_directory_entry_t` that are filled from a descriptor and its file entry. -/
structure UdfEntry where
  filename : List Byte
  lbapos : ℕ
  size : ℕ
  year : ℕ
  month : ℕ
  day : ℕ
  hour : ℕ
  min : ℕ
  sec : ℕ
  isDirectory : Bool

inductive UdfListing where
  | failed
  | overrun
  | listed (entries : List UdfEntry)

/-! ## Names -/

/-- `outlen`: the last byte of the field. -/
def udfOutlen (dir : Buffer) (src len : ℕ) : ℕ := (dir (src + len - 1)).toNat

/-- `udf_decode_name` of the `len` bytes from `src` on. -/
def udfDecodeName (dir : Buffer) (src len : ℕ) : List Byte :=
  let outlen := udfOutlen dir src len
  if len = 0 then []
  else if outlen = 0 ∨ len - 1 < outlen then []
  else if dir src = 8 then (List.range (outlen - 1)).map fun i => dir (src + (1 + i))
  else if dir src = 16 then (List.range ((outlen - 1) / 2)).map fun i => dir (src + (2 + i * 2))
  else []

/-- The number of bytes from `src` on up to the last one that `udfDecodeName` reads. -/
def udfNameReads (dir : Buffer) (src len : ℕ) : ℕ :=
  let outlen := udfOutlen dir src len
  if len = 0 then 0
  else if outlen = 0 ∨ len - 1 < outlen then len
  else if dir src = 8 then max len (1 + (outlen - 1))
  else if dir src = 16 then max len (2 + (outlen - 1) / 2 * 2 - 1)
  else len

/-! ## Descriptors -/

/-- `file_characteristics`. -/
def fidCharacteristics (dir : Buffer) (off : ℕ) : Byte := dir (off + 18)

/-- `length_of_file_identifier`. -/
def fidNameLength (dir : Buffer) (off : ℕ) : ℕ := (dir (off + 19)).toNat

/-- `length_of_implementation_use`. -/
def fidImplLength (dir : Buffer) (off : ℕ) : ℕ := be16 dir (off + 20)

/-- `fid_len`, rounded up to four bytes. -/
def fidLength (dir : Buffer) (off : ℕ) : ℕ :=
  (fidSize + fidImplLength dir off + fidNameLength dir off + 3) / 4 * 4

/-- `UDF_FILECHAR_DIRECTORY`. -/
def isDirectoryChar (characteristics : Byte) : Bool := characteristics.getLsbD 1

/-- `UDF_FILECHAR_DELETED`. -/
def isDeletedChar (characteristics : Byte) : Bool := characteristics.getLsbD 2

/-- `UDF_FILECHAR_PARENT`. -/
def isParentChar (characteristics : Byte) : Bool := characteristics.getLsbD 3

def udfPackIcb (part lba : ℕ) : ℕ := part * 2 ^ 32 + lba

/-- `child->access_time`, whose place depends on the kind of the entry. -/
def accessTimeOffset (entry : Buffer) : ℕ := if be16 entry 0 = tagFileEntry then 70 else 78

def udfChildEntry (fs : UdfVolume) (filename : List Byte) (characteristics : Byte)
    (part lba : ℕ) : UdfEntry :=
  match udfReadFileEntry fs part lba with
  | some child =>
    let time := accessTimeOffset child
    { filename := filename
      lbapos := udfPackIcb part lba
      size := be64 child 54
      year := be16 child (time + 2)
      month := (child (time + 4)).toNat
      day := (child (time + 5)).toNat
      hour := (child (time + 6)).toNat
      min := (child (time + 7)).toNat
      sec := (child (time + 8)).toNat
      isDirectory := (child 27).toNat == fileTypeDirectory || isDirectoryChar characteristics }
  | none =>
    { filename := filename
      lbapos := udfPackIcb part lba
      size := 0
      year := 0
      month := 0
      day := 0
      hour := 0
      min := 0
      sec := 0
      isDirectory := isDirectoryChar characteristics }

/-- The entry of the descriptor at `off`. -/
def udfFidEntry (fs : UdfVolume) (dir : Buffer) (off : ℕ) : UdfEntry :=
  udfChildEntry fs
    (udfDecodeName dir (off + fidSize + fidImplLength dir off) (fidNameLength dir off))
    (fidCharacteristics dir off) (be16 dir (off + 30)) (be32 dir (off + 26))

def fidListed (dir : Buffer) (off : ℕ) : Bool :=
  !isDeletedChar (fidCharacteristics dir off) && !isParentChar (fidCharacteristics dir off) &&
    fidNameLength dir off != 0

/-- `while (offset + sizeof(udf_file_identifier_descriptor_t) <= dir_size)`. -/
def udfFidLoop (fs : UdfVolume) (dir : Buffer) (dirSize : ℕ) :
    ℕ → ℕ → List UdfEntry → UdfListing
  | 0, _, list => .listed list
  | fuel + 1, offset, list =>
    if offset + fidSize ≤ dirSize then
      if be16 dir offset ≠ tagFileIdentifier then .listed list
      else if dirSize < offset + fidLength dir offset then .listed list
      else if fidListed dir offset then
        let nameSrc := offset + fidSize + fidImplLength dir offset
        if dirSize < nameSrc + udfNameReads dir nameSrc (fidNameLength dir offset) then .overrun
        else udfFidLoop fs dir dirSize fuel (offset + fidLength dir offset)
          (udfFidEntry fs dir offset :: list)
      else udfFidLoop fs dir dirSize fuel (offset + fidLength dir offset) list
    else .listed list

/-! ## Whole directories -/

inductive UdfDirectoryData where
  | failed
  | overrun
  | filled (dirSize : ℕ) (dirdata : Buffer)

/-- The checks of the file entry of a directory: its type, the size of the directory and the parts
of the entry. -/
def udfDirectoryAccepted (entry : Buffer) : Bool :=
  (entry 27).toNat == fileTypeDirectory &&
    decide ((udfFileHeader entry).informationLength ≤ maxReasonableUdfDirSize) &&
    decide ((udfFileHeader entry).ads + (udfFileHeader entry).lenAd ≤ udfBlockSize)

theorem directoryStart_lt : 0 < 2 ^ 64 := by decide

theorem directoryLength_lt (entry : Buffer) :
    (udfFileHeader entry).informationLength % 2 ^ 32 < 2 ^ 32 := Nat.mod_lt _ (by decide)

def wholeDirectory (entry : Buffer) : FileRange :=
  ⟨0, (udfFileHeader entry).informationLength % 2 ^ 32, directoryStart_lt, directoryLength_lt entry⟩

/-- `parse_directory` up to the loop. `heap` is the memory that `kmalloc` returns. -/
def udfDirectoryData (fs : UdfVolume) (part icbLba : ℕ) (heap : Buffer) : UdfDirectoryData :=
  match udfReadFileEntry fs part icbLba with
  | none => .failed
  | some entry =>
    let header := udfFileHeader entry
    let dirSize := header.informationLength
    if udfDirectoryAccepted entry then
      if header.adType = adInIcb then
        if udfBlockSize < header.ads + dirSize then .overrun
        else .filled dirSize fun k => if k < dirSize then entry (header.ads + k) else heap k
      else
        match udfReadFileData fs part icbLba (wholeDirectory entry) fun k => some (heap k) with
        | none => .failed
        | some dirdata => .filled dirSize dirdata.bytes
    else .failed

/-- `parse_directory`. -/
def udfParseDirectory (fs : UdfVolume) (part icbLba : ℕ) (heap : Buffer) : UdfListing :=
  match udfDirectoryData fs part icbLba heap with
  | .failed => .failed
  | .overrun => .overrun
  | .filled dirSize dirdata => udfFidLoop fs dirdata dirSize (dirSize + 1) 0 []

end RetroRocket
