import RetroRocket.Udf

/-!
# Reading a file of a UDF volume

`udf_read_file_data` walks the allocation descriptors behind the file entry with two cursors: the
position in the file and the number of bytes delivered so far. The loop over the descriptors is
followed for at most as many turns as the area of the descriptors has bytes; each turn takes at
least eight of them.

The bytes of a file are those of its recorded extents, at their place in the file, and zeros in
the others.
-/

namespace RetroRocket

structure UdfExtent where
  flags : ℕ
  bytes : ℕ
  lba : ℕ
  part : ℕ
  bytes_lt : bytes < 2 ^ 30
  deriving DecidableEq

theorem extentBytes_lt (extentLength : ℕ) : extentLength % 2 ^ 30 < 2 ^ 30 :=
  Nat.mod_lt _ (by decide)

def udfExtent (extentLength lba part : ℕ) : UdfExtent :=
  ⟨extentLength / 2 ^ 30, extentLength % 2 ^ 30, lba, part, extentBytes_lt extentLength⟩

/-- `UDF_EXTENT_RECORDED_ALLOCATED`. -/
abbrev recordedAllocated : ℕ := 0

/-- The descriptor at `adOff`, short or long, and the offset behind it. -/
def udfNextExtent (entry : Buffer) (part adOff : ℕ) : Option (UdfExtent × ℕ) :=
  let header := udfFileHeader entry
  let ad := header.ads + adOff
  if header.adType = adShort then
    if header.lenAd < adOff + 8 then none
    else some (udfExtent (be32 entry ad) (be32 entry (ad + 4)) part, adOff + 8)
  else if header.adType = adLong then
    if header.lenAd < adOff + 16 then none
    else some (udfExtent (be32 entry ad) (be32 entry (ad + 4)) (be16 entry (ad + 8)), adOff + 16)
  else none

/-- The body of the loop, without the descriptor: the buffer and the number of bytes delivered
after the extent that starts at `filePos`. -/
def udfReadExtent (fs : UdfVolume) (start length : ℕ) (extent : UdfExtent)
    (done filePos : ℕ) (buffer : Cells) : Option (Cells × ℕ) :=
  if extent.flags ≠ recordedAllocated then some (buffer, done)
  else if filePos + extent.bytes ≤ start then some (buffer, done)
  else
    let localStart := if filePos < start then start - filePos else 0
    let localLength := min (extent.bytes - localStart) (length - done)
    let blockOffset := localStart % udfBlockSize
    let firstBlock := u32 (extent.lba + localStart / udfBlockSize)
    let blocks := (blockOffset + localLength + udfBlockSize - 1) / udfBlockSize
    (udfReadPartitionBlocks fs extent.part firstBlock blocks Cells.fresh).map fun readbuf =>
      (buffer.copy done readbuf blockOffset localLength, done + localLength)

/-- `while (ad_off < len_ad && done < length)`. -/
def udfReadLoop (fs : UdfVolume) (entry : Buffer) (part start length : ℕ) :
    ℕ → ℕ → ℕ → ℕ → Cells → Option Cells
  | 0, _, _, _, buffer => some buffer
  | fuel + 1, adOff, done, filePos, buffer =>
    if adOff < (udfFileHeader entry).lenAd ∧ done < length then
      (udfNextExtent entry part adOff).bind fun (extent, next) =>
        (udfReadExtent fs start length extent done filePos buffer).bind fun (filled, delivered) =>
          udfReadLoop fs entry part start length fuel next delivered (filePos + extent.bytes) filled
    else some buffer

/-- `udf_read_file_data`, with memory for its block buffers. The result is the caller's buffer,
`none` for the return value `false`. -/
def udfReadFileData (fs : UdfVolume) (part icbLba : ℕ) (range : FileRange) (buffer : Cells) :
    Option Cells :=
  (udfReadFileEntry fs part icbLba).bind fun entry =>
    let header := udfFileHeader entry
    let fileSize := header.informationLength
    let start := range.start
    if fileSize ≤ start then some buffer
    else
      let length := if fileSize < u64 (start + range.length) then u32 (fileSize - start)
        else range.length
      if udfBlockSize < header.ads + header.lenAd then none
      else if header.adType = adInIcb then
        if start < header.lenAd then
          let available := min (u32 (header.lenAd - start)) length
          some (buffer.copy 0 (fun k => some (entry k)) (header.ads + start) available)
        else some buffer
      else udfReadLoop fs entry part start length header.lenAd 0 0 0 buffer

/-! ## The bytes of a file -/

def udfExtentByte (fs : UdfVolume) (extent : UdfExtent) (offset : ℕ) : Byte :=
  if extent.flags = recordedAllocated then
    fs.device.contents
      ((udfFindPartitionStart fs extent.part + extent.lba) * udfBlockSize + offset)
  else 0

def udfFileByte (fs : UdfVolume) : List UdfExtent → ℕ → Byte
  | [], _ => 0
  | extent :: rest, pos =>
    if pos < extent.bytes then udfExtentByte fs extent pos
    else udfFileByte fs rest (pos - extent.bytes)

def extentsLength (extents : List UdfExtent) : ℕ := (extents.map UdfExtent.bytes).sum

/-- A call fills the buffer with the bytes of the file from the start of the range on, up to the
end of the range or of the file, and writes no others. -/
def UdfFills (fs : UdfVolume) (extents : List UdfExtent) (size : ℕ) (range : FileRange)
    (buffer : Cells) (result : Option Cells) : Prop :=
  ∃ filled, result = some filled ∧
    (∀ k < min range.length (size - range.start),
      filled k = some (udfFileByte fs extents (range.start + k))) ∧
    ∀ k, min range.length (size - range.start) ≤ k → filled k = buffer k

/-! ## The loop over a list of extents -/

def udfDescriptorSize (entry : Buffer) : ℕ :=
  if (udfFileHeader entry).adType = adShort then 8 else 16

def udfExtentAt (entry : Buffer) (part adOff : ℕ) : UdfExtent :=
  let header := udfFileHeader entry
  let ad := header.ads + adOff
  if header.adType = adShort then udfExtent (be32 entry ad) (be32 entry (ad + 4)) part
  else udfExtent (be32 entry ad) (be32 entry (ad + 4)) (be16 entry (ad + 8))

def udfExtents (entry : Buffer) (part : ℕ) : List UdfExtent :=
  (List.range ((udfFileHeader entry).lenAd / udfDescriptorSize entry)).map fun i =>
    udfExtentAt entry part (i * udfDescriptorSize entry)

def udfReadList (fs : UdfVolume) (start length : ℕ) (incomplete : Bool) :
    List UdfExtent → ℕ → ℕ → Cells → Option Cells
  | [], done, _, buffer => if incomplete = true ∧ done < length then none else some buffer
  | extent :: rest, done, filePos, buffer =>
    if done < length then
      (udfReadExtent fs start length extent done filePos buffer).bind fun (filled, delivered) =>
        udfReadList fs start length incomplete rest delivered (filePos + extent.bytes) filled
    else some buffer

section List

variable {fs : UdfVolume} {entry : Buffer} {part start length : ℕ}

theorem udfDescriptorSize_pos : 0 < udfDescriptorSize entry := by
  unfold udfDescriptorSize
  split_ifs <;> decide

theorem udfNextExtent_eq (hkind : (udfFileHeader entry).adType = adShort ∨
    (udfFileHeader entry).adType = adLong) (adOff : ℕ) :
    udfNextExtent entry part adOff =
      if (udfFileHeader entry).lenAd < adOff + udfDescriptorSize entry then none
      else some (udfExtentAt entry part adOff, adOff + udfDescriptorSize entry) := by
  unfold udfNextExtent udfExtentAt udfDescriptorSize
  rcases hkind with h | h <;> simp [h]

/-- The loop over the area of the descriptors is the loop over the extents: the area has bytes
for every turn. -/
theorem udfReadLoop_eq_list (hkind : (udfFileHeader entry).adType = adShort ∨
    (udfFileHeader entry).adType = adLong) {fuel i done filePos : ℕ} {buffer : Cells}
    (hi : i ≤ (udfFileHeader entry).lenAd / udfDescriptorSize entry)
    (hfuel : (udfFileHeader entry).lenAd ≤ i * udfDescriptorSize entry + fuel) :
    udfReadLoop fs entry part start length fuel (i * udfDescriptorSize entry) done filePos buffer =
      udfReadList fs start length
        (decide ((udfFileHeader entry).lenAd % udfDescriptorSize entry ≠ 0))
        ((udfExtents entry part).drop i) done filePos buffer := by
  have hpos : 0 < udfDescriptorSize entry := udfDescriptorSize_pos
  have hsplit := Nat.div_add_mod' (udfFileHeader entry).lenAd (udfDescriptorSize entry)
  have hlen : (udfExtents entry part).length =
      (udfFileHeader entry).lenAd / udfDescriptorSize entry := by simp [udfExtents]
  induction fuel generalizing i done filePos buffer with
  | zero =>
    have hall : (udfFileHeader entry).lenAd / udfDescriptorSize entry ≤ i := by
      have := Nat.div_le_div_right (c := udfDescriptorSize entry) hfuel
      rwa [Nat.add_zero, Nat.mul_div_cancel _ hpos] at this
    obtain rfl := le_antisymm hi hall
    have hwhole : (udfFileHeader entry).lenAd % udfDescriptorSize entry = 0 := by omega
    rw [List.drop_eq_nil_of_le (by omega)]
    simp [udfReadLoop, udfReadList, hwhole]
  | succ fuel ih =>
    rw [udfReadLoop]
    rcases Nat.lt_or_eq_of_le hi with hmore | hlast
    · have hnext : (i + 1) * udfDescriptorSize entry ≤ (udfFileHeader entry).lenAd :=
        (Nat.le_div_iff_mul_le hpos).mp hmore
      rw [Nat.succ_mul] at hnext
      rw [List.drop_eq_getElem_cons (by omega), udfReadList, udfNextExtent_eq hkind,
        if_neg (not_lt.mpr hnext)]
      have hget :
          (udfExtents entry part)[i] = udfExtentAt entry part (i * udfDescriptorSize entry) := by
        simp [udfExtents]
      have hin : i * udfDescriptorSize entry < (udfFileHeader entry).lenAd := by omega
      simp only [hin, true_and, Option.bind_some, hget]
      by_cases hd : done < length
      · rw [if_pos hd, if_pos hd]
        congr 1
        funext filled
        have hstep := @ih (i + 1) filled.2
          (filePos + (udfExtentAt entry part (i * udfDescriptorSize entry)).bytes) filled.1 hmore
          (by rw [Nat.succ_mul]; omega)
        rw [Nat.succ_mul] at hstep
        exact hstep
      · rw [if_neg hd, if_neg hd]
    · rw [List.drop_eq_nil_of_le (by omega), udfReadList, udfNextExtent_eq hkind]
      have hcutOff : i * udfDescriptorSize entry < (udfFileHeader entry).lenAd ↔
          (udfFileHeader entry).lenAd % udfDescriptorSize entry ≠ 0 := by
        rw [hlast]
        omega
      have hend : (udfFileHeader entry).lenAd <
          i * udfDescriptorSize entry + udfDescriptorSize entry := by
        have := Nat.mod_lt (udfFileHeader entry).lenAd hpos
        rw [hlast]
        omega
      rw [if_pos hend]
      simp only [hcutOff, Option.bind_none, decide_eq_true_eq]

end List

end RetroRocket
