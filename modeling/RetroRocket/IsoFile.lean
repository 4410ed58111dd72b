import RetroRocket.BlockSource

/-!
# Reading a file of an ISO 9660 volume

`iso_read_file` allocates one block more than the length needs, reads as many bytes as were asked
for from the block that holds the first of them, and copies from where that byte lies in its block.
-/

namespace RetroRocket

/-- The extent of a file: its first block on the device and its size, both recorded in 32 bits. -/
structure IsoExtent where
  lbapos : ℕ
  size : ℕ
  lbapos_lt : lbapos < 2 ^ 32
  size_lt : size < 2 ^ 32

/-- `iso_read_file`, with the device found. The result is the caller's buffer, `none` for the
return value `false`. -/
def isoReadFile (device : BlockSource) (allocated : Bool) (file : IsoExtent) (start length : ℕ)
    (buffer : Cells) : Option Cells :=
  let sectorsStart := u64 (start / device.blockSize + file.lbapos)
  if allocated then
    (device.readStorageDevice sectorsStart length Cells.fresh).map fun readbuf =>
      buffer.copy 0 readbuf (start % device.blockSize) length
  else none

/-- The call fills the buffer with the bytes of the file from `start` on, and writes no others. -/
def IsoFills (device : BlockSource) (file : IsoExtent) (start length : ℕ) (buffer : Cells)
    (result : Option Cells) : Prop :=
  ∃ filled, result = some filled ∧
    (∀ k < length, filled k =
      some (device.contents (file.lbapos * device.blockSize + (start + k)))) ∧
    ∀ k, length ≤ k → filled k = buffer k

section Read

variable {device : BlockSource} {file : IsoExtent} {start length : ℕ} {buffer : Cells}

theorem sectorsStart_eq (hrange : start + length ≤ file.size) :
    u64 (start / device.blockSize + file.lbapos) = start / device.blockSize + file.lbapos := by
  have := file.lbapos_lt
  have := file.size_lt
  have := Nat.div_le_self start device.blockSize
  exact u64_of_lt (by omega)

theorem isoReadFile_served (hrange : start + length ≤ file.size)
    (hserved : device.serves (start / device.blockSize + file.lbapos) length = true) :
    isoReadFile device true file start length buffer =
      some (buffer.copy 0 (Cells.fresh.deliver device.contents
        ((start / device.blockSize + file.lbapos) * device.blockSize)
        (device.transferLength length)) (start % device.blockSize) length) := by
  simp only [isoReadFile, sectorsStart_eq hrange, BlockSource.readStorageDevice, hserved, if_true,
    Option.map_some]

/-- **Reading a file.** For every extent, every start and every length inside the file, a call
whose request the device serves fills the buffer with the bytes of the file, and only with bytes
it has read, if and only if the blocks that hold `length` bytes from a block's start on also hold
the range as it lies. -/
theorem isoReadFile_fills_iff (device : BlockSource) (file : IsoExtent) (start length : ℕ)
    (buffer : Cells) (hrange : start + length ≤ file.size)
    (hserved : device.serves (start / device.blockSize + file.lbapos) length = true) :
    IsoFills device file start length buffer
        (isoReadFile device true file start length buffer) ↔
      length = 0 ∨ start % device.blockSize + length ≤ device.transferLength length := by
  rw [isoReadFile_served hrange hserved]
  constructor
  · rintro ⟨filled, hfilled, hbytes, -⟩
    obtain rfl := Option.some.inj hfilled
    by_contra hshort
    have hlast := hbytes (length - 1) (by omega)
    rw [Cells.copy_inside (by omega) (by omega), Cells.deliver_outside (by omega)] at hlast
    exact absurd hlast (by simp [Cells.fresh])
  · intro hfit
    refine ⟨_, rfl, fun k hk => ?_, fun k hk => Cells.copy_outside (by omega)⟩
    have hplace : (start / device.blockSize + file.lbapos) * device.blockSize +
        (start % device.blockSize + k) = file.lbapos * device.blockSize + (start + k) := by
      have := Nat.div_add_mod' start device.blockSize
      rw [Nat.add_mul]
      omega
    rw [Cells.copy_inside (by omega) (by omega), Nat.sub_zero, Cells.deliver_inside (by omega),
      hplace]

end Read

theorem isoDisc_blockSize_pos : 0 < 2048 := by decide

def isoDisc : BlockSource :=
  ⟨2048, isoDisc_blockSize_pos, fun k => BitVec.ofNat 8 (k / 2048), fun _ _ => true⟩

theorem isoTwoBlocks_lbapos_lt : 20 < 2 ^ 32 := by decide

theorem isoTwoBlocks_size_lt : 4096 < 2 ^ 32 := by decide

def isoTwoBlocks : IsoExtent := ⟨20, 4096, isoTwoBlocks_lbapos_lt, isoTwoBlocks_size_lt⟩

/-- The first block of the file is read rightly. -/
theorem isoReadFile_fills_firstBlock :
    IsoFills isoDisc isoTwoBlocks 0 2048 Cells.fresh
      (isoReadFile isoDisc true isoTwoBlocks 0 2048 Cells.fresh) :=
  (isoReadFile_fills_iff isoDisc isoTwoBlocks 0 2048 Cells.fresh (by decide) rfl).mpr
    (Or.inr (by decide))

/-- The 2048 bytes from the middle of the first block on: only the first block is read, and the
second half of the result comes from memory nobody wrote. -/
theorem isoReadFile_halfBlock :
    ∃ filled, isoReadFile isoDisc true isoTwoBlocks 1024 2048 Cells.fresh = some filled ∧
      filled 1024 = none ∧
      ¬ IsoFills isoDisc isoTwoBlocks 1024 2048 Cells.fresh
        (isoReadFile isoDisc true isoTwoBlocks 1024 2048 Cells.fresh) := by
  have hread := @isoReadFile_served isoDisc isoTwoBlocks 1024 2048 Cells.fresh (by decide) rfl
  have hcell : Cells.copy Cells.fresh 0 (Cells.fresh.deliver isoDisc.contents
      ((1024 / isoDisc.blockSize + isoTwoBlocks.lbapos) * isoDisc.blockSize)
      (isoDisc.transferLength 2048)) (1024 % isoDisc.blockSize) 2048 1024 = none := by
    rw [Cells.copy_inside (by decide) (by decide), Cells.deliver_outside (by decide)]
    rfl
  refine ⟨_, hread, hcell, ?_⟩
  rintro ⟨filled, hfilled, hbytes, -⟩
  have hbyte := hbytes 1024 (by decide)
  rw [hread] at hfilled
  rw [← Option.some.inj hfilled, hcell] at hbyte
  exact absurd hbyte (by simp)

end RetroRocket
