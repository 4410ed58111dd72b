import RetroRocket.LittleEndian

/-!
# Buffers filled from a block device

`Cells` is memory in which a byte may not have been written yet: `none` is a byte that was only
allocated, or that lies outside the buffer. Copies carry the bytes over with their state, so a
result that is `some` everywhere is made of bytes that were read or written before.

A block device serves whole blocks: a request of a number of bytes fills the target up to the end
of the last block it touches.
-/

namespace RetroRocket

abbrev Cells := ℕ → Option Byte

namespace Cells

/-- Memory as `kmalloc` returns it. -/
def fresh : Cells := fun _ => none

/-- `memcpy(target + place, source + first, length)`. -/
def copy (target : Cells) (place : ℕ) (source : Cells) (first length : ℕ) : Cells :=
  fun k => if place ≤ k ∧ k < place + length then source (first + (k - place)) else target k

def bytes (cells : Cells) : Buffer := fun k => (cells k).getD 0

/-- `length` bytes of `source`, from `first` on, written at the start of the target. -/
def deliver (target : Cells) (source : Buffer) (first length : ℕ) : Cells :=
  fun k => if k < length then some (source (first + k)) else target k

variable {target source : Cells} {place first length k : ℕ}

theorem copy_inside (hlow : place ≤ k) (hhigh : k < place + length) :
    target.copy place source first length k = source (first + (k - place)) :=
  if_pos ⟨hlow, hhigh⟩

theorem copy_outside (h : k < place ∨ place + length ≤ k) :
    target.copy place source first length k = target k :=
  if_neg fun hin => by omega

theorem deliver_inside {contents : Buffer} (h : k < length) :
    target.deliver contents first length k = some (contents (first + k)) := if_pos h

theorem deliver_outside {contents : Buffer} (h : length ≤ k) :
    target.deliver contents first length k = target k := if_neg (not_lt.mpr h)

end Cells

structure FileRange where
  start : ℕ
  length : ℕ
  start_lt : start < 2 ^ 64
  length_lt : length < 2 ^ 32

def cutLength (size : ℕ) (range : FileRange) : ℕ := min range.length (size - range.start)

/-! ## Fields with the least significant byte first -/

def le16 (p : Buffer) (off : ℕ) : ℕ := leValue p off 2

def le32 (p : Buffer) (off : ℕ) : ℕ := leValue p off 4

def le64 (p : Buffer) (off : ℕ) : ℕ := leValue p off 8

theorem le16_lt (p : Buffer) (off : ℕ) : le16 p off < 2 ^ 16 := leValue_lt p off 2

theorem le32_lt (p : Buffer) (off : ℕ) : le32 p off < 2 ^ 32 := leValue_lt p off 4

theorem le16_congr {p q : Buffer} {off place : ℕ} (h : ∀ i < 2, p (off + i) = q (place + i)) :
    le16 p off = le16 q place := leValue_congr h

theorem le32_congr {p q : Buffer} {off place : ℕ} (h : ∀ i < 4, p (off + i) = q (place + i)) :
    le32 p off = le32 q place := leValue_congr h

/-! ## Devices -/

/-- A `storage_device_t`: the bytes on it, the size of its blocks, and the requests it serves. -/
structure BlockSource where
  blockSize : ℕ
  blockSize_pos : 0 < blockSize
  contents : Buffer
  /-- The device serves a request of so many bytes from this block on. -/
  serves : ℕ → ℕ → Bool

namespace BlockSource

def transferLength (device : BlockSource) (bytes : ℕ) : ℕ :=
  (bytes + device.blockSize - 1) / device.blockSize * device.blockSize

def readStorageDevice (device : BlockSource) (startBlock bytes : ℕ) (target : Cells) :
    Option Cells :=
  if device.serves startBlock bytes then
    some (target.deliver device.contents (startBlock * device.blockSize)
      (device.transferLength bytes))
  else none

variable {device : BlockSource} {bytes : ℕ}

theorem le_transferLength : bytes ≤ device.transferLength bytes := by
  have hpos := device.blockSize_pos
  have h := Nat.lt_div_mul_add (a := bytes + device.blockSize - 1) hpos
  unfold transferLength
  omega

theorem transferLength_mul (n : ℕ) :
    device.transferLength (n * device.blockSize) = n * device.blockSize := by
  have hpos := device.blockSize_pos
  have hlast : (device.blockSize - 1) / device.blockSize = 0 := Nat.div_eq_of_lt (by omega)
  have hblocks : (device.blockSize * n + (device.blockSize - 1)) / device.blockSize = n := by
    rw [Nat.mul_add_div hpos, hlast, Nat.add_zero]
  rw [transferLength, Nat.mul_comm n, Nat.add_sub_assoc hpos, hblocks, Nat.mul_comm]

end BlockSource

end RetroRocket
