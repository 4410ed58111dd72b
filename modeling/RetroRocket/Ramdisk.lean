import Mathlib.Algebra.Order.Floor.Div
import RetroRocket.Bits

/-!
# RAM disks

`rd_block_read` and `rd_block_write` find the number of blocks by counting up from the rounded down
quotient until a 32-bit product reaches the byte count, compare the end of the range with the size
of the disk in 64 bits, and copy. The name is registered with a device here, so the null checks and
the lookup do not appear. A loop is followed for at most `fuel` turns.
-/

namespace RetroRocket

/-- `ramdisk_t`, with the bytes from `data` on. -/
structure Ramdisk where
  data : Buffer
  blocks : ℕ
  blocksize : ℕ
  blocks_lt : blocks < 2 ^ 64
  blocksize_lt : blocksize < 2 ^ 64

/-- The bytes allocated for a disk, `kmalloc(blocks * blocksize)`. -/
def Ramdisk.memory (disk : Ramdisk) : ℕ := u64 (disk.blocks * disk.blocksize)

/-- `sd->block_size` of the device registered for the disk. -/
def Ramdisk.deviceBlockSize (disk : Ramdisk) : ℕ := u32 disk.blocksize

structure RdRequest where
  start : ℕ
  bytes : ℕ
  start_lt : start < 2 ^ 64
  bytes_lt : bytes < 2 ^ 32

inductive RdRange where
  | divideError
  | refused
  | span (offset length : ℕ)
  deriving DecidableEq

/-- `while (divided_length * sd->block_size < bytes) divided_length++;`, in 32 bits. -/
def roundUp (blockSize bytes : ℕ) : ℕ → ℕ → Option ℕ
  | 0, _ => none
  | fuel + 1, divided =>
    if u32 (divided * blockSize) < bytes then roundUp blockSize bytes fuel (u32 (divided + 1))
    else some divided

/-- The common part of `rd_block_read` and `rd_block_write`, up to the copy. -/
def rdRange (disk : Ramdisk) (request : RdRequest) (fuel : ℕ) : Option RdRange :=
  let blockSize := disk.deviceBlockSize
  if blockSize = 0 then some .divideError
  else
    (roundUp blockSize request.bytes fuel (request.bytes / blockSize)).map fun rounded =>
      let divided := if rounded < 1 then u32 (rounded + 1) else rounded
      if disk.blocks < u64 (request.start + divided) then .refused
      else .span (u64 (request.start * blockSize)) (u32 (divided * blockSize))

/-- `memcpy(target + place, source + first, length)`. -/
def copyBytes (target : Buffer) (place : ℕ) (source : Buffer) (first length : ℕ) : Buffer :=
  fun k => if place ≤ k ∧ k < place + length then source (first + (k - place)) else target k

/-- How a call ends: with the fault of a division by zero, with 0, or with 1 after a copy between
the disk, from `offset` on, and the buffer. -/
inductive RdOutcome where
  | divideError
  | failed
  | copied (offset length : ℕ) (target : Buffer)

/-- The end of a call whose copy of `length` bytes, from `offset` on, writes `target`. -/
def RdRange.outcome (target : ℕ → ℕ → Buffer) : RdRange → RdOutcome
  | .divideError => .divideError
  | .refused => .failed
  | .span offset length => .copied offset length (target offset length)

/-- `rd_block_read`: the target is the caller's buffer. -/
def rdBlockRead (disk : Ramdisk) (request : RdRequest) (buffer : Buffer) (fuel : ℕ) :
    Option RdOutcome :=
  (rdRange disk request fuel).map
    (RdRange.outcome fun offset length => copyBytes buffer 0 disk.data offset length)

/-- `rd_block_write`: the target is the memory of the disk. -/
def rdBlockWrite (disk : Ramdisk) (request : RdRequest) (buffer : Buffer) (fuel : ℕ) :
    Option RdOutcome :=
  (rdRange disk request fuel).map
    (RdRange.outcome fun offset length => copyBytes disk.data offset buffer 0 length)

/-! ## Counting the blocks -/

/-- The number of whole blocks that `bytes` bytes take. -/
def wholeBlocks (blockSize bytes : ℕ) : ℕ := (bytes + blockSize - 1) / blockSize

theorem wholeBlocks_le_iff {b bytes c : ℕ} (hb : 0 < b) :
    wholeBlocks b bytes ≤ c ↔ bytes ≤ c * b := by
  rw [Nat.mul_comm]
  exact ceilDiv_le_iff_le_mul hb

theorem u32_mul_left (m b : ℕ) : u32 (u32 m * b) = u32 (m * b) := by
  simp only [u32, Nat.mod_mul_mod]

theorem u32_succ (m : ℕ) : u32 (u32 m + 1) = u32 (m + 1) := by
  simp only [u32, Nat.mod_add_mod]

theorem roundUp_eq_some {b bytes fuel m divided : ℕ} :
    roundUp b bytes fuel (u32 m) = some divided ↔
      ∃ k < fuel, divided = u32 (m + k) ∧ bytes ≤ u32 ((m + k) * b) ∧
        ∀ j < k, u32 ((m + j) * b) < bytes := by
  induction fuel generalizing m with
  | zero => simp [roundUp]
  | succ fuel ih =>
    rw [roundUp, u32_mul_left, u32_succ]
    by_cases hm : u32 (m * b) < bytes
    · rw [if_pos hm, ih]
      constructor
      · rintro ⟨k, hk, hd, hreach, hbelow⟩
        have hshift : m + 1 + k = m + (k + 1) := by omega
        refine ⟨k + 1, by omega, ?_, ?_, ?_⟩
        · rw [hd, hshift]
        · rwa [hshift] at hreach
        · intro j hj
          cases j with
          | zero => exact hm
          | succ j =>
            have := hbelow j (by omega)
            rwa [show m + 1 + j = m + (j + 1) by omega] at this
      · rintro ⟨k, hk, hd, hreach, hbelow⟩
        cases k with
        | zero => exact absurd hm (not_lt.mpr hreach)
        | succ k =>
          have hshift : m + 1 + k = m + (k + 1) := by omega
          refine ⟨k, by omega, ?_, ?_, ?_⟩
          · rw [hd, hshift]
          · rwa [hshift]
          · intro j hj
            rw [show m + 1 + j = m + (j + 1) by omega]
            exact hbelow (j + 1) (by omega)
    · rw [if_neg hm]
      constructor
      · intro h
        exact ⟨0, by omega, (Option.some.inj h).symm, not_lt.mp hm, fun j hj =>
          absurd hj (by omega)⟩
      · rintro ⟨k, hk, hd, hreach, hbelow⟩
        cases k with
        | zero => rw [hd]; rfl
        | succ k => exact absurd (hbelow 0 (by omega)) hm

/-- `m` is the first count, from the right one on, whose product in 32 bits reaches `bytes`. -/
def FirstCount (b bytes m : ℕ) : Prop :=
  wholeBlocks b bytes ≤ m ∧ bytes ≤ u32 (m * b) ∧
    ∀ j, wholeBlocks b bytes ≤ j → j < m → u32 (j * b) < bytes

theorem u32_le (n : ℕ) : u32 n ≤ n := Nat.mod_le n _

theorem exists_roundUp_iff {b bytes divided : ℕ} (hb : 0 < b) (hn : bytes < 2 ^ 32) :
    (∃ fuel, roundUp b bytes fuel (bytes / b) = some divided) ↔
      ∃ m, FirstCount b bytes m ∧ divided = u32 m := by
  have hquot : u32 (bytes / b) = bytes / b := u32_of_lt (lt_of_le_of_lt (Nat.div_le_self _ _) hn)
  have hfloor : bytes / b ≤ wholeBlocks b bytes := Nat.div_le_div_right (by omega)
  constructor
  · rintro ⟨fuel, hrun⟩
    rw [← hquot, roundUp_eq_some] at hrun
    obtain ⟨k, -, hd, hreach, hbelow⟩ := hrun
    refine ⟨bytes / b + k, ⟨?_, hreach, ?_⟩, hd⟩
    · exact (wholeBlocks_le_iff hb).mpr (hreach.trans (u32_le _))
    · intro j hj hjm
      have := hbelow (j - bytes / b) (by omega)
      rwa [Nat.add_sub_cancel' (hfloor.trans hj)] at this
  · rintro ⟨m, ⟨hm, hreach, hbelow⟩, hd⟩
    have hsum : bytes / b + (m - bytes / b) = m := Nat.add_sub_cancel' (hfloor.trans hm)
    refine ⟨m - bytes / b + 1, ?_⟩
    rw [← hquot, roundUp_eq_some]
    refine ⟨m - bytes / b, by omega, by rw [hsum, hd], by rwa [hsum], fun j hj => ?_⟩
    by_cases hcount : wholeBlocks b bytes ≤ bytes / b + j
    · exact hbelow _ hcount (by omega)
    · have hshort : ¬ bytes ≤ (bytes / b + j) * b := fun h => hcount ((wholeBlocks_le_iff hb).mpr h)
      exact lt_of_le_of_lt (u32_le _) (not_le.mp hshort)

/-! ## Which requests are served rightly -/

/-- A call ends, and either fails or has copied exactly the blocks asked for, all of them in the
memory of the disk. The copy is written by `target`. -/
def TransferSafe (disk : Ramdisk) (request : RdRequest) (call : ℕ → Option RdOutcome)
    (target : ℕ → ℕ → Buffer) : Prop :=
  let blockSize := disk.deviceBlockSize
  let offset := request.start * blockSize
  let length := wholeBlocks blockSize request.bytes * blockSize
  ∃ fuel, call fuel = some .failed ∨
    (call fuel = some (.copied offset length (target offset length)) ∧
      offset + length ≤ disk.memory)

def RangeSafe (disk : Ramdisk) (request : RdRequest) : Prop :=
  let blockSize := disk.deviceBlockSize
  let offset := request.start * blockSize
  let length := wholeBlocks blockSize request.bytes * blockSize
  ∃ fuel, rdRange disk request fuel = some .refused ∨
    (rdRange disk request fuel = some (.span offset length) ∧ offset + length ≤ disk.memory)

theorem transferSafe_iff (disk : Ramdisk) (request : RdRequest) (target : ℕ → ℕ → Buffer) :
    TransferSafe disk request
      (fun fuel => (rdRange disk request fuel).map (RdRange.outcome target)) target ↔
      RangeSafe disk request := by
  apply exists_congr
  intro fuel
  dsimp only
  generalize rdRange disk request fuel = range
  cases range with
  | none => simp
  | some range =>
    cases range with
    | divideError => simp [RdRange.outcome]
    | refused => simp [RdRange.outcome]
    | span offset length =>
      simp only [Option.map_some, Option.some.injEq, reduceCtorEq, false_or, RdOutcome.copied.injEq,
        RdRange.span.injEq, RdRange.outcome]
      constructor
      · rintro ⟨⟨ho, hl, -⟩, hfit⟩
        exact ⟨⟨ho, hl⟩, hfit⟩
      · rintro ⟨⟨ho, hl⟩, hfit⟩
        exact ⟨⟨ho, hl, by rw [ho, hl]⟩, hfit⟩

/-- The requests that end rightly: the device block is not empty, and the range of blocks, as the
disk computes it, is refused or is inside the memory. A request of no bytes takes a block; one
whose blocks do not fit in 32 bits is counted round. -/
def Ramdisk.Fits (disk : Ramdisk) (request : RdRequest) : Prop :=
  let blockSize := disk.deviceBlockSize
  let count := wholeBlocks blockSize request.bytes
  blockSize ≠ 0 ∧
    if request.bytes = 0 then disk.blocks < u64 (request.start + 1)
    else if count * blockSize < 2 ^ 32 then
      disk.blocks < u64 (request.start + count) ∨
        (request.start + count) * blockSize ≤ disk.memory
    else ∃ m, FirstCount blockSize request.bytes m ∧ disk.blocks < u64 (request.start + u32 m)

def atLeastOne (rounded : ℕ) : ℕ := if rounded < 1 then u32 (rounded + 1) else rounded

/-- The span of a range whose blocks were counted to `divided`. -/
def spanOf (disk : Ramdisk) (request : RdRequest) (divided : ℕ) : RdRange :=
  if disk.blocks < u64 (request.start + divided) then .refused
  else .span (u64 (request.start * disk.deviceBlockSize)) (u32 (divided * disk.deviceBlockSize))

section Range

variable {disk : Ramdisk} {request : RdRequest}

theorem rdRange_eq_some (hb : disk.deviceBlockSize ≠ 0) {fuel : ℕ} {range : RdRange} :
    rdRange disk request fuel = some range ↔
      ∃ rounded, roundUp disk.deviceBlockSize request.bytes fuel
          (request.bytes / disk.deviceBlockSize) = some rounded ∧
        spanOf disk request (atLeastOne rounded) = range := by
  simp only [rdRange, if_neg hb, Option.map_eq_some_iff]
  rfl

theorem exists_rdRange_iff (hb : disk.deviceBlockSize ≠ 0) {range : RdRange} :
    (∃ fuel, rdRange disk request fuel = some range) ↔
      ∃ m, FirstCount disk.deviceBlockSize request.bytes m ∧
        spanOf disk request (atLeastOne (u32 m)) = range := by
  have hpos : 0 < disk.deviceBlockSize := Nat.pos_of_ne_zero hb
  constructor
  · rintro ⟨fuel, hrange⟩
    obtain ⟨rounded, hrun, hspan⟩ := (rdRange_eq_some hb).mp hrange
    obtain ⟨m, hm, rfl⟩ := (exists_roundUp_iff hpos request.bytes_lt).mp ⟨fuel, hrun⟩
    exact ⟨m, hm, hspan⟩
  · rintro ⟨m, hm, hspan⟩
    obtain ⟨fuel, hrun⟩ := (exists_roundUp_iff hpos request.bytes_lt).mpr ⟨m, hm, rfl⟩
    exact ⟨fuel, (rdRange_eq_some hb).mpr ⟨u32 m, hrun, hspan⟩⟩

theorem spanOf_eq_refused {divided : ℕ} :
    spanOf disk request divided = .refused ↔ disk.blocks < u64 (request.start + divided) := by
  unfold spanOf
  split_ifs with h
  · simp [h]
  · simp [h]

theorem rangeSafe_iff_firstCount (hb : disk.deviceBlockSize ≠ 0) :
    RangeSafe disk request ↔
      ∃ m, FirstCount disk.deviceBlockSize request.bytes m ∧
        (disk.blocks < u64 (request.start + atLeastOne (u32 m)) ∨
          (u32 (atLeastOne (u32 m) * disk.deviceBlockSize) =
              wholeBlocks disk.deviceBlockSize request.bytes * disk.deviceBlockSize ∧
            (request.start + wholeBlocks disk.deviceBlockSize request.bytes) *
              disk.deviceBlockSize ≤ disk.memory)) := by
  unfold RangeSafe
  dsimp only
  rw [exists_or, exists_rdRange_iff hb]
  simp only [exists_and_right, exists_rdRange_iff hb, ← Nat.add_mul]
  constructor
  · rintro (⟨m, hm, hspan⟩ | ⟨⟨m, hm, hspan⟩, hfit⟩)
    · exact ⟨m, hm, .inl (spanOf_eq_refused.mp hspan)⟩
    · unfold spanOf at hspan
      split_ifs at hspan with hrefused
      exact ⟨m, hm, .inr ⟨(RdRange.span.inj hspan).2, hfit⟩⟩
  · rintro ⟨m, hm, hrefused | ⟨hlength, hfit⟩⟩
    · exact .inl ⟨m, hm, spanOf_eq_refused.mpr hrefused⟩
    · by_cases hrefused : disk.blocks < u64 (request.start + atLeastOne (u32 m))
      · exact .inl ⟨m, hm, spanOf_eq_refused.mpr hrefused⟩
      · have hoffset : request.start * disk.deviceBlockSize < 2 ^ 64 := by
          have : disk.memory < 2 ^ 64 := u64_lt _
          rw [Nat.add_mul] at hfit
          omega
        refine .inr ⟨⟨m, hm, ?_⟩, hfit⟩
        rw [spanOf, if_neg hrefused, u64_of_lt hoffset, hlength]

theorem firstCount_of_fits {b bytes : ℕ} (hb : 0 < b) (hfit : wholeBlocks b bytes * b < 2 ^ 32)
    {m : ℕ} : FirstCount b bytes m ↔ m = wholeBlocks b bytes := by
  have hreach : bytes ≤ u32 (wholeBlocks b bytes * b) := by
    rw [u32_of_lt hfit]
    exact (wholeBlocks_le_iff hb).mp le_rfl
  constructor
  · rintro ⟨hm, -, hbelow⟩
    by_contra hne
    exact absurd (hbelow _ le_rfl (lt_of_le_of_ne hm (Ne.symm hne))) (not_lt.mpr hreach)
  · rintro rfl
    exact ⟨le_rfl, hreach, fun j hj hlt => absurd hlt (not_lt.mpr hj)⟩

theorem atLeastOne_of_pos {n : ℕ} (h : 0 < n) : atLeastOne n = n := if_neg (by omega)

theorem rangeSafe_iff : RangeSafe disk request ↔ disk.Fits request := by
  unfold Ramdisk.Fits
  dsimp only
  by_cases hb : disk.deviceBlockSize = 0
  · simp [RangeSafe, rdRange, hb]
  have hpos : 0 < disk.deviceBlockSize := Nat.pos_of_ne_zero hb
  have hsmall : disk.deviceBlockSize < 2 ^ 32 := Nat.mod_lt _ (by decide)
  rw [rangeSafe_iff_firstCount hb]
  simp only [ne_eq, hb, not_false_eq_true, true_and]
  generalize disk.deviceBlockSize = b at *
  by_cases hzero : request.bytes = 0
  · have hcount : wholeBlocks b 0 = 0 :=
      Nat.eq_zero_of_le_zero ((wholeBlocks_le_iff hpos).mpr (by simp))
    rw [if_pos hzero, hzero]
    simp only [firstCount_of_fits hpos (show wholeBlocks b 0 * b < 2 ^ 32 by simp [hcount]), hcount,
      exists_eq_left]
    have hone : atLeastOne (u32 0) = 1 := rfl
    have hblock : u32 (1 * b) = b := by rw [Nat.one_mul, u32_of_lt hsmall]
    rw [hone, hblock]
    simp [hb]
  rw [if_neg hzero]
  by_cases hwrap : wholeBlocks b request.bytes * b < 2 ^ 32
  · rw [if_pos hwrap]
    simp only [firstCount_of_fits hpos hwrap, exists_eq_left]
    have hcount : 0 < wholeBlocks b request.bytes := by
      by_contra hnone
      have : request.bytes ≤ 0 * b := (wholeBlocks_le_iff hpos).mp (by omega)
      omega
    have hn : u32 (wholeBlocks b request.bytes) = wholeBlocks b request.bytes :=
      u32_of_lt (lt_of_le_of_lt (Nat.le_mul_of_pos_right _ hpos) hwrap)
    rw [hn, atLeastOne_of_pos hcount, u32_of_lt hwrap]
    simp
  · rw [if_neg hwrap]
    apply exists_congr
    intro m
    apply and_congr_right
    rintro ⟨-, hreach, -⟩
    have hpos : 0 < u32 m := by
      by_contra hnone
      rw [← u32_mul_left, show u32 m = 0 by omega] at hreach
      simp [u32] at hreach
      omega
    have hne : u32 (u32 m * b) ≠ wholeBlocks b request.bytes * b := by
      have : u32 (u32 m * b) < 2 ^ 32 := Nat.mod_lt _ (by decide)
      omega
    rw [atLeastOne_of_pos hpos]
    simp [hne]

end Range

/-- **Transfers of a RAM disk.** For every disk and request a read, and a write alike, ends and
either fails or copies exactly the whole blocks asked for from or to the memory of the disk, if
and only if the request fits the disk as its numbers are computed. -/
theorem rdBlock_safe_iff (disk : Ramdisk) (request : RdRequest) (buffer : Buffer) :
    (TransferSafe disk request (rdBlockRead disk request buffer)
        (fun offset length => copyBytes buffer 0 disk.data offset length) ↔
      disk.Fits request) ∧
    (TransferSafe disk request (rdBlockWrite disk request buffer)
        (fun offset length => copyBytes disk.data offset buffer 0 length) ↔
      disk.Fits request) := by
  constructor
  · rw [← rangeSafe_iff]
    exact transferSafe_iff disk request _
  · rw [← rangeSafe_iff]
    exact transferSafe_iff disk request _

theorem smallDisk_blocks_lt : 8 < 2 ^ 64 := by decide

theorem smallDisk_blocksize_lt : 512 < 2 ^ 64 := by decide

def smallDisk : Ramdisk := ⟨fun _ => 0, 8, 512, smallDisk_blocks_lt, smallDisk_blocksize_lt⟩

/-- One block at the last block number there is: the end of the range wraps to 0, and the copy
starts 512 bytes below the memory. -/
theorem smallDisk_lastBlock :
    ∃ request : RdRequest, request.start = 2 ^ 64 - 1 ∧ request.bytes = 512 ∧
      rdRange smallDisk request 1 = some (.span (2 ^ 64 - 512) 512) ∧
      ¬ TransferSafe smallDisk request (rdBlockRead smallDisk request fun _ => 0)
        (fun offset length => copyBytes (fun _ => 0) 0 smallDisk.data offset length) := by
  refine ⟨⟨2 ^ 64 - 1, 512, by decide, by decide⟩, rfl, rfl, by decide, ?_⟩
  intro hsafe
  obtain ⟨-, hcond⟩ := rangeSafe_iff.mp ((transferSafe_iff _ _ _).mp hsafe)
  rw [if_neg (by decide), if_pos (by decide)] at hcond
  revert hcond
  decide

end RetroRocket
