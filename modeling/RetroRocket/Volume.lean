import RetroRocket.Action
import RetroRocket.Bits

/-!
# A RetroFS volume and its device

`Volume` is the contents of the device, from the first sector of the volume on, together with the
geometry, the description block and the L1 and L2 summaries of `rfs_t`. `Rfs` adds what the calls
of the driver leave behind besides: the number of device requests and of allocations made, and the
last error. Sectors have 512 bytes (`RFS_SECTOR_SIZE`). Pointers the driver is given are never
null here, so its null checks do not appear.

Which requests the device serves and which allocations succeed is fixed by an `Env`. A request
that fails changes nothing on the device.
-/

namespace RetroRocket

/-- The errors the RetroFS driver reports. `device` stands for whatever the block device set. -/
inductive FsError where
  | noError
  | invalidArg
  | noSpace
  | outsideVolume
  | invalidGeometry
  | outOfMemory
  | cycleDetected
  | brokenDirectory
  | invalidFilename
  | vfsData
  | notAFile
  | notADirectory
  | noSuchFile
  | noSuchDirectory
  | directoryExists
  | directoryNotEmpty
  | fileHasVanished
  | seekPastEnd
  | truncateBeyondLength
  | device
  deriving DecidableEq, Repr

/-- The fields of `rfs_description_block_t` that the driver uses after mounting. -/
structure DescriptionBlock where
  rootDirectory : ℕ
  freeSpaceMapStart : ℕ
  freeSpaceMapLength : ℕ

structure Volume where
  bytes : Buffer
  totalSectors : ℕ
  totalSectors_lt : totalSectors < 2 ^ 64
  desc : DescriptionBlock
  /-- The slab of the summaries is allocated. -/
  cached : Bool
  l1Groups : ℕ
  l2Groups : ℕ
  l1FreeCount : ℕ → ℕ
  l1NotFull : Buffer
  l1AllFree : Buffer
  l2NotFull : Buffer
  l2AllFree : Buffer

structure Rfs extends Volume where
  requests : ℕ
  allocations : ℕ
  lastError : FsError

structure Env where
  /-- Request number `n` to the device is served. -/
  io : ℕ → Bool
  /-- Allocation number `n` succeeds. -/
  memory : ℕ → Bool

def Env.reliable : Env := ⟨fun _ => true, fun _ => true⟩

open RetroRocket.Action

def fsSetError (e : FsError) : Action Rfs Unit := modify fun v => { v with lastError := e }

def failWith {α : Type} (e : FsError) : Action Rfs α := do
  fsSetError e
  fail

/-- The outcome of a `kmalloc`; the memory itself is a value of the caller. -/
def kmalloc (env : Env) : Action Rfs Bool := do
  let v ← get
  modify fun v => { v with allocations := v.allocations + 1 }
  pure (env.memory v.allocations)

/-- The byte address of byte `i` of a transfer that starts at a sector. Sector numbers are 64 bits
wide, and the start of the volume on the device is a constant added to all of them. -/
def deviceAddr (start i : ℕ) : ℕ := 512 * u64 (start + i / 512) + i % 512

/-- What a transfer of `size` bytes from sector `start` reads. -/
def Volume.sectors (v : Volume) (start size : ℕ) : Buffer := fun i =>
  if i < size then v.bytes (deviceAddr start i) else 0

/-- The device after `size` bytes of `data` were written from sector `start` on. -/
def Volume.store (v : Volume) (start size : ℕ) (data : Buffer) : Volume :=
  { v with
    bytes := fun a =>
      let i := 512 * u64 (a / 512 + 2 ^ 64 - u64 start) + a % 512
      if a / 512 < 2 ^ 64 ∧ i < size then data i else v.bytes a }

def readStorageDevice (env : Env) (start size : ℕ) : Action Rfs Buffer := do
  let v ← get
  modify fun v => { v with requests := v.requests + 1 }
  if env.io v.requests then pure (v.sectors start size) else failWith .device

def writeStorageDevice (env : Env) (start size : ℕ) (data : Buffer) : Action Rfs Unit := do
  let v ← get
  modify fun v => { v with requests := v.requests + 1 }
  if env.io v.requests then
    modify fun v => { v with toVolume := v.toVolume.store start size data }
  else failWith .device

def rfsReadDevice (env : Env) (start size : ℕ) : Action Rfs Buffer := do
  let v ← get
  let nsectors := size / 512
  if size % 512 ≠ 0 then failWith .outsideVolume
  else if v.totalSectors < u64 (start + nsectors) then failWith .outsideVolume
  else readStorageDevice env start size

def rfsWriteDevice (env : Env) (start size : ℕ) (data : Buffer) : Action Rfs Unit := do
  let v ← get
  let nsectors := size / 512
  if size % 512 ≠ 0 then failWith .outsideVolume
  else if v.totalSectors < u64 (start + nsectors) then failWith .outsideVolume
  else writeStorageDevice env start size data

/-! ## What the requests do -/

@[simp] theorem post_fsSetError {e : FsError} {v : Rfs} {Q : Unit → Rfs → Prop} {R : Rfs → Prop} :
    Post (fsSetError e) v Q R ↔ Q () { v with lastError := e } := Iff.rfl

@[simp] theorem post_failWith {α : Type} {e : FsError} {v : Rfs} {Q : α → Rfs → Prop}
    {R : Rfs → Prop} : Post (failWith e) v Q R ↔ R { v with lastError := e } := Iff.rfl

theorem kmalloc_post (env : Env) (v : Rfs) :
    Post (kmalloc env) v
      (fun ok t => t.toVolume = v.toVolume ∧ (ok = false → ∃ n, env.memory n = false))
      (fun _ => False) := by
  simp only [kmalloc, post_bind, post_get, post_modify, post_pure]
  exact ⟨trivial, fun h => ⟨_, h⟩⟩

def Volume.InRange (v : Volume) (start size : ℕ) : Prop :=
  size % 512 = 0 ∧ u64 (start + size / 512) ≤ v.totalSectors

theorem Volume.inRange_of_le {v : Volume} {start size : ℕ} (hsize : size % 512 = 0)
    (h : start + size / 512 ≤ v.totalSectors) : v.InRange start size := by
  refine ⟨hsize, ?_⟩
  rwa [u64_of_lt (h.trans_lt v.totalSectors_lt)]

theorem rfsReadDevice_post (env : Env) (start size : ℕ) (v : Rfs) :
    Post (rfsReadDevice env start size) v
      (fun buf t => v.InRange start size ∧ buf = v.sectors start size ∧ t.toVolume = v.toVolume)
      (fun t => t.toVolume = v.toVolume ∧ (v.InRange start size → ∃ n, env.io n = false)) := by
  simp only [rfsReadDevice, readStorageDevice, post_bind, post_get]
  split
  · next h => exact ⟨rfl, fun hr => absurd hr.1 h⟩
  · next h =>
    split
    · next h' => exact ⟨rfl, fun hr => absurd hr.2 (not_le.mpr h')⟩
    · next h' =>
      simp only [post_bind, post_get, post_modify]
      split
      · exact ⟨⟨not_not.mp h, not_lt.mp h'⟩, rfl, rfl⟩
      · next hio => exact ⟨rfl, fun _ => ⟨_, Bool.eq_false_iff.mpr hio⟩⟩

theorem rfsWriteDevice_post (env : Env) (start size : ℕ) (data : Buffer) (v : Rfs) :
    Post (rfsWriteDevice env start size data) v
      (fun _ t => v.InRange start size ∧ t.toVolume = v.toVolume.store start size data)
      (fun t => t.toVolume = v.toVolume ∧ (v.InRange start size → ∃ n, env.io n = false)) := by
  simp only [rfsWriteDevice, writeStorageDevice, post_bind, post_get]
  split
  · next h => exact ⟨rfl, fun hr => absurd hr.1 h⟩
  · next h =>
    split
    · next h' => exact ⟨rfl, fun hr => absurd hr.2 (not_le.mpr h')⟩
    · next h' =>
      simp only [post_bind, post_get, post_modify]
      split
      · exact ⟨⟨not_not.mp h, not_lt.mp h'⟩, rfl⟩
      · next hio => exact ⟨rfl, fun _ => ⟨_, Bool.eq_false_iff.mpr hio⟩⟩

/-! ## Contents of the device -/

theorem Volume.sectors_apply (v : Volume) {start size i : ℕ} (hi : i < size)
    (h : start + (i / 512) < 2 ^ 64) : v.sectors start size i = v.bytes (512 * start + i) := by
  have haddr : 512 * (start + i / 512) + i % 512 = 512 * start + i := by omega
  unfold Volume.sectors deviceAddr
  rw [if_pos hi, u64_of_lt h, haddr]

@[simp] theorem Volume.store_desc (v : Volume) (start size : ℕ) (data : Buffer) :
    (v.store start size data).desc = v.desc := rfl

theorem Volume.store_bytes (v : Volume) {start size : ℕ} (data : Buffer) (a : ℕ)
    (hsize : size % 512 = 0) (h : start + size / 512 ≤ 2 ^ 64) :
    (v.store start size data).bytes a =
      if 512 * start ≤ a ∧ a < 512 * start + size then data (a - 512 * start) else v.bytes a := by
  have hval : (v.store start size data).bytes a =
      if a / 512 < 2 ^ 64 ∧ 512 * u64 (a / 512 + 2 ^ 64 - u64 start) + a % 512 < size
      then data (512 * u64 (a / 512 + 2 ^ 64 - u64 start) + a % 512) else v.bytes a := rfl
  rw [hval]
  unfold u64
  by_cases hin : 512 * start ≤ a ∧ a < 512 * start + size
  · have hi : 512 * ((a / 512 + 2 ^ 64 - start % 2 ^ 64) % 2 ^ 64) + a % 512 = a - 512 * start := by
      omega
    rw [if_pos hin, hi, if_pos (by omega)]
  · rw [if_neg hin, if_neg (by omega)]

end RetroRocket
