import RetroRocket.RfsDirectory

/-!
# Creating RetroFS files and directories

`rfs_create_file` of `createfile.c` and `rfs_create_directory` of `createdirectory.c`. Both reject a
name that the directory has, allocate an extent, fill it with zeros and enter the name in the
directory.
-/

namespace RetroRocket

open RetroRocket.Action

/-! ## Reservations -/

/-- The extensions of `rfs_ext_size_table`, with their sizes in KiB. -/
def rfsExtSizeTable : List (List Byte × ℕ) :=
  [([0x6a, 0x70, 0x65, 0x67], 4096), ([0x6a, 0x70, 0x67], 4096), ([0x70, 0x6e, 0x67], 4096),
    ([0x67, 0x69, 0x66], 4096), ([0x62, 0x6d, 0x70], 4096), ([0x77, 0x65, 0x62, 0x70], 4096),
    ([0x74, 0x69, 0x66], 4096), ([0x74, 0x69, 0x66, 0x66], 4096)]

def extension (filename : List Byte) : List Byte :=
  if filename.contains 0x2e then (filename.reverse.takeWhile (· ≠ 0x2e)).reverse else []

def rfsGetDefaultReservation (filename : List Byte) : ℕ :=
  match rfsExtSizeTable.find? fun entry => sameName (extension filename) entry.1 with
  | some entry => entry.2 * 1024
  | none => 128 * 1024

def reserveSectors (filename : List Byte) (size : ℕ) : ℕ :=
  let bytes := max (rfsGetDefaultReservation filename) size
  if u64 (bytes + 511) / 512 = 0 then 1 else u64 (bytes + 511) / 512

/-! ## The two operations -/

def zeroExtent (env : Env) : ℕ → ℕ → ℕ → Action Rfs Unit
  | 0, _, _ => pure ()
  | fuel + 1, pos, remaining => do
    if remaining = 0 then pure ()
    else
      let sectors := min remaining 16
      rfsWriteDevice env pos (512 * sectors) fun _ => 0
      zeroExtent env fuel (u64 (pos + sectors)) (remaining - sectors)

/-- Goes on to `fail` when an action has failed, with what has been marked unmarked. -/
def orRollBack (env : Env) (start sectors : ℕ) (action : Action Rfs Unit) : Action Rfs Unit := do
  match ← attempt action with
  | some _ => pure ()
  | none =>
    let _ ← attempt (rfsMarkExtent env start sectors false)
    fail

def rfsCreateFile (env : Env) (lbapos : ℕ) (name : List Byte) (size : ℕ) : Action Rfs ℕ := do
  if name = [] then failWith .invalidArg
  else
    match ← rfsLocateEntry env lbapos name with
    | some _ => failWith .vfsData
    | none =>
      match ← attempt (rfsFindFreeExtent env (reserveSectors name size)) with
      | none => failWith .noSpace
      | some start =>
        if start < 65 then fail
        else
          if (← kmalloc env) = false then failWith .outOfMemory
          else
            rfsMarkExtent env start (reserveSectors name size) true
            orRollBack env start (reserveSectors name size)
              (zeroExtent env (reserveSectors name size) start (reserveSectors name size))
            orRollBack env start (reserveSectors name size)
              (rfsUpsertDirectoryEntry env lbapos ⟨name, start, size, false⟩
                (reserveSectors name size))
            pure start

def directoryBlock (name : List Byte) (parent : ℕ) : Buffer :=
  store64 140 64 (store64 132 parent (strlcpy 4 rfsMaxName name fun k =>
    if k = 0 then flagDirStart else 0))

def rfsCreateDirectory (env : Env) (lbapos : ℕ) (name : List Byte) : Action Rfs ℕ := do
  if name = [] then failWith .invalidArg
  else
    match ← rfsLocateEntry env lbapos name with
    | some _ => failWith .directoryExists
    | none =>
      let v ← get
      let parent := dirStart v.toVolume lbapos
      if (← kmalloc env) = false then failWith .outOfMemory
      else
        match ← attempt (rfsFindFreeExtent env 64) with
        | none => failWith .noSpace
        | some start =>
          rfsMarkExtent env start 64 true
          orRollBack env start 64 (zeroExtent env 64 start 64)
          orRollBack env start 64
            (rfsWriteDevice env start rfsDirBytes (directoryBlock name parent))
          orRollBack env start 64 (rfsUpsertDirectoryEntry env lbapos ⟨name, start, 0, true⟩ 64)
          pure start

end RetroRocket
