import RetroRocket.CaseFolding
import RetroRocket.LittleEndian
import RetroRocket.MarkExtent

/-!
# RetroFS directories

A directory is a chain of blocks of 64 sectors, each of 128 entries of half a sector, of which the
first is the start entry. `rfs_locate_entry` of `helpers.c` and `rfs_upsert_directory_entry` of
`createfile.c`, which looks for the name again.
-/

namespace RetroRocket

open RetroRocket.Action

def rfsMaxName : ℕ := 128

def rfsDirBytes : ℕ := 512 * 64

def entriesPerBlock : ℕ := 127

/-! ## Fields -/

def load64 (f : Buffer) (off : ℕ) : ℕ := leValue f off 8

def store64 (off value : ℕ) (f : Buffer) : Buffer := storeValue f off 8 value

/-- `strlcpy` into a field of `size` bytes. -/
def strlcpy (off size : ℕ) (name : List Byte) (f : Buffer) : Buffer := fun i =>
  if off ≤ i ∧ i < off + min name.length (size - 1) then name.getD (i - off) 0
  else if i = off + min name.length (size - 1) then 0 else f i

def flagDirectory : Byte := 0x01

def flagDirStart : Byte := 0x04

def dirEntry (block : Buffer) (i : ℕ) : Buffer := fun k => block (256 * (i + 1) + k)

def putEntry (block : Buffer) (i : ℕ) (e : Buffer) : Buffer := fun k =>
  if 256 * (i + 1) ≤ k ∧ k < 256 * (i + 1) + 256 then e (k - 256 * (i + 1)) else block k

def entryName (e : Buffer) : Buffer := fun k => e (4 + k)

def entrySectorStart (e : Buffer) : ℕ := load64 e 132

/-- `start->continuation`. -/
def continuation (block : Buffer) : ℕ := load64 block 148

def startOk (block : Buffer) : Bool := block 0 &&& flagDirStart ≠ 0 ∧ load64 block 140 = 64

/-! ## Looking for a name -/

inductive Scan where
  | found (i : ℕ)
  | empty (i : ℕ)
  | full

/-- The loop over `n` entries from entry `i` on. -/
def scanEntries (block : Buffer) (name : List Byte) : ℕ → ℕ → Scan
  | 0, _ => .full
  | n + 1, i =>
    if entryName (dirEntry block i) 0 = 0 then .empty i
    else if strcasecmp (entryName (dirEntry block i)) name then .found i
    else scanEntries block name n (i + 1)

def scanBlock (block : Buffer) (name : List Byte) : Scan := scanEntries block name entriesPerBlock 0

/-- `tree->lbapos != 0 ? tree->lbapos : info->desc->root_directory`. -/
def dirStart (v : Volume) (lbapos : ℕ) : ℕ := if lbapos ≠ 0 then lbapos else v.desc.rootDirectory

/-- The walk of `rfs_locate_entry`, with room for some more blocks. `none` for `false`. -/
def locateWalk (env : Env) (name : List Byte) : ℕ → ℕ → Action Rfs (Option (ℕ × ℕ × Buffer))
  | 0, current => do
    if current = 0 then pure none
    else
      fsSetError .cycleDetected
      pure none
  | fuel + 1, current => do
    if current = 0 then pure none
    else
      let block ← attempt (rfsReadDevice env current rfsDirBytes)
      match block with
      | none => pure none
      | some block =>
        if startOk block = false then pure none
        else
          match scanBlock block name with
          | .found i => pure (some (current, i, dirEntry block i))
          | _ => if continuation block = 0 then pure none else
              locateWalk env name fuel (continuation block)

def walkLimit : ℕ := 2 ^ 16 + 1

def rfsLocateEntry (env : Env) (lbapos : ℕ) (name : List Byte) :
    Action Rfs (Option (ℕ × ℕ × Buffer)) := do
  let v ← get
  if name = [] then
    fsSetError .invalidArg
    pure none
  else locateWalk env name walkLimit (dirStart v.toVolume lbapos)

/-! ## `rfs_upsert_directory_entry` -/

/-- The fields of `fs_directory_entry_t` that are stored. -/
structure FileInfo where
  filename : List Byte
  lbapos : ℕ
  size : ℕ
  isDirectory : Bool

def putFields (file : FileInfo) (sectorExtent : ℕ) (e : Buffer) : Buffer :=
  store64 148 sectorExtent (store64 140 file.size (store64 132 file.lbapos
    (strlcpy 4 rfsMaxName file.filename e)))

def putFlags (flags : Byte) (rest : Buffer) (e : Buffer) : Buffer := fun k =>
  if k = 0 then flags else if k < 4 then rest k else e k

def updatedEntry (file : FileInfo) (sectorExtent : ℕ) (e : Buffer) : Buffer :=
  let flags := e 0 &&& ~~~flagDirectory
  let flags := if file.isDirectory then flags ||| flagDirectory else flags
  putFlags flags e (putFields file sectorExtent
    fun k => if 4 ≤ k ∧ k < 4 + rfsMaxName then 0 else e k)

def newEntry (file : FileInfo) (sectorExtent : ℕ) (e : Buffer) : Buffer :=
  putFlags (if file.isDirectory then flagDirectory else 0) (fun _ => 0)
    (putFields file sectorExtent e)

inductive EntryPlace where
  /-- The entry of that name, in a block that has been read. -/
  | existing (sector i : ℕ) (block : Buffer)
  | emptySlot (sector i : ℕ)
  | none

def upsertWalk (env : Env) (name : List Byte) : ℕ → ℕ → EntryPlace → Action Rfs EntryPlace
  | 0, current, slot => if current = 0 then pure slot else failWith .cycleDetected
  | fuel + 1, current, slot => do
    if current = 0 then pure slot
    else
      let block ← rfsReadDevice env current rfsDirBytes
      if startOk block = false then failWith .brokenDirectory
      else
        match scanBlock block name with
        | .found i => pure (.existing current i block)
        | .empty i =>
          let slot := match slot with
            | .none => .emptySlot current i
            | slot => slot
          if continuation block = 0 then pure slot
          else upsertWalk env name fuel (continuation block) slot
        | .full =>
          if continuation block = 0 then pure slot
          else upsertWalk env name fuel (continuation block) slot

def lastBlock (env : Env) : ℕ → ℕ → Action Rfs (ℕ × Buffer)
  | 0, _ => fail
  | fuel + 1, next => do
    let block ← rfsReadDevice env next rfsDirBytes
    if continuation block = 0 then pure (next, block) else lastBlock env fuel (continuation block)

def extendDirectory (env : Env) (lbapos : ℕ) (file : FileInfo) (sectorExtent : ℕ) :
    Action Rfs Unit := do
  let newBlock ← rfsFindFreeExtent env 64
  rfsMarkExtent env newBlock 64 true
  let v ← get
  let start := dirStart v.toVolume lbapos
  let (last, block) ← lastBlock env walkLimit start
  rfsWriteDevice env last rfsDirBytes (store64 148 newBlock block)
  let fresh : Buffer :=
    store64 140 64 (store64 132 start fun k => if k = 0 then flagDirStart else 0)
  rfsWriteDevice env newBlock rfsDirBytes (putEntry fresh 0 (newEntry file sectorExtent fun _ => 0))

def rfsUpsertDirectoryEntry (env : Env) (lbapos : ℕ) (file : FileInfo) (sectorExtent : ℕ) :
    Action Rfs Unit := do
  if file.filename = [] then failWith .invalidFilename
  else
    let v ← get
    match ← upsertWalk env file.filename walkLimit (dirStart v.toVolume lbapos) .none with
    | .existing sector i block =>
      rfsWriteDevice env sector rfsDirBytes
        (putEntry block i (updatedEntry file sectorExtent (dirEntry block i)))
    | .emptySlot sector i =>
      let block ← rfsReadDevice env sector rfsDirBytes
      rfsWriteDevice env sector rfsDirBytes
        (putEntry block i (newEntry file sectorExtent (dirEntry block i)))
    | .none => extendDirectory env lbapos file sectorExtent

end RetroRocket
