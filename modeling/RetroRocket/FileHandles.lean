import Mathlib.Algebra.Group.Nat.Defs
import Mathlib.Data.Int.Notation
import Mathlib.Logic.Function.Basic
import Mathlib.Tactic.Common
import RetroRocket.Run

/-!
# File handles

`_open`, `_close`, `_lseek`, `_read`, `_write` and `ftruncate` of `filesystem.c`, for the handles
that are open on one file. The driver of the file system is a parameter. A handle has an input
buffer of `ioBufSz` bytes, into which the driver reads; its contents are a function, since what is
not yet written there is whatever the memory held.
-/

namespace RetroRocket

def ioBufSz : ℕ := 65536

def fdMax : ℕ := 1024

inductive HandleType where
  | fileInput
  | fileOutput
  | fileRandom
  deriving DecidableEq

structure FsHandle where
  type : HandleType
  inbuf : ℕ → UInt8
  seekpos : ℕ
  cached : Bool

structure DirectoryEntry where
  bytes : List UInt8
  size : ℕ

structure Driver where
  readfile : DirectoryEntry → ℕ → ℕ → Option (List UInt8)
  writefile : DirectoryEntry → ℕ → List UInt8 → Option DirectoryEntry
  truncatefile : DirectoryEntry → ℕ → Option DirectoryEntry

structure Reply where
  value : ℤ
  buffer : List UInt8

def Reply.error : Reply := ⟨-1, []⟩

namespace Driver

variable (d : Driver)

/-- `fs_read_file`, whose start has 32 bits. -/
def fsReadFile (file : DirectoryEntry) (start length : ℕ) : Option (List UInt8) :=
  d.readfile file (start % 2 ^ 32) length

/-- `fs_write_file`, whose start has 32 bits. -/
def fsWriteFile (file : DirectoryEntry) (start : ℕ) (buffer : List UInt8) : Option DirectoryEntry :=
  d.writefile file (start % 2 ^ 32) buffer

end Driver

/-- Memory after `bytes` have been copied to its start. -/
def filled (inbuf : ℕ → UInt8) (bytes : List UInt8) : ℕ → UInt8 := fun i => bytes.getD i (inbuf i)

def bytesFrom (inbuf : ℕ → UInt8) (start count : ℕ) : List UInt8 :=
  (List.range count).map fun i => inbuf (start + i)

namespace FsHandle

variable (d : Driver) (file : DirectoryEntry)

/-- The loop of `_read` over chunks of the input buffer. It has no result when the number of bytes
read overflows an `int`. -/
def readLoop : ℕ → FsHandle → ℕ → List UInt8 → Option (FsHandle × Reply)
  | 0, _, _, _ => none
  | fuel + 1, h, count, out =>
    if count = 0 then some (h, ⟨out.length, out⟩)
    else
      let rb := if ioBufSz < count then ioBufSz else count
      match d.fsReadFile file h.seekpos rb with
      | none => some (h, ⟨-1, out⟩)
      | some bytes =>
        let h := { h with inbuf := filled h.inbuf bytes }
        let out := out ++ bytesFrom h.inbuf 0 rb
        if 2 ^ 31 ≤ out.length then none
        else readLoop fuel { h with seekpos := h.seekpos + rb } (count - rb) out

/-- The part of `_read` that moves `count` bytes, all of them before the end of the file. It has no
result when the copy leaves the input buffer. -/
def readBytes (h : FsHandle) (count : ℕ) : Option (FsHandle × Reply) :=
  if ioBufSz < h.seekpos % ioBufSz + count then readLoop d file (count + 1) h count []
  else if h.cached then
    if ioBufSz < h.seekpos + count then none
    else some ({ h with seekpos := h.seekpos + count }, ⟨count, bytesFrom h.inbuf h.seekpos count⟩)
  else
    match d.fsReadFile file h.seekpos count with
    | none => some (h, .error)
    | some bytes =>
      let h := { h with inbuf := filled h.inbuf bytes }
      some ({ h with seekpos := h.seekpos + count }, ⟨count, bytesFrom h.inbuf 0 count⟩)

end FsHandle

structure Vfs where
  file : DirectoryEntry
  filehandles : ℕ → Option FsHandle

inductive FileCall where
  | open (slot oflag : ℕ) (memory : ℕ → UInt8)
  | close (fd : ℤ)
  | lseek (fd : ℤ) (offset origin : ℕ)
  | read (fd : ℤ) (count : ℕ)
  | write (fd : ℤ) (buffer : List UInt8)
  | ftruncate (fd : ℤ) (length : ℕ)

def typeOf (oflag : ℕ) : HandleType :=
  if oflag &&& 0x1 = 0x1 then .fileRandom
  else if oflag &&& 0x2 = 0x2 then .fileOutput
  else if oflag &&& 0xC = 0xC then .fileRandom
  else if oflag &&& 0x8 = 0x8 then .fileOutput
  else .fileInput

namespace Vfs

variable (d : Driver) (s : Vfs)

def handle (fd : ℤ) : Option FsHandle :=
  if fd < 0 ∨ fdMax ≤ fd then none else s.filehandles fd.toNat

def setHandle (fd : ℕ) (h : Option FsHandle) : Vfs :=
  { s with filehandles := Function.update s.filehandles fd h }

/-- `_open`. `slot` is the free slot that `alloc_filehandle` takes, and `memory` what its new input
buffer holds. -/
def openFile (slot oflag : ℕ) (memory : ℕ → UInt8) : Vfs × Reply :=
  let type := typeOf oflag
  let file := if type = .fileOutput then (d.truncatefile s.file 0).getD s.file else s.file
  let s := { s with file }
  if fdMax ≤ slot ∨ (s.filehandles slot).isSome then (s, .error)
  else if type = .fileOutput then (s.setHandle slot (some ⟨type, memory, 0, false⟩), ⟨slot, []⟩)
  else
    match d.fsReadFile file 0 (if file.size ≤ ioBufSz then file.size else ioBufSz) with
    | none => (s, .error)
    | some bytes =>
      (s.setHandle slot (some ⟨type, filled memory bytes, 0, file.size ≤ ioBufSz⟩), ⟨slot, []⟩)

def close (fd : ℤ) : Vfs × Reply :=
  match s.handle fd with
  | none => (s, .error)
  | some _ => (s.setHandle fd.toNat none, ⟨0, []⟩)

def lseek (fd : ℤ) (offset origin : ℕ) : Vfs × Reply :=
  match s.handle fd with
  | none => (s, .error)
  | some h =>
    if s.file.size < origin ∨ s.file.size - origin < offset then (s, .error)
    else
      let h := { h with seekpos := offset + origin }
      let s := s.setHandle fd.toNat (some h)
      if h.type ≠ .fileOutput ∧ h.seekpos < s.file.size then
        match d.fsReadFile s.file h.seekpos ioBufSz with
        | none => (s, .error)
        | some bytes =>
          (s.setHandle fd.toNat (some { h with inbuf := filled h.inbuf bytes }), ⟨h.seekpos, []⟩)
      else (s, ⟨h.seekpos, []⟩)

def read (fd : ℤ) (count : ℕ) : Option (Vfs × Reply) :=
  match s.handle fd with
  | none => some (s, .error)
  | some h =>
    if h.type = .fileOutput then some (s, .error)
    else if s.file.size ≤ h.seekpos then some (s, ⟨0, []⟩)
    else do
      let count := if s.file.size < h.seekpos + count then s.file.size - h.seekpos else count
      let (h, r) ← h.readBytes d s.file count
      some (s.setHandle fd.toNat (some h), r)

def write (fd : ℤ) (buffer : List UInt8) : Vfs × Reply :=
  match s.handle fd with
  | none => (s, .error)
  | some h =>
    if h.type = .fileInput then (s, .error)
    else
      match d.fsWriteFile s.file h.seekpos buffer with
      | none => (s, .error)
      | some file =>
        let file :=
          if file.size ≤ h.seekpos then { file with size := h.seekpos + buffer.length } else file
        (setHandle { s with file } fd.toNat (some { h with seekpos := h.seekpos + buffer.length }),
          ⟨Int.bmod buffer.length (2 ^ 32), []⟩)

def ftruncate (fd : ℤ) (length : ℕ) : Vfs × Reply :=
  match s.handle fd with
  | none => (s, .error)
  | some h =>
    if h.type = .fileInput ∨ s.file.size < length then (s, .error)
    else
      match d.truncatefile s.file length with
      | none => (s, .error)
      | some file =>
        let file := { file with size := length }
        let seekpos := if file.size < h.seekpos then file.size else h.seekpos
        (setHandle { s with file } fd.toNat (some { h with seekpos }), ⟨0, []⟩)

def exec : FileCall → Option (Vfs × Reply)
  | .open slot oflag memory => some (s.openFile d slot oflag memory)
  | .close fd => some (s.close fd)
  | .lseek fd offset origin => some (s.lseek d fd offset origin)
  | .read fd count => s.read d fd count
  | .write fd buffer => some (s.write d fd buffer)
  | .ftruncate fd length => some (s.ftruncate d fd length)

def call (c : FileCall) : Option Vfs := (s.exec d c).map (·.1)

def closed (bytes : List UInt8) : Vfs := ⟨⟨bytes, bytes.length⟩, fun _ => none⟩

end Vfs

end RetroRocket
