import RetroRocket.FileHandles

/-!
# What file handles do

A handle reads the bytes of the file from its position on and writes there. The input buffer of a
handle holds the whole file if the file fits into it when it is opened, and reads are then served
from the buffer. A write does not reach that buffer, and a seek fills it from the new position on,
so after either of them such a handle may read something else.
-/

namespace RetroRocket

/-! ## Buffers -/

def Holds (inbuf : ℕ → UInt8) (bytes : List UInt8) : Prop :=
  ∀ i b, bytes[i]? = some b → inbuf i = b

variable {inbuf : ℕ → UInt8} {bytes bytes' : List UInt8}

theorem Holds.of_isPrefix (h : Holds inbuf bytes) (hpre : bytes' <+: bytes) :
    Holds inbuf bytes' := by
  obtain ⟨rest, rfl⟩ := hpre
  intro i b hb
  apply h
  rw [List.getElem?_append_left (List.getElem?_eq_some_iff.mp hb).1, hb]

theorem holds_filled (inbuf : ℕ → UInt8) (bytes : List UInt8) :
    Holds (filled inbuf bytes) bytes := by
  intro i b hb
  unfold filled
  rw [List.getD_eq_getElem?_getD, hb, Option.getD_some]

theorem bytesFrom_of_holds (h : Holds inbuf bytes) {start count : ℕ}
    (hcount : start + count ≤ bytes.length) :
    bytesFrom inbuf start count = (bytes.drop start).take count := by
  apply List.ext_getElem?
  intro i
  unfold bytesFrom
  rw [List.getElem?_map, List.getElem?_take, List.getElem?_drop]
  by_cases hi : i < count
  · have hlt : start + i < bytes.length := by omega
    rw [if_pos hi, List.getElem?_range hi, List.getElem?_eq_getElem hlt, Option.map_some,
      h (start + i) bytes[start + i] (List.getElem?_eq_getElem hlt)]
  · rw [if_neg hi, List.getElem?_eq_none (by simpa using hi), Option.map_none]

theorem bytesFrom_filled (inbuf : ℕ → UInt8) {count : ℕ} (hcount : bytes.length = count) :
    bytesFrom (filled inbuf bytes) 0 count = bytes := by
  rw [bytesFrom_of_holds (holds_filled inbuf bytes) (by omega), List.drop_zero,
    List.take_of_length_le (Nat.le_of_eq hcount)]

/-! ## Drivers -/

def DirectoryEntry.Sound (file : DirectoryEntry) : Prop := file.size = file.bytes.length

def spliced (bytes : List UInt8) (start : ℕ) (buffer : List UInt8) : List UInt8 :=
  bytes.take start ++ buffer ++ bytes.drop (start + buffer.length)

/-- A correct driver, none of whose transfers fail. A read that passes the end of the file may still
fail; one that does not has the bytes there are before whatever it finds behind them. -/
structure Driver.Correct (d : Driver) : Prop where
  read : ∀ {file start length}, file.Sound → start + length ≤ file.size →
    d.readfile file start length = some ((file.bytes.drop start).take length)
  read_past : ∀ {file start length bytes}, file.Sound → file.size < start + length →
    d.readfile file start length = some bytes → file.bytes.drop start <+: bytes
  write : ∀ {file start buffer}, file.Sound → start ≤ file.size →
    ∃ file', d.writefile file start buffer = some file' ∧ file'.Sound ∧
      file'.bytes = spliced file.bytes start buffer
  truncate : ∀ {file length}, file.Sound → length ≤ file.size →
    ∃ file', d.truncatefile file length = some file' ∧ file'.Sound ∧
      file'.bytes = file.bytes.take length

theorem length_spliced {start : ℕ} {buffer : List UInt8} (h : start ≤ bytes.length) :
    start + buffer.length ≤ (spliced bytes start buffer).length := by
  unfold spliced
  rw [List.length_append, List.length_append, List.length_take, Nat.min_eq_left h]
  exact Nat.le_add_right _ _

theorem spliced_nil (bytes : List UInt8) (start : ℕ) : spliced bytes start [] = bytes := by
  unfold spliced
  rw [List.append_nil, List.length_nil, Nat.add_zero, List.take_append_drop]

/-! ## One handle -/

namespace FsHandle

variable {d : Driver} {file : DirectoryEntry} {h : FsHandle} {count : ℕ}

def ChunksBelow (h : FsHandle) (count : ℕ) : Prop :=
  ∀ k, k * ioBufSz < count → h.seekpos + k * ioBufSz < 2 ^ 32

def Moves (h : FsHandle) (bytes : List UInt8) (h' : FsHandle) (r : Reply) : Prop :=
  h'.seekpos = h.seekpos + bytes.length ∧ h'.cached = h.cached ∧ (h.cached → h'.inbuf = h.inbuf) ∧
    r = ⟨bytes.length, bytes⟩

theorem readLoop_spec (hd : d.Correct) (hfile : file.Sound) {fuel : ℕ} {out : List UInt8}
    (hcached : h.cached = false) (hfuel : count < fuel) (hend : h.seekpos + count ≤ file.size)
    (hbelow : h.ChunksBelow count) (hint : out.length + count < 2 ^ 31) :
    ∃ h' r, readLoop d file fuel h count out = some (h', r) ∧
      h'.seekpos = h.seekpos + count ∧ h'.cached = false ∧
      r.buffer = out ++ (file.bytes.drop h.seekpos).take count ∧ r.value = r.buffer.length := by
  induction fuel generalizing h count out with
  | zero => exact absurd hfuel (Nat.not_lt_zero _)
  | succ fuel ih =>
    unfold readLoop
    by_cases hzero : count = 0
    · rw [if_pos hzero]
      refine ⟨h, _, rfl, ?_, hcached, ?_, rfl⟩
      · rw [hzero, Nat.add_zero]
      · rw [hzero, List.take_zero, List.append_nil]
    · rw [if_neg hzero]
      have hrb : (if ioBufSz < count then ioBufSz else count) = min ioBufSz count := by
        split <;> omega
      dsimp only
      rw [hrb]
      have hpos : 0 < min ioBufSz count := by
        unfold ioBufSz
        omega
      have hle : min ioBufSz count ≤ count := Nat.min_le_right _ _
      generalize hn : min ioBufSz count = rb at *
      have hstart : h.seekpos % 2 ^ 32 = h.seekpos := by
        apply Nat.mod_eq_of_lt
        simpa using hbelow 0 (by omega)
      have hlength : ((file.bytes.drop h.seekpos).take rb).length = rb := by
        unfold DirectoryEntry.Sound at hfile
        rw [List.length_take, List.length_drop]
        omega
      unfold Driver.fsReadFile
      rw [hstart, hd.read hfile (by omega)]
      dsimp only
      rw [bytesFrom_filled _ hlength, if_neg (by rw [List.length_append, hlength]; omega)]
      have hnext : ChunksBelow ⟨h.type, filled h.inbuf ((file.bytes.drop h.seekpos).take rb),
          h.seekpos + rb, h.cached⟩ (count - rb) := by
        intro k hk
        -- there is a next chunk only behind a full one
        have hfull : rb = ioBufSz := by omega
        have hnext := hbelow (k + 1) (by rw [Nat.add_mul, Nat.one_mul]; omega)
        rw [Nat.add_mul, Nat.one_mul] at hnext
        dsimp only
        omega
      obtain ⟨h', r, hloop, hpos', hcached', hbuffer, hvalue⟩ :=
        @ih ⟨h.type, filled h.inbuf ((file.bytes.drop h.seekpos).take rb), h.seekpos + rb, h.cached⟩
          (count - rb) (out ++ (file.bytes.drop h.seekpos).take rb) hcached
          (by omega) (by dsimp only; omega) hnext (by rw [List.length_append, hlength]; omega)
      refine ⟨h', r, hloop, ?_, hcached', ?_, hvalue⟩
      · rw [hpos']
        dsimp only
        omega
      · rw [hbuffer, List.append_assoc]
        congr 1
        dsimp only
        rw [← List.drop_drop, ← List.take_add, Nat.add_sub_cancel' hle]

theorem readBytes_spec (hd : d.Correct) (hfile : file.Sound)
    (hcached : h.cached → file.size ≤ ioBufSz ∧ Holds h.inbuf file.bytes)
    (hend : h.seekpos + count ≤ file.size) (hlt : h.seekpos < file.size)
    (hbelow : h.ChunksBelow count) (hint : count < 2 ^ 31) :
    ∃ h' r, readBytes d file h count = some (h', r) ∧
      h.Moves ((file.bytes.drop h.seekpos).take count) h' r := by
  have hlength : ((file.bytes.drop h.seekpos).take count).length = count := by
    unfold DirectoryEntry.Sound at hfile
    rw [List.length_take, List.length_drop]
    omega
  unfold readBytes Moves
  rw [hlength]
  by_cases hloop : ioBufSz < h.seekpos % ioBufSz + count
  · rw [if_pos hloop]
    have hnot : h.cached = false := by
      by_contra hc
      obtain ⟨hsize, -⟩ := hcached (by simpa using hc)
      rw [Nat.mod_eq_of_lt (by omega)] at hloop
      omega
    obtain ⟨h', ⟨value, buffer⟩, heq, hpos, hcached', hbuffer, hvalue⟩ :=
      @readLoop_spec _ _ _ _ hd hfile _ [] hnot (Nat.lt_succ_self count) hend hbelow
        (by simpa using hint)
    refine ⟨h', _, heq, hpos, hcached'.trans hnot.symm, ?_, ?_⟩
    · intro hc
      rw [hnot] at hc
      cases hc
    · dsimp only at hbuffer hvalue
      rw [List.nil_append] at hbuffer
      rw [hvalue, hbuffer, hlength]
  · rw [if_neg hloop]
    by_cases hc : h.cached = true
    · obtain ⟨hsize, hholds⟩ := hcached hc
      rw [if_pos hc, if_neg (by omega)]
      refine ⟨_, _, rfl, rfl, rfl, fun _ => rfl, ?_⟩
      rw [bytesFrom_of_holds hholds (by rw [← hfile]; exact hend)]
    · rw [if_neg hc]
      by_cases hzero : count = 0
      · -- the position may be one that 32 bits cannot tell, but no byte is read there
        subst hzero
        unfold Driver.fsReadFile
        have hstart : h.seekpos % 2 ^ 32 ≤ h.seekpos := Nat.mod_le _ _
        rw [hd.read hfile (by omega)]
        exact ⟨_, _, rfl, rfl, rfl, fun h => absurd h hc, rfl⟩
      · have hstart : h.seekpos % 2 ^ 32 = h.seekpos := by
          apply Nat.mod_eq_of_lt
          simpa using hbelow 0 (by omega)
        unfold Driver.fsReadFile
        rw [hstart, hd.read hfile hend]
        refine ⟨_, _, rfl, rfl, rfl, fun h => absurd h hc, ?_⟩
        rw [bytesFrom_filled _ hlength]

end FsHandle

/-! ## All handles -/

namespace Vfs

variable {d : Driver} {s t u : Vfs} {fd : ℤ} {h h' : FsHandle} {r : Reply} {c : FileCall}

def position (s : Vfs) (fd : ℤ) : Option ℕ := (s.handle fd).map (·.seekpos)

def Law (s : Vfs) : FileCall → Vfs × Reply → Prop
  | .read fd count, (t, r) => ∀ h, s.handle fd = some h → h.type ≠ .fileOutput →
      t.file = s.file ∧ r.buffer = (s.file.bytes.drop h.seekpos).take count ∧
      r.value = r.buffer.length ∧ t.position fd = some (h.seekpos + r.buffer.length)
  | .write fd buffer, (t, _) => ∀ h, s.handle fd = some h → h.type ≠ .fileInput →
      t.file.bytes = spliced s.file.bytes h.seekpos buffer ∧
      t.position fd = some (h.seekpos + buffer.length)
  | .lseek fd offset origin, (t, _) => t.file = s.file ∧ ∀ h, s.handle fd = some h →
      offset + origin ≤ s.file.bytes.length → t.position fd = some (offset + origin)
  | .ftruncate fd length, (t, _) => ∀ h, s.handle fd = some h → h.type ≠ .fileInput →
      length ≤ s.file.bytes.length →
      t.file.bytes = s.file.bytes.take length ∧ t.position fd = some (min h.seekpos length)
  | .open _ _ _, _ => True
  | .close _, (t, _) => t.file = s.file

def InRange (s : Vfs) : FileCall → Prop
  | .write fd _ => ∀ h, s.handle fd = some h → h.seekpos ≤ s.file.bytes.length
  | _ => True

/-- A call that takes none of the branches that go wrong: a read moves fewer than `2 ^ 31` bytes and
no chunk of it begins past `2 ^ 32`; a write that moves bytes begins below `2 ^ 32`, and no handle
has the file in its buffer; a seek does not fill the buffer of a handle that has the file there with
what follows its first byte. -/
def Harmless (d : Driver) (s : Vfs) : FileCall → Prop
  | .read fd count => ∀ h, s.handle fd = some h → h.type ≠ .fileOutput →
      min count (s.file.bytes.length - h.seekpos) < 2 ^ 31 ∧
      h.ChunksBelow (min count (s.file.bytes.length - h.seekpos))
  | .write fd buffer => ∀ h, s.handle fd = some h → h.type ≠ .fileInput → buffer ≠ [] →
      h.seekpos < 2 ^ 32 ∧ ∀ fd' h', s.filehandles fd' = some h' → h'.cached = false
  | .lseek fd offset origin => ∀ h, s.handle fd = some h → h.cached →
      0 < offset + origin → offset + origin < s.file.bytes.length →
      d.fsReadFile s.file (offset + origin) ioBufSz = none
  | _ => True

def Allowed (d : Driver) (s : Vfs) (c : FileCall) : Prop := s.InRange c ∧ s.Harmless d c

/-- The directory entry has the size of the file, and a handle that is to have the file in its
buffer has it there. -/
structure Kept (s : Vfs) : Prop where
  sound : s.file.Sound
  cached : ∀ fd h, s.filehandles fd = some h → h.cached →
    s.file.size ≤ ioBufSz ∧ Holds h.inbuf s.file.bytes

theorem filehandles_of_handle (hh : s.handle fd = some h) : s.filehandles fd.toNat = some h := by
  unfold handle at hh
  split at hh
  · cases hh
  · exact hh

@[simp] theorem setHandle_file (s : Vfs) (fd : ℕ) (h : Option FsHandle) :
    (s.setHandle fd h).file = s.file := rfl

theorem position_setHandle (hh : s.handle fd = some h) :
    (t.setHandle fd.toNat (some h')).position fd = some h'.seekpos := by
  unfold handle at hh
  split at hh
  · cases hh
  · next hfd =>
    unfold position handle
    rw [if_neg hfd]
    change (Function.update t.filehandles fd.toNat (some h') fd.toNat).map _ = _
    rw [Function.update_self, Option.map_some]

theorem Kept.setHandle (hs : s.Kept) {fd : ℕ} {h : Option FsHandle}
    (hh : ∀ h', h = some h' → h'.cached → s.file.size ≤ ioBufSz ∧ Holds h'.inbuf s.file.bytes) :
    (s.setHandle fd h).Kept := by
  refine ⟨hs.sound, fun fd' h' hget hc => ?_⟩
  change Function.update s.filehandles fd h fd' = some h' at hget
  by_cases heq : fd' = fd
  · rw [heq, Function.update_self] at hget
    exact hh h' hget hc
  · rw [Function.update_of_ne heq] at hget
    exact hs.cached fd' h' hget hc

theorem Kept.truncated (hs : s.Kept) {file : DirectoryEntry} (hsound : file.Sound)
    (hpre : file.bytes <+: s.file.bytes) : Kept { s with file } := by
  refine ⟨hsound, fun fd h hget hc => ?_⟩
  obtain ⟨hsize, hholds⟩ := hs.cached fd h hget hc
  have hlength := hpre.length_le
  have hsound' := hs.sound
  unfold DirectoryEntry.Sound at hsound hsound'
  exact ⟨by dsimp only; omega, hholds.of_isPrefix hpre⟩

/-! ## One call -/

theorem openFile_spec (hd : d.Correct) (hs : s.Kept) (slot oflag : ℕ) (memory : ℕ → UInt8) :
    (s.openFile d slot oflag memory).1.Kept := by
  unfold openFile
  dsimp only
  generalize hfile : (if typeOf oflag = .fileOutput then (d.truncatefile s.file 0).getD s.file
    else s.file) = file
  have hkept : Kept { s with file } := by
    rw [← hfile]
    split
    · obtain ⟨file', htrunc, hsound, hbytes⟩ := hd.truncate hs.sound (Nat.zero_le _)
      rw [htrunc, Option.getD_some]
      apply hs.truncated hsound
      rw [hbytes]
      exact List.take_prefix 0 _
    · exact hs
  have hsound : file.Sound := hkept.sound
  split
  · exact hkept
  · split
    · apply hkept.setHandle
      intro h' heq hc
      cases heq
      cases hc
    · have hle : (if file.size ≤ ioBufSz then file.size else ioBufSz) ≤ file.size := by
        split <;> omega
      unfold Driver.fsReadFile
      rw [Nat.zero_mod, hd.read hsound (by rwa [Nat.zero_add])]
      apply hkept.setHandle
      intro h' heq hc
      cases heq
      have hsize : file.size ≤ ioBufSz := by simpa using hc
      refine ⟨hsize, ?_⟩
      rw [if_pos hsize, List.drop_zero, List.take_of_length_le (Nat.le_of_eq hsound.symm)]
      exact holds_filled memory file.bytes

theorem close_spec (hs : s.Kept) (fd : ℤ) :
    (s.close fd).1.Kept ∧ (s.close fd).1.file = s.file := by
  unfold close
  split
  · exact ⟨hs, rfl⟩
  · refine ⟨hs.setHandle ?_, rfl⟩
    intro h' heq
    cases heq

theorem lseek_spec (hd : d.Correct) (hs : s.Kept) {offset origin : ℕ}
    (hharmless : s.Harmless d (.lseek fd offset origin)) :
    (s.lseek d fd offset origin).1.Kept ∧
      s.Law (.lseek fd offset origin) (s.lseek d fd offset origin) := by
  have hsound := hs.sound
  unfold DirectoryEntry.Sound at hsound
  unfold lseek
  cases hh : s.handle fd with
  | none => exact ⟨hs, rfl, fun h heq => by rw [hh] at heq; cases heq⟩
  | some h =>
    have hcached := hs.cached _ _ (filehandles_of_handle hh)
    dsimp only
    split
    · next hout =>
      refine ⟨hs, rfl, fun h' heq hle => ?_⟩
      omega
    · have hmoved : ∀ inbuf, (h.cached → Holds inbuf s.file.bytes) →
          (s.setHandle fd.toNat (some ⟨h.type, inbuf, offset + origin, h.cached⟩)).Kept := by
        intro inbuf hholds
        apply hs.setHandle
        intro h' heq hc
        cases heq
        exact ⟨(hcached hc).1, hholds hc⟩
      have hplace : ∀ (t : Vfs) inbuf, (t.setHandle fd.toNat
          (some ⟨h.type, inbuf, offset + origin, h.cached⟩)).position fd = some (offset + origin) :=
        fun t inbuf => position_setHandle hh
      split
      · next hrefill =>
        cases hread : d.fsReadFile s.file (offset + origin) ioBufSz with
        | none =>
          dsimp only [setHandle_file]
          rw [hread]
          exact ⟨hmoved _ fun hc => (hcached hc).2, rfl, fun _ _ _ => hplace _ _⟩
        | some bytes =>
          dsimp only [setHandle_file]
          rw [hread]
          refine ⟨?_, rfl, fun _ _ _ => hplace _ _⟩
          have hfilled : h.cached → Holds (filled h.inbuf bytes) s.file.bytes := by
            intro hc
            apply (holds_filled h.inbuf bytes).of_isPrefix
            by_cases hzero : offset + origin = 0
            · unfold Driver.fsReadFile at hread
              rw [hzero, Nat.zero_mod] at hread
              by_cases hpast : s.file.size < ioBufSz
              · exact hd.read_past hs.sound (by rwa [Nat.zero_add]) hread
              · have hsize := (hcached hc).1
                rw [hd.read hs.sound (by omega), List.drop_zero,
                  List.take_of_length_le (by omega)] at hread
                cases hread
                exact List.prefix_rfl
            · have hlt : offset + origin < s.file.bytes.length := by
                rw [← hsound]
                exact hrefill.2
              rw [hharmless h hh hc (Nat.pos_of_ne_zero hzero) hlt] at hread
              cases hread
          have hkept := hmoved _ hfilled
          unfold setHandle at hkept ⊢
          simpa using hkept
      · exact ⟨hmoved _ fun hc => (hcached hc).2, rfl, fun _ _ _ => hplace _ _⟩

theorem read_spec (hd : d.Correct) (hs : s.Kept) {count : ℕ}
    (hharmless : s.Harmless d (.read fd count)) :
    ∃ t r, s.read d fd count = some (t, r) ∧ t.Kept ∧ s.Law (.read fd count) (t, r) := by
  have hsound := hs.sound
  unfold DirectoryEntry.Sound at hsound
  unfold read
  cases hh : s.handle fd with
  | none => exact ⟨s, _, rfl, hs, fun h heq => by rw [hh] at heq; cases heq⟩
  | some h =>
    have hcached := hs.cached _ _ (filehandles_of_handle hh)
    dsimp only
    split
    · next htype =>
      refine ⟨s, _, rfl, hs, fun h' heq htype' => ?_⟩
      rw [hh] at heq
      cases heq
      exact absurd htype htype'
    · next htype =>
      split
      · next hend =>
        refine ⟨s, _, rfl, hs, fun h' heq _ => ?_⟩
        rw [hh] at heq
        cases heq
        rw [List.drop_of_length_le (by omega), List.take_nil]
        refine ⟨rfl, rfl, rfl, ?_⟩
        unfold position
        rw [hh]
        rfl
      · next hlt =>
        obtain ⟨hint, hbelow⟩ := hharmless h hh htype
        have hcount : (if s.file.size < h.seekpos + count then s.file.size - h.seekpos else count) =
            min count (s.file.bytes.length - h.seekpos) := by
          split <;> omega
        rw [hcount]
        obtain ⟨h', r, hread, hpos, hc', hinbuf, rfl⟩ :=
          FsHandle.readBytes_spec hd hs.sound hcached (by omega) (by omega) hbelow hint
        rw [hread]
        refine ⟨_, _, rfl, hs.setHandle ?_, fun h'' heq _ => ?_⟩
        · intro h'' heq hc
          cases heq
          rw [hc'] at hc
          rw [hinbuf hc]
          exact hcached hc
        · rw [hh] at heq
          cases heq
          have hbytes : (s.file.bytes.drop h.seekpos).take
              (min count (s.file.bytes.length - h.seekpos)) =
              (s.file.bytes.drop h.seekpos).take count := by
            rw [← List.length_drop, ← List.take_eq_take_min]
          rw [hbytes] at hpos ⊢
          refine ⟨rfl, rfl, rfl, ?_⟩
          rw [position_setHandle hh, hpos]

theorem write_spec (hd : d.Correct) (hs : s.Kept) {buffer : List UInt8}
    (hrange : s.InRange (.write fd buffer)) (hharmless : s.Harmless d (.write fd buffer)) :
    (s.write d fd buffer).1.Kept ∧ s.Law (.write fd buffer) (s.write d fd buffer) := by
  have hsound := hs.sound
  unfold DirectoryEntry.Sound at hsound
  unfold write
  cases hh : s.handle fd with
  | none => exact ⟨hs, fun h heq => by rw [hh] at heq; cases heq⟩
  | some h =>
    dsimp only
    split
    · next htype =>
      refine ⟨hs, fun h' heq htype' => ?_⟩
      rw [hh] at heq
      cases heq
      exact absurd htype htype'
    · next htype =>
      have hpos := hrange h hh
      have hstart : h.seekpos % 2 ^ 32 ≤ h.seekpos := Nat.mod_le _ _
      obtain ⟨file, hwrite, hsound', hbytes⟩ :=
        @Driver.Correct.write _ hd _ (h.seekpos % 2 ^ 32) buffer hs.sound (by omega)
      have hbytes' : file.bytes = spliced s.file.bytes h.seekpos buffer := by
        by_cases hnil : buffer = []
        · rw [hbytes, hnil, spliced_nil, spliced_nil]
        · rw [hbytes, Nat.mod_eq_of_lt (hharmless h hh htype hnil).1]
      -- the driver has extended the file, so the size is not changed again
      have hsame : (if file.size ≤ h.seekpos then
          { file with size := h.seekpos + buffer.length } else file) = file := by
        split
        · next hle =>
          have hlength := @length_spliced _ _ buffer hpos
          rw [← hbytes', ← hsound'] at hlength
          have heq : h.seekpos + buffer.length = file.size := by omega
          rw [heq]
        · rfl
      unfold Driver.fsWriteFile
      rw [hwrite]
      dsimp only
      rw [hsame]
      refine ⟨?_, fun h' heq _ => ?_⟩
      · have hkept : Kept { s with file } := by
          refine ⟨hsound', fun fd' h' hget hc => ?_⟩
          by_cases hnil : buffer = []
          · obtain ⟨hsize, hholds⟩ := hs.cached fd' h' hget hc
            have heq : file.bytes = s.file.bytes := by rw [hbytes', hnil, spliced_nil]
            dsimp only
            rw [heq, hsound', heq, ← hsound]
            exact ⟨hsize, hholds⟩
          · rw [(hharmless h hh htype hnil).2 fd' h' hget] at hc
            cases hc
        apply hkept.setHandle
        intro h' heq hc
        cases heq
        exact hkept.cached _ h (filehandles_of_handle hh) hc
      · rw [hh] at heq
        cases heq
        exact ⟨hbytes', position_setHandle hh⟩

theorem ftruncate_spec (hd : d.Correct) (hs : s.Kept) (length : ℕ) :
    (s.ftruncate d fd length).1.Kept ∧ s.Law (.ftruncate fd length) (s.ftruncate d fd length) := by
  have hsound := hs.sound
  unfold DirectoryEntry.Sound at hsound
  unfold ftruncate
  cases hh : s.handle fd with
  | none => exact ⟨hs, fun h heq => by rw [hh] at heq; cases heq⟩
  | some h =>
    dsimp only
    split
    · next hrefused =>
      refine ⟨hs, fun h' heq htype hle => ?_⟩
      rw [hh] at heq
      cases heq
      rcases hrefused with htype' | hlt
      · exact absurd htype' htype
      · omega
    · next hallowed =>
      obtain ⟨file, htrunc, hsound', hbytes⟩ :=
        @Driver.Correct.truncate _ hd _ length hs.sound (by omega)
      unfold DirectoryEntry.Sound at hsound'
      have hlength : file.size = length := by
        rw [hsound', hbytes, List.length_take]
        omega
      rw [htrunc]
      dsimp only
      have hmin : (if length < h.seekpos then length else h.seekpos) = min h.seekpos length := by
        split <;> omega
      rw [hmin]
      have hsound'' : ({ file with size := length } : DirectoryEntry).Sound :=
        hlength.symm.trans hsound'
      have hkept : Kept { s with file := { file with size := length } } := by
        apply hs.truncated hsound''
        dsimp only
        rw [hbytes]
        exact List.take_prefix length _
      refine ⟨?_, fun h' heq _ _ => ?_⟩
      · apply hkept.setHandle
        intro h' heq hc
        cases heq
        exact hkept.cached _ h (filehandles_of_handle hh) hc
      · rw [hh] at heq
        cases heq
        exact ⟨hbytes, position_setHandle hh⟩

theorem exec_spec (hd : d.Correct) (hs : s.Kept) (hc : s.Allowed d c) :
    ∃ t r, s.exec d c = some (t, r) ∧ t.Kept ∧ s.Law c (t, r) := by
  obtain ⟨hrange, hharmless⟩ := hc
  cases c with
  | «open» slot oflag memory => exact ⟨_, _, rfl, openFile_spec hd hs slot oflag memory, trivial⟩
  | close fd => exact ⟨_, _, rfl, close_spec hs fd⟩
  | lseek fd offset origin => exact ⟨_, _, rfl, lseek_spec hd hs hharmless⟩
  | read fd count => exact read_spec hd hs hharmless
  | write fd buffer => exact ⟨_, _, rfl, write_spec hd hs hrange hharmless⟩
  | ftruncate fd length => exact ⟨_, _, rfl, ftruncate_spec hd hs length⟩

theorem kept_closed (bytes : List UInt8) : (closed bytes).Kept := by
  refine ⟨rfl, fun fd h hget => ?_⟩
  cases hget

def shortReads : Driver where
  readfile file start length := some ((file.bytes.drop start).take length)
  writefile file start buffer :=
    some ⟨spliced file.bytes start buffer, (spliced file.bytes start buffer).length⟩
  truncatefile file length := some ⟨file.bytes.take length, (file.bytes.take length).length⟩

theorem shortReads_correct : shortReads.Correct where
  read _ _ := rfl
  read_past hfile hpast hread := by
    cases hread
    unfold DirectoryEntry.Sound at hfile
    refine List.prefix_of_prefix_length_le List.prefix_rfl (List.take_prefix _ _) ?_
    rw [List.length_take, List.length_drop]
    omega
  write _ _ := ⟨_, rfl, rfl, rfl⟩
  truncate _ _ := ⟨_, rfl, rfl, rfl⟩

def openInput : FileCall := .open 0 0x4 fun _ => 0

end Vfs

end RetroRocket
