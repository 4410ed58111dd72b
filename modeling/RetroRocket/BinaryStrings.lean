import RetroRocket.BasicMemory
import RetroRocket.StringHeap

/-!
# Buffers as strings

`basic_buffer_to_string` and `basic_string_to_buffer` of `string.c`. A string ends at its first NUL,
so a NUL of a buffer is escaped by two bytes, and so is the escape byte. What is read from the
string is then the buffer.
-/

namespace RetroRocket

open BasicMemory (hex16)

/-- `STRING_ESCAPE_BYTE`. -/
def escapeByte : Byte := 0xFF

/-- `STRING_ESCAPED_NUL`. -/
def escapedNul : Byte := 0x01

/-- `STRING_ESCAPED_ESC`. -/
def escapedEsc : Byte := 0x02

/-- What `address_valid_read`, `address_valid_write` and `memory_grants_contains` return, and
whether the program needs a grant. -/
structure AddressChecks where
  validRead : ℕ → ℕ → Bool
  validWrite : ℕ → ℕ → Bool
  restricted : Bool
  granted : ℕ → ℕ → Bool

/-- The memory of a program with its string area, from `storage` on. The literal `""` is at
`literal`. -/
structure BufferCtx where
  mem : Buffer
  storage : ℕ
  size : ℕ
  next : ℕ
  literal : ℕ
  error : Option String

namespace BufferCtx

def fail (s : BufferCtx) (message : String) : BufferCtx := { s with error := some message }

def strlcpy (mem : Buffer) (dst : ℕ) (src : List Byte) (siz : ℕ) : Buffer :=
  if siz = 0 then mem else writeBytes dst (src.take (siz - 1) ++ [0]) mem

def gcStrdup (s : BufferCtx) (string : List Byte) : ℕ × BufferCtx :=
  if string = [] then (s.storage, s)
  else
    let remaining := s.storage + s.size - s.next
    let copied := { s with mem := strlcpy s.mem s.next string remaining }
    if remaining ≤ string.length then
      (s.storage, copied.fail ("Out of string area allocator space storing '" ++
        String.ofList (string.map fun c => Char.ofNat c.toNat) ++ "'"))
    else (s.next, { copied with next := s.next + string.length + 1 })

end BufferCtx

def outSize (src : ℕ → Byte) (length : ℕ) : ℕ :=
  (List.range length).foldl
    (fun outLen i => if src i = 0 ∨ src i = escapeByte then outLen + 2 else outLen + 1) 0

/-- `out[j++] = c`, where `out` has `cap` bytes. -/
def appendByte (cap : ℕ) (out : List Byte) (c : Byte) : Option (List Byte) :=
  if out.length < cap then some (out ++ [c]) else none

def escapeLoop (cap : ℕ) (src : ℕ → Byte) (length : ℕ) : Option (List Byte) :=
  (List.range length).foldlM
    (fun out i =>
      if src i = 0 then do appendByte cap (← appendByte cap out escapeByte) escapedNul
      else if src i = escapeByte then do appendByte cap (← appendByte cap out escapeByte) escapedEsc
      else appendByte cap out (src i)) []

/-- `basic_buffer_to_string`, with `out_len`. `memory` says whether `buddy_malloc` succeeds. -/
def bufferToString (k : AddressChecks) (address : ℕ) (length : ℤ) (memory : Bool) (s : BufferCtx) :
    Option (ℕ × ℕ × BufferCtx) :=
  if length < 0 then some (s.literal, 0, s.fail "Invalid buffer length")
  else if 0 < length ∧ k.validRead address length.toNat = false then
    some (s.literal, 0, s.fail ("Invalid address: " ++ hex16 address))
  else if k.restricted ∧ k.granted address length.toNat = false then
    some (s.literal, 0, s.fail ("Bad address &" ++ hex16 address))
  else if address = 0 ∨ length = 0 then
    let (ret, s) := s.gcStrdup []
    some (ret, 0, s)
  else
    let src := fun i => s.mem (address + i)
    let outLen := outSize src length.toNat
    if memory = false then some (s.literal, outLen, s.fail "Error allocating string buffer")
    else do
      let out ← escapeLoop (outLen + 1) src length.toNat
      let string ← appendByte (outLen + 1) out 0
      let (ret, s) := s.gcStrdup (string.takeWhile (· ≠ 0))
      some (ret, out.length, s)

/-- The loop of `basic_string_to_buffer`, for as many bytes as there is still room for. -/
def unescapeInto (dst : ℕ) : ℕ → Buffer → ℕ → ℕ → Buffer × ℕ
  | 0, mem, _, written => (mem, written)
  | room + 1, mem, src, written =>
    if mem src = 0 then (mem, written)
    else if mem src = escapeByte ∧ mem (src + 1) ≠ 0 then
      let c :=
        if mem (src + 1) = escapedNul then 0
        else if mem (src + 1) = escapedEsc then escapeByte
        else mem (src + 1)
      unescapeInto dst room (Function.update mem (dst + written) c) (src + 2) (written + 1)
    else
      unescapeInto dst room (Function.update mem (dst + written) (mem src)) (src + 1) (written + 1)

/-- `basic_string_to_buffer`. -/
def stringToBuffer (k : AddressChecks) (input address : ℕ) (max : ℤ) (s : BufferCtx) :
    ℤ × BufferCtx :=
  if max < 0 then (0, s.fail "Invalid buffer length")
  else if 0 < max ∧ k.validWrite address max.toNat = false then
    (0, s.fail ("Invalid address: " ++ hex16 address))
  else if max ≠ 0 ∧ k.restricted ∧ k.granted address max.toNat = false then
    (0, s.fail ("Bad address &" ++ hex16 address))
  else if input = 0 ∨ address = 0 ∨ max = 0 then (0, s)
  else
    let (mem, written) := unescapeInto address max.toNat s.mem input 0
    (written, { s with mem := mem })

/-! ## The escape codes -/

variable {k : AddressChecks} {s : BufferCtx} {mem : Buffer} {src dst written room cap n : ℕ}
  {bytes out : List Byte}

def escapedText (bytes : List Byte) : List Byte :=
  bytes.flatMap fun c =>
    if c = 0 then [escapeByte, escapedNul]
    else if c = escapeByte then [escapeByte, escapedEsc]
    else [c]

theorem escapedText_cons (c : Byte) (bytes : List Byte) : escapedText (c :: bytes) =
    (if c = 0 then [escapeByte, escapedNul]
      else if c = escapeByte then [escapeByte, escapedEsc] else [c]) ++ escapedText bytes :=
  List.flatMap_cons

theorem escapedText_append (bytes more : List Byte) :
    escapedText (bytes ++ more) = escapedText bytes ++ escapedText more :=
  List.flatMap_append

theorem escapedText_ended (bytes : List Byte) : 0 ∉ escapedText bytes := by
  intro h
  obtain ⟨c, -, hc⟩ := List.mem_flatMap.mp h
  split at hc
  · revert hc
    decide
  · next hne =>
    split at hc
    · revert hc
      decide
    · exact hne (List.mem_singleton.mp hc).symm

def bufferBytes (src : ℕ → Byte) (n : ℕ) : List Byte := (List.range n).map src

theorem bufferBytes_succ (src : ℕ → Byte) (n : ℕ) :
    bufferBytes src (n + 1) = bufferBytes src n ++ [src n] := by
  rw [bufferBytes, List.range_succ, List.map_append, List.map_singleton]
  rfl

theorem length_bufferBytes (src : ℕ → Byte) (n : ℕ) : (bufferBytes src n).length = n := by
  rw [bufferBytes, List.length_map, List.length_range]

theorem escapedText_bufferBytes_succ (src : ℕ → Byte) (n : ℕ) :
    escapedText (bufferBytes src (n + 1)) =
    escapedText (bufferBytes src n) ++ if src n = 0 then [escapeByte, escapedNul]
      else if src n = escapeByte then [escapeByte, escapedEsc] else [src n] := by
  rw [bufferBytes_succ, escapedText_append, escapedText_cons]
  exact congrArg (_ ++ ·) (List.append_nil _)

theorem getElem_bufferBytes {src : ℕ → Byte} {i : ℕ} (h : i < (bufferBytes src n).length) :
    (bufferBytes src n)[i] = src i := by
  simp only [bufferBytes, List.getElem_map, List.getElem_range]

theorem escapedText_ne_nil (src : ℕ → Byte) (n : ℕ) :
    escapedText (bufferBytes src (n + 1)) ≠ [] := by
  rw [escapedText_bufferBytes_succ]
  intro hnil
  have hlast := (List.append_eq_nil_iff.mp hnil).2
  split at hlast
  · cases hlast
  · split at hlast
    · cases hlast
    · cases hlast

/-! ## Buffer to string -/

theorem outSize_eq (src : ℕ → Byte) (n : ℕ) :
    outSize src n = (escapedText (bufferBytes src n)).length := by
  induction n with
  | zero => rfl
  | succ n ih =>
    rw [outSize, List.range_succ, List.foldl_append, escapedText_bufferBytes_succ,
      List.length_append, ← ih]
    change (if src n = 0 ∨ src n = escapeByte then outSize src n + 2 else outSize src n + 1) = _
    by_cases hzero : src n = 0
    · rw [if_pos (Or.inl hzero), if_pos hzero]
      rfl
    · rw [if_neg hzero]
      by_cases hesc : src n = escapeByte
      · rw [if_pos (Or.inr hesc), if_pos hesc]
        rfl
      · rw [if_neg (not_or.mpr ⟨hzero, hesc⟩), if_neg hesc]
        rfl

theorem appendByte_eq (h : out.length < cap) (c : Byte) :
    appendByte cap out c = some (out ++ [c]) :=
  if_pos h

theorem escapeLoop_eq {src : ℕ → Byte} (h : (escapedText (bufferBytes src n)).length ≤ cap) :
    escapeLoop cap src n = some (escapedText (bufferBytes src n)) := by
  induction n with
  | zero => rfl
  | succ n ih =>
    rw [escapedText_bufferBytes_succ] at h ⊢
    rw [List.length_append] at h
    rw [escapeLoop, List.range_succ, List.foldlM_append]
    change (escapeLoop cap src n).bind _ = _
    rw [ih (by omega), Option.bind_some, List.foldlM_cons]
    split
    · next hzero =>
      rw [if_pos hzero] at h
      have hlen : [escapeByte, escapedNul].length = 2 := rfl
      rw [appendByte_eq (by omega), Option.bind_eq_bind, Option.bind_some,
        appendByte_eq (by rw [List.length_append, List.length_singleton]; omega), List.append_assoc]
      rfl
    · next hzero =>
      rw [if_neg hzero] at h
      split
      · next hesc =>
        rw [if_pos hesc] at h
        have hlen : [escapeByte, escapedEsc].length = 2 := rfl
        rw [appendByte_eq (by omega), Option.bind_eq_bind, Option.bind_some,
          appendByte_eq
            (by rw [List.length_append, List.length_singleton]; omega), List.append_assoc]
        rfl
      · next hesc =>
        rw [if_neg hesc, List.length_singleton] at h
        rw [appendByte_eq (by omega)]
        rfl

/-! ## String to buffer -/

theorem HoldsBytes.getElem (h : HoldsBytes mem src out) {i : ℕ} (hi : i < out.length) :
    mem (src + i) = out[i] := by
  induction out generalizing src i with
  | nil => exact absurd hi (Nat.not_lt_zero i)
  | cons c cs ih =>
    cases i with
    | zero => exact h.1
    | succ i =>
      have hrest := ih h.2 (Nat.lt_of_succ_lt_succ hi)
      rw [Nat.add_right_comm] at hrest
      exact hrest

theorem unescapeInto_bound (dst room : ℕ) (mem : Buffer) (src written : ℕ) :
    (unescapeInto dst room mem src written).2 ≤ written + room ∧
      ∀ i, i < dst + written ∨ dst + written + room ≤ i →
        (unescapeInto dst room mem src written).1 i = mem i := by
  induction room generalizing mem src written with
  | zero => exact ⟨Nat.le_refl _, fun _ _ => rfl⟩
  | succ room ih =>
    have hstep : ∀ (c : Byte) (src' : ℕ),
        (unescapeInto dst room (Function.update mem (dst + written) c) src' (written + 1)).2 ≤
            written + (room + 1) ∧
          ∀ i, i < dst + written ∨ dst + written + (room + 1) ≤ i →
            (unescapeInto dst room (Function.update mem (dst + written) c) src' (written + 1)).1 i =
              mem i := by
      intro c src'
      obtain ⟨hle, hsame⟩ := ih (Function.update mem (dst + written) c) src' (written + 1)
      refine ⟨by omega, fun i hi => ?_⟩
      rw [hsame i (by omega)]
      exact Function.update_of_ne (by omega) _ _
    rw [unescapeInto]
    split
    · exact ⟨Nat.le_add_right _ _, fun _ _ => rfl⟩
    · split
      · exact hstep _ _
      · exact hstep _ _

/-- What is read from the string of some bytes is these bytes. They are never written ahead of what
is read. -/
theorem unescapeInto_escapedText (hmem : HoldsBytes mem src (escapedText bytes ++ [0]))
    (hroom : bytes.length ≤ room)
    (hapart : src + (escapedText bytes).length < dst + written ∨ dst + written ≤ src) :
    unescapeInto dst room mem src written =
      (writeBytes (dst + written) bytes mem, written + bytes.length) := by
  induction bytes generalizing room mem src written with
  | nil =>
    cases room with
    | zero => rfl
    | succ room =>
      rw [unescapeInto, if_pos hmem.1]
      rfl
  | cons c bytes ih =>
    cases room with
    | zero => exact absurd hroom (Nat.not_succ_le_zero _)
    | succ room =>
      rw [List.length_cons] at hroom ⊢
      have hnext : ∀ src', HoldsBytes mem src' (escapedText bytes ++ [0]) →
          src' + (escapedText bytes).length < dst + written ∨ dst + written + 1 ≤ src' →
          unescapeInto dst room (Function.update mem (dst + written) c) src' (written + 1) =
            (writeBytes (dst + written) (c :: bytes) mem, written + (bytes.length + 1)) := by
        intro src' hheld hplace
        have hkept :
            HoldsBytes (Function.update mem (dst + written) c) src' (escapedText bytes ++ [0]) := by
          apply hheld.congr
          intro i hlow hhigh
          rw [List.length_append, List.length_singleton] at hhigh
          exact Function.update_of_ne (by omega) _ _
        rw [ih hkept (by omega) (by omega), writeBytes, Nat.add_right_comm written 1]
        rfl
      rw [escapedText_cons] at hmem hapart
      rw [unescapeInto]
      by_cases hzero : c = 0
      · subst hzero
        rw [if_pos rfl] at hmem hapart
        obtain ⟨hesc, hcode, hrest⟩ := hmem
        rw [hesc, hcode, if_neg (by decide), if_pos (by decide)]
        exact hnext _ hrest (by simp only [List.length_append, List.length_cons] at hapart; omega)
      · rw [if_neg hzero] at hmem hapart
        by_cases hescape : c = escapeByte
        · subst hescape
          rw [if_pos rfl] at hmem hapart
          obtain ⟨hesc, hcode, hrest⟩ := hmem
          rw [hesc, hcode, if_neg (by decide), if_pos (by decide)]
          exact hnext _ hrest (by simp only [List.length_append, List.length_cons] at hapart; omega)
        · rw [if_neg hescape] at hmem hapart
          obtain ⟨hbyte, hrest⟩ := hmem
          rw [hbyte, if_neg hzero, if_neg fun h => hescape h.1]
          exact hnext _ hrest (by simp only [List.length_append, List.length_cons] at hapart; omega)

/-! ## Both -/

/-- The program may read the buffer and write to the target, the string area, which starts with a
NUL, has room for the string, and the target has room for the bytes and does not start inside of the
string. -/
structure EnoughSpace (k : AddressChecks) (s : BufferCtx) (address target n : ℕ) (max : ℤ) :
    Prop where
  read : n ≠ 0 → address ≠ 0 ∧ k.validRead address n = true
  readGranted : k.restricted = true → k.granted address n = true
  write : max ≠ 0 → target ≠ 0 ∧ k.validWrite target max.toNat = true
  writeGranted : max ≠ 0 → k.restricted = true → k.granted target max.toNat = true
  area : s.storage ≠ 0 ∧ s.mem s.storage = 0 ∧ s.storage < s.next
  room : s.next + (escapedText (bufferBytes (fun i => s.mem (address + i)) n)).length <
    s.storage + s.size
  bytes : (n : ℤ) ≤ max
  apart : s.next + (escapedText (bufferBytes (fun i => s.mem (address + i)) n)).length < target ∨
    target ≤ s.next

def RoundTripsBytes (k : AddressChecks) (s : BufferCtx) (address target n : ℕ) (max : ℤ) : Prop :=
  ∃ (p : ℕ) (t : CString) (u v : BufferCtx),
    bufferToString k address n true s = some (p, t.length, u) ∧
    HoldsString u.mem p t ∧ stringToBuffer k p target max u = ((n : ℤ), v) ∧
    (∀ i < n, v.mem (target + i) = s.mem (address + i)) ∧
    ∀ i, i < target ∨ target + n ≤ i → v.mem i = u.mem i

/-- No more than `max` bytes are written, from the address on. -/
def WritesAtMost (k : AddressChecks) (s : BufferCtx) (input address : ℕ) (max : ℤ) : Prop :=
  (stringToBuffer k input address max s).1.toNat ≤ max.toNat ∧
    ∀ i, i < address ∨ address + max.toNat ≤ i →
      (stringToBuffer k input address max s).2.mem i = s.mem i

theorem stringToBuffer_bound (k : AddressChecks) (s : BufferCtx) (input address : ℕ) (max : ℤ) :
    WritesAtMost k s input address max := by
  have hnothing : ∀ e : BufferCtx, e.mem = s.mem →
      (((0 : ℤ), e).1.toNat ≤ max.toNat ∧ ∀ i, i < address ∨ address + max.toNat ≤ i →
        ((0 : ℤ), e).2.mem i = s.mem i) :=
    fun e he => ⟨Nat.zero_le _, fun i _ => congrFun he i⟩
  rw [WritesAtMost, stringToBuffer]
  split
  · exact hnothing _ rfl
  · split
    · exact hnothing _ rfl
    · split
      · exact hnothing _ rfl
      · split
        · exact hnothing _ rfl
        · obtain ⟨hle, hsame⟩ := unescapeInto_bound address max.toNat s.mem input 0
          refine ⟨?_, fun i hi => hsame i (by omega)⟩
          dsimp only
          rw [Int.toNat_natCast]
          omega

/-- The string of a buffer, as `gc_strdup` leaves it in the string area. -/
theorem bufferToString_eq {address target : ℕ} {max : ℤ}
    (h : EnoughSpace k s address target n max) :
    ∃ (p : ℕ) (u : BufferCtx),
      bufferToString k address n true s =
        some (p, (escapedText (bufferBytes (fun i => s.mem (address + i)) n)).length, u) ∧
      HoldsBytes u.mem p (escapedText (bufferBytes (fun i => s.mem (address + i)) n) ++ [0]) ∧
      p ≠ 0 ∧ (n = 0 ∨ p = s.next) := by
  have hread : ¬ (0 < (n : ℤ) ∧ k.validRead address (n : ℤ).toNat = false) := by
    rintro ⟨hpos, hno⟩
    rw [Int.toNat_natCast, (h.read (by omega)).2] at hno
    cases hno
  have hgranted : ¬ (k.restricted = true ∧ k.granted address (n : ℤ).toNat = false) := by
    rintro ⟨hrestricted, hno⟩
    rw [Int.toNat_natCast, h.readGranted hrestricted] at hno
    cases hno
  obtain ⟨hstorage, hnul, hnext⟩ := h.area
  have hroom := h.room
  rw [bufferToString, if_neg (by omega), if_neg hread, if_neg hgranted]
  cases n with
  | zero =>
    rw [if_pos (Or.inr Int.natCast_zero)]
    exact ⟨s.storage, s, rfl, ⟨hnul, trivial⟩, hstorage, Or.inl rfl⟩
  | succ n =>
    have haddress := (h.read (Nat.succ_ne_zero n)).1
    rw [if_neg (by omega)]
    dsimp only
    generalize hsrc : (fun i => s.mem (address + i)) = src at hroom ⊢
    rw [Int.toNat_natCast, if_neg (by decide), outSize_eq, escapeLoop_eq (Nat.le_succ _)]
    rw [Option.bind_eq_bind, Option.bind_some, appendByte_eq (Nat.lt_succ_self _), Option.bind_some]
    have htake : (escapedText (bufferBytes src (n + 1)) ++ [0]).takeWhile (· ≠ 0) =
        escapedText (bufferBytes src (n + 1)) := by
      rw [List.takeWhile_append_of_pos]
      · exact List.append_nil _
      · intro c hc
        rw [decide_eq_true_iff]
        rintro rfl
        exact escapedText_ended _ hc
    have hne := escapedText_ne_nil src n
    rw [htake]
    generalize escapedText (bufferBytes src (n + 1)) = text at hroom hne ⊢
    rw [BufferCtx.gcStrdup, if_neg hne]
    dsimp only
    rw [if_neg (by omega)]
    have hcopied : BufferCtx.strlcpy s.mem s.next text (s.storage + s.size - s.next) =
        writeBytes s.next (text ++ [0]) s.mem := by
      rw [BufferCtx.strlcpy, if_neg (by omega), List.take_of_length_le (by omega)]
    rw [hcopied]
    exact ⟨s.next, _, rfl, holdsBytes_writeBytes _ _ _, by omega, Or.inr rfl⟩

/-- Every buffer comes back from its string, and a string never fills more than its buffer. -/
theorem buffers_roundTrip {address target : ℕ} {max : ℤ}
    (h : EnoughSpace k s address target n max) :
    RoundTripsBytes k s address target n max ∧
      ∀ (k : AddressChecks) (s : BufferCtx) (input address : ℕ) (max : ℤ),
        WritesAtMost k s input address max := by
  constructor
  case right => exact stringToBuffer_bound
  obtain ⟨p, u, hrun, hheld, hp, hplace⟩ := bufferToString_eq h
  have hbytes := h.bytes
  have hlength := length_bufferBytes (fun i => s.mem (address + i)) n
  by_cases hmax : max = 0
  · obtain rfl : n = 0 := by omega
    refine ⟨p, ⟨_, escapedText_ended (bufferBytes (fun i => s.mem (address + i)) 0)⟩, u, u,
      hrun, hheld, ?_, fun i hi => absurd hi (Nat.not_lt_zero i), fun _ _ => rfl⟩
    subst hmax
    rw [stringToBuffer, if_neg (by decide), if_neg fun h => absurd h.1 (by decide),
      if_neg fun h => h.1 rfl, if_pos (Or.inr (Or.inr rfl))]
    rfl
  · obtain ⟨htarget, hvalid⟩ := h.write hmax
    have hwrite : ¬ (0 < max ∧ k.validWrite target max.toNat = false) := by
      rw [hvalid]
      exact fun h => Bool.noConfusion h.2
    have hgranted : ¬ (max ≠ 0 ∧ k.restricted = true ∧ k.granted target max.toNat = false) := by
      rintro ⟨-, hrestricted, hno⟩
      rw [h.writeGranted hmax hrestricted] at hno
      cases hno
    have hapart : p + (escapedText (bufferBytes (fun i => s.mem (address + i)) n)).length < target ∨
        target ≤ p := by
      cases hplace with
      | inl hzero =>
        subst hzero
        exact Nat.lt_or_ge p target
      | inr hnext => exact hnext ▸ h.apart
    have hroom : (bufferBytes (fun i => s.mem (address + i)) n).length ≤ max.toNat := by omega
    have hloop : unescapeInto target max.toNat u.mem p 0 = _ :=
      unescapeInto_escapedText hheld hroom hapart
    rw [Nat.add_zero, Nat.zero_add, hlength] at hloop
    have hwritten :=
      holdsBytes_writeBytes u.mem target (bufferBytes (fun i => s.mem (address + i)) n)
    refine ⟨p, ⟨_, escapedText_ended (bufferBytes (fun i => s.mem (address + i)) n)⟩, u,
      { u with mem := writeBytes target (bufferBytes (fun i => s.mem (address + i)) n) u.mem },
      hrun, hheld, ?_, fun i hi => ?_, fun i hi => ?_⟩
    · rw [stringToBuffer,
        if_neg (by omega), if_neg hwrite, if_neg hgranted, if_neg (by omega), hloop]
    · have hget := hwritten.getElem (hlength.symm ▸ hi)
      rw [getElem_bufferBytes] at hget
      exact hget
    · exact writeBytes_of_outside (by omega)

/-- An escape byte and a NUL come back from the string area, in place. -/
theorem buffers_roundTrip_escapes :
    ∃ (k : AddressChecks) (s : BufferCtx) (max : ℤ), s.mem 1 = escapeByte ∧ s.mem 2 = 0 ∧
      EnoughSpace k s 1 17 2 max ∧ RoundTripsBytes k s 1 17 2 max := by
  have hspace : EnoughSpace ⟨fun _ _ => true, fun _ _ => true, false, fun _ _ => false⟩
      ⟨fun i => if i = 1 then escapeByte else 0, 16, 16, 17, 0, none⟩ 1 17 2 3 := by
    constructor
    case read => exact fun _ => ⟨by decide, rfl⟩
    case readGranted => exact fun h => Bool.noConfusion h
    case write => exact fun _ => ⟨by decide, rfl⟩
    case writeGranted => exact fun _ h => Bool.noConfusion h
    case area => decide
    case room => decide
    case bytes => decide
    case apart => exact Or.inr (Nat.le_refl 17)
  exact ⟨_, _, _, rfl, rfl, hspace, (buffers_roundTrip hspace).1⟩

end RetroRocket
