import RetroRocket.Ip
import RetroRocket.OnesComplement

/-!
# The checksums of IPv4 headers and ICMP messages

Both loops add words in 32 bits and fold the carry in once. The one for headers adds ten words, the
one for messages leaves out an odd last byte. The result is the checksum of RFC 1071 unless the fold
carries again, or words that were left out change the sum.
-/

namespace RetroRocket

open IpPacket OnesComplement

/-! ## The specification -/

/-- The 16-bit words of `len` bytes, the last odd one with a zero behind it. -/
def internetWords (p : Buffer) (len : ℕ) : List ℕ :=
  (List.range ((len + 1) / 2)).map fun i =>
    if 2 * i + 1 < len then be16 p (2 * i) else 2 ^ 8 * (p (2 * i)).toNat

/-- The checksum of `len` bytes. -/
def internetChecksum (p : Buffer) (len : ℕ) : ℕ := 65535 - endSum 65535 (internetWords p len)

/-- The packet with the 16-bit field at `off` zeroed. -/
def zeroField (off : ℕ) (p : Buffer) : Buffer := fun i => if i = off ∨ i = off + 1 then 0 else p i

/-- `htons` of a value, stored at `off`. -/
def storeField (off value : ℕ) (p : Buffer) : Buffer :=
  fun i => if i = off then BitVec.ofNat 8 (value / 2 ^ 8)
    else if i = off + 1 then BitVec.ofNat 8 value else p i

/-! ## The code -/

def icmpCalculateChecksum (p : Buffer) (len : ℕ) : ℕ :=
  let arraySize := len / 2
  let sum := u32 ((List.range arraySize).map fun i => be16 p (2 * i)).sum
  let carry := sum / 2 ^ 16
  let sum := sum % 2 ^ 16 + carry
  u16 (2 ^ 32 - 1 - sum)

/-- The test of `icmp_handle_packet`. -/
def icmpChecksumOk (p : Buffer) (len : ℕ) : Bool :=
  icmpCalculateChecksum (zeroField 2 p) len = be16 p 2

structure Ipv4Header where
  bytes : Buffer
  ihl_ge : 5 ≤ ihl (convert bytes)

def Ipv4Header.length (h : Ipv4Header) : ℕ := 4 * ihl (convert h.bytes)

structure IcmpMessage where
  bytes : Buffer
  length : ℕ
  length_ge : 4 ≤ length
  length_lt : length < 2 ^ 16

/-- What `calculate` and the test `accepts` do right on a packet: the value for the packet with its
field zeroed is the checksum, a packet that carries its checksum is accepted, and a packet that is
sent with the value in its field adds up to all ones. -/
structure ChecksumRight (off len : ℕ) (calculate : Buffer → ℕ) (accepts : Buffer → Bool)
    (p : Buffer) : Prop where
  value : calculate (zeroField off p) = internetChecksum (zeroField off p) len
  accepted : be16 p off = internetChecksum (zeroField off p) len → accepts p = true
  verifies : endSum 65535
    (internetWords (storeField off (calculate (zeroField off p)) p) len) = 65535

/-! ## Sums of words -/

theorem be16_le (p : Buffer) (off : ℕ) : be16 p off ≤ 65535 := by
  have hhigh := (p off).isLt
  have hlow := (p (off + 1)).isLt
  unfold be16
  omega

theorem internetWords_le (p : Buffer) (len : ℕ) {w : ℕ} (hw : w ∈ internetWords p len) :
    w ≤ 65535 := by
  obtain ⟨i, -, rfl⟩ := List.mem_map.mp hw
  split
  · exact be16_le p _
  · have hbyte := (p (2 * i)).isLt
    omega

/-- The words that are read by a loop over the first `n`. -/
def readSum (p : Buffer) (n : ℕ) : ℕ := ((List.range n).map fun i => be16 p (2 * i)).sum

/-- The words of `len` bytes behind the first `n`. -/
def restSum (p : Buffer) (n len : ℕ) : ℕ := ((internetWords p len).drop n).sum

theorem sum_internetWords {p : Buffer} {n len : ℕ} (hn : 2 * n ≤ len) :
    (internetWords p len).sum = readSum p n + restSum p n len := by
  have htake : (internetWords p len).take n = (List.range n).map fun i => be16 p (2 * i) := by
    unfold internetWords
    rw [← List.map_take, List.take_range, min_eq_left (by omega)]
    refine List.map_congr_left fun i hi => ?_
    rw [List.mem_range] at hi
    rw [if_pos (by omega)]
  rw [← List.take_append_drop n (internetWords p len), List.sum_append, htake]
  rfl

theorem readSum_le (p : Buffer) (n : ℕ) : readSum p n ≤ 65535 * n := by
  induction n with
  | zero => exact Nat.zero_le _
  | succ n ih =>
    have hword := be16_le p (2 * n)
    unfold readSum at ih ⊢
    rw [List.range_succ, List.map_append, List.sum_append, List.map_singleton, List.sum_singleton]
    omega

/-- Sums of two functions that agree except at `k`. -/
theorem sum_range_of_eq_except {f g : ℕ → ℕ} {k n : ℕ} (hk : k < n) (h : ∀ i, i ≠ k → f i = g i) :
    ((List.range n).map f).sum + g k = ((List.range n).map g).sum + f k := by
  induction n with
  | zero => omega
  | succ n ih =>
    rw [List.range_succ, List.map_append, List.sum_append, List.map_append, List.sum_append,
      List.map_singleton, List.map_singleton, List.sum_singleton, List.sum_singleton]
    rcases Nat.lt_succ_iff_lt_or_eq.mp hk with hlt | rfl
    · have hlast := h n (by omega)
      have hsum := ih hlt
      omega
    · have hlow : (List.range k).map f = (List.range k).map g := by
        refine List.map_congr_left fun i hi => h i ?_
        rw [List.mem_range] at hi
        omega
      rw [hlow]
      omega

theorem be16_storeField {off value : ℕ} (p : Buffer) (hv : value ≤ 65535) :
    be16 (storeField off value p) off = value := by
  unfold be16 storeField
  rw [if_pos rfl, if_neg (by omega), if_pos rfl, BitVec.toNat_ofNat, BitVec.toNat_ofNat]
  omega

theorem be16_zeroField (off : ℕ) (p : Buffer) : be16 (zeroField off p) off = 0 := by
  unfold be16 zeroField
  rw [if_pos (Or.inl rfl), if_pos (Or.inr rfl)]
  rfl

theorem sum_storeField {off value len : ℕ} (p : Buffer) (hoff : off % 2 = 0) (hlen : off + 2 ≤ len)
    (hv : value ≤ 65535) : (internetWords (storeField off value p) len).sum =
      (internetWords (zeroField off p) len).sum + value := by
  have hsame : ∀ i, i ≠ off → i ≠ off + 1 → storeField off value p i = zeroField off p i := by
    intro i hi hi'
    unfold storeField zeroField
    rw [if_neg hi, if_neg hi', if_neg (by omega)]
  have hsum := sum_range_of_eq_except (n := (len + 1) / 2) (k := off / 2) (by omega)
    (f := fun i => if 2 * i + 1 < len then be16 (storeField off value p) (2 * i)
      else 2 ^ 8 * (storeField off value p (2 * i)).toNat)
    (g := fun i => if 2 * i + 1 < len then be16 (zeroField off p) (2 * i)
      else 2 ^ 8 * (zeroField off p (2 * i)).toNat) (fun i hi => by
        unfold be16
        rw [hsame (2 * i) (by omega) (by omega), hsame (2 * i + 1) (by omega) (by omega)])
  have hhalf : 2 * (off / 2) = off := by omega
  rw [hhalf, if_pos (by omega), if_pos (by omega), be16_zeroField, be16_storeField p hv] at hsum
  exact hsum

/-! ## One fold -/

def FoldsRight (read rest : ℕ) : Prop :=
  (¬ CarriesTwice 65535 read ∧ rest % 65535 = 0) ∨
    (CarriesTwice 65535 read ∧ read % 2 ^ 16 + read / 2 ^ 16 ≠ 2 ^ 16 ∧ rest % 65535 = 65534)

theorem fold_complement {s : ℕ} (hs : s < 2 ^ 32) :
    u16 (2 ^ 32 - 1 - (s % 2 ^ 16 + s / 2 ^ 16)) = 65535 - foldOnce 65535 s := by
  unfold u16 foldOnce
  omega

/-- The value of a loop over `n` words is the checksum of all words exactly if its fold is right. -/
theorem fold_eq_checksum_iff {p : Buffer} {n len : ℕ} (hn : 2 * n ≤ len)
    (hlt : readSum p n < 2 ^ 32) (hpos : readSum p n = 0 → restSum p n len % 65535 = 0 →
      restSum p n len = 0) :
    65535 - foldOnce 65535 (readSum p n) = internetChecksum p len ↔
      FoldsRight (readSum p n) (restSum p n len) := by
  have hrep := represents_endSum (n := 65535) fun w => internetWords_le p len (w := w)
  rw [sum_internetWords hn] at hrep
  have hle : foldOnce 65535 (readSum p n) ≤ 65535 := by
    unfold foldOnce
    omega
  have hcompl : 65535 - foldOnce 65535 (readSum p n) = internetChecksum p len ↔
      foldOnce 65535 (readSum p n) = endSum 65535 (internetWords p len) := by
    have := hrep.le
    unfold internetChecksum
    omega
  rw [hcompl, foldOnce_eq_iff (by omega) hrep]
  unfold FoldsRight Nat.ModEq
  generalize readSum p n = s at *
  generalize restSum p n len = t at *
  split
  · next hcarry =>
    have hfold : foldOnce 65535 s ≠ 0 ↔ s % 2 ^ 16 + s / 2 ^ 16 ≠ 2 ^ 16 := by
      unfold CarriesTwice at hcarry
      unfold foldOnce
      omega
    rw [hfold]
    have hmod : (t + 1) % 65535 = 0 % 65535 ↔ t % 65535 = 65534 := by omega
    rw [hmod]
    tauto
  · next hcarry =>
    have hmod : t % 65535 = 0 % 65535 ↔ t % 65535 = 0 := by omega
    rw [hmod]
    tauto

theorem checksumRight_of_value {off len : ℕ} {calculate : Buffer → ℕ} {accepts : Buffer → Bool}
    {p : Buffer} (hoff : off % 2 = 0) (hlen : off + 2 ≤ len)
    (haccepts : accepts p = decide (be16 p off = calculate (zeroField off p)))
    (hvalue : calculate (zeroField off p) = internetChecksum (zeroField off p) len) :
    ChecksumRight off len calculate accepts p where
  value := hvalue
  accepted := by
    intro h
    rw [haccepts, decide_eq_true_iff, hvalue]
    exact h
  verifies := by
    have hword := represents_endSum (n := 65535) fun w =>
      internetWords_le (zeroField off p) len (w := w)
    have hfull := hword.complement (by decide)
    have hsent := represents_endSum (n := 65535) fun w =>
      internetWords_le (storeField off (calculate (zeroField off p)) p) len (w := w)
    rw [hvalue] at hsent ⊢
    have hle : internetChecksum (zeroField off p) len ≤ 65535 := Nat.sub_le _ _
    rw [sum_storeField p hoff hlen hle] at hsent
    exact hsent.eq hfull

/-! ## Headers -/

namespace Ipv4Header

variable (h : Ipv4Header)

theorem calculateChecksum_eq (p : Buffer) :
    calculateChecksum p = 65535 - foldOnce 65535 (readSum p 10) := by
  have hlt : readSum p 10 < 2 ^ 32 := (readSum_le p 10).trans_lt (by decide)
  exact fold_complement hlt

theorem readSum_pos : readSum (zeroField 10 h.bytes) 10 ≠ 0 := by
  have hbyte : (h.bytes 0).toNat ≠ 0 := by
    intro hzero
    have hihl := h.ihl_ge
    have hb : h.bytes 0 = 0 := BitVec.eq_of_toNat_eq hzero
    unfold ihl convert at hihl
    rw [if_pos rfl, hb] at hihl
    exact absurd hihl (by decide)
  have hword : be16 (zeroField 10 h.bytes) (2 * 0) ≠ 0 := by
    unfold be16
    have hsame : zeroField 10 h.bytes (2 * 0) = h.bytes 0 := rfl
    rw [hsame]
    omega
  intro hsum
  refine hword (List.sum_eq_zero_iff_forall_eq_nat.mp hsum _ (List.mem_map.mpr ⟨0, ?_, rfl⟩))
  exact List.mem_range.mpr (by decide)

theorem checksumRight_iff :
    ChecksumRight 10 h.length calculateChecksum checksumOk h.bytes ↔
      FoldsRight (readSum (zeroField 10 h.bytes) 10)
        (restSum (zeroField 10 h.bytes) 10 h.length) := by
  have hihl := h.ihl_ge
  have hlen : h.length = 4 * ihl (convert h.bytes) := rfl
  have hle := readSum_le (zeroField 10 h.bytes) 10
  have hten : 2 * 10 ≤ h.length := by omega
  have hiff := fold_eq_checksum_iff (p := zeroField 10 h.bytes) hten (by omega)
    (fun hzero => absurd hzero h.readSum_pos)
  rw [← calculateChecksum_eq] at hiff
  rw [← hiff]
  have heven : 10 % 2 = 0 := rfl
  exact ⟨fun hr => hr.value, checksumRight_of_value heven (by omega) rfl⟩

end Ipv4Header

/-! ## Messages -/

namespace IcmpMessage

variable (m : IcmpMessage)

theorem icmpCalculateChecksum_eq {p : Buffer} {len : ℕ} (hlen : len < 2 ^ 16) :
    icmpCalculateChecksum p len = 65535 - foldOnce 65535 (readSum p (len / 2)) := by
  have hle := readSum_le p (len / 2)
  have hlt : readSum p (len / 2) < 2 ^ 32 := by omega
  have hsum : u32 ((List.range (len / 2)).map fun i => be16 p (2 * i)).sum = readSum p (len / 2) :=
    u32_of_lt hlt
  unfold icmpCalculateChecksum
  dsimp only
  rw [hsum]
  exact fold_complement hlt

theorem restSum_eq (p : Buffer) (len : ℕ) :
    restSum p (len / 2) len = if len % 2 = 1 then 2 ^ 8 * (p (len - 1)).toNat else 0 := by
  have hcount : (len + 1) / 2 = len / 2 + len % 2 := by omega
  unfold restSum internetWords
  rw [hcount, ← List.map_drop]
  split
  · next hodd =>
    rw [hodd, List.range_succ, List.drop_append_of_le_length (by rw [List.length_range]),
      List.drop_of_length_le (by rw [List.length_range]), List.nil_append, List.map_singleton,
      List.sum_singleton, if_neg (by omega), show 2 * (len / 2) = len - 1 by omega]
  · next heven =>
    rw [show len % 2 = 0 by omega, Nat.add_zero,
      List.drop_of_length_le (by rw [List.length_range])]
    rfl

theorem foldsRight_iff : FoldsRight (readSum (zeroField 2 m.bytes) (m.length / 2))
      (restSum (zeroField 2 m.bytes) (m.length / 2) m.length) ↔
    ¬ CarriesTwice 65535 (readSum (zeroField 2 m.bytes) (m.length / 2)) ∧
      (m.length % 2 = 1 → m.bytes (m.length - 1) = 0) := by
  have hge := m.length_ge
  have hlast : (m.length % 2 = 1 → m.bytes (m.length - 1) = 0) ↔
      restSum (zeroField 2 m.bytes) (m.length / 2) m.length % 65535 = 0 := by
    rw [restSum_eq]
    split
    · next hodd =>
      have hbyte := (m.bytes (m.length - 1)).isLt
      have hsame : zeroField 2 m.bytes (m.length - 1) = m.bytes (m.length - 1) := by
        unfold zeroField
        rw [if_neg (by omega)]
      have hzero : (0 : Byte).toNat = 0 := rfl
      rw [hsame, BitVec.toNat_eq, hzero]
      omega
    · next heven => exact ⟨fun _ => rfl, fun _ hodd => absurd hodd heven⟩
  have hrest : restSum (zeroField 2 m.bytes) (m.length / 2) m.length % 65535 ≠ 65534 := by
    rw [restSum_eq]
    have hbyte := (zeroField 2 m.bytes (m.length - 1)).isLt
    split <;> omega
  rw [hlast]
  unfold FoldsRight
  constructor
  · rintro (h | ⟨-, -, h⟩)
    · exact h
    · exact absurd h hrest
  · exact Or.inl

theorem checksumRight_iff :
    ChecksumRight 2 m.length (fun p => icmpCalculateChecksum p m.length)
        (fun p => icmpChecksumOk p m.length) m.bytes ↔
      ¬ CarriesTwice 65535 (readSum (zeroField 2 m.bytes) (m.length / 2)) ∧
        (m.length % 2 = 1 → m.bytes (m.length - 1) = 0) := by
  have hge := m.length_ge
  have hlt := m.length_lt
  have hle := readSum_le (zeroField 2 m.bytes) (m.length / 2)
  have hhalf : 2 * (m.length / 2) ≤ m.length := by omega
  have hiff := fold_eq_checksum_iff (p := zeroField 2 m.bytes) hhalf (by omega) (fun _ hmod => by
      rw [restSum_eq] at hmod ⊢
      have hbyte := (zeroField 2 m.bytes (m.length - 1)).isLt
      split <;> simp only [*, if_true, if_false] at hmod <;> omega)
  rw [← icmpCalculateChecksum_eq hlt] at hiff
  rw [← m.foldsRight_iff, ← hiff]
  have heven : 2 % 2 = 0 := rfl
  refine ⟨fun hr => hr.value, fun hvalue => checksumRight_of_value heven hge ?_ hvalue⟩
  exact decide_eq_decide.mpr eq_comm

end IcmpMessage

/-- Headers: the words that are read fold right, the options taken into account. Messages: the fold
does not carry again, and an odd last byte is zero. -/
theorem checksums_right_iff (h : Ipv4Header) (m : IcmpMessage) :
    (ChecksumRight 10 h.length calculateChecksum checksumOk h.bytes ↔
      FoldsRight (readSum (zeroField 10 h.bytes) 10)
        (restSum (zeroField 10 h.bytes) 10 h.length)) ∧
    (ChecksumRight 2 m.length (fun p => icmpCalculateChecksum p m.length)
        (fun p => icmpChecksumOk p m.length) m.bytes ↔
      ¬ CarriesTwice 65535 (readSum (zeroField 2 m.bytes) (m.length / 2)) ∧
        (m.length % 2 = 1 → m.bytes (m.length - 1) = 0)) :=
  ⟨h.checksumRight_iff, m.checksumRight_iff⟩

/-- A header from 192.168.1.10 to 192.168.1.1 with its checksum, whose words add up to `2ffff`. -/
def twiceCarried : Ipv4Header where
  bytes := fun i => [0x45, 0x00, 0x00, 0x1c, 0xb7, 0x87, 0x40, 0x00, 0x40, 0x01, 0xff, 0xfd,
    0xc0, 0xa8, 0x01, 0x0a, 0xc0, 0xa8, 0x01, 0x01].getD i 0
  ihl_ge := by decide

def oddEcho : IcmpMessage where
  bytes := fun i => [0x08, 0x00, 0xf6, 0xff, 0x00, 0x00, 0x00, 0x00, 0x01].getD i 0
  length := 9
  length_ge := by decide
  length_lt := by decide

/-- The header carries its checksum and is dropped, and so is the message. -/
theorem valid_packets_dropped :
    be16 twiceCarried.bytes 10 =
        internetChecksum (zeroField 10 twiceCarried.bytes) twiceCarried.length ∧
      checksumOk twiceCarried.bytes = false ∧
    be16 oddEcho.bytes 2 = internetChecksum (zeroField 2 oddEcho.bytes) oddEcho.length ∧
      icmpChecksumOk oddEcho.bytes oddEcho.length = false := by
  decide

end RetroRocket
