import Mathlib.Data.Nat.Count
import Mathlib.Data.Nat.Bitwise
import Mathlib.Tactic.Common

/-!
# Bytes, words and bit sets

Machine integers are natural numbers, reduced explicitly where the C arithmetic can wrap; single
bytes and words whose bits matter are bit vectors. A buffer is the memory from some address on,
and its bits are numbered from the least significant bit of byte 0.
-/

namespace RetroRocket

abbrev Byte := BitVec 8

abbrev Buffer := ℕ → Byte

def u64 (n : ℕ) : ℕ := n % 2 ^ 64

def u32 (n : ℕ) : ℕ := n % 2 ^ 32

def u16 (n : ℕ) : ℕ := n % 2 ^ 16

def sub64 (a b : ℕ) : ℕ := u64 (a + 2 ^ 64 - b)

theorem u64_of_lt {n : ℕ} (h : n < 2 ^ 64) : u64 n = n := Nat.mod_eq_of_lt h

theorem u64_lt (n : ℕ) : u64 n < 2 ^ 64 := Nat.mod_lt _ (by decide)

theorem sub64_of_le {a b : ℕ} (hb : b ≤ a) (ha : a < 2 ^ 64) : sub64 a b = a - b := by
  unfold sub64 u64
  omega

theorem u32_of_lt {n : ℕ} (h : n < 2 ^ 32) : u32 n = n := Nat.mod_eq_of_lt h

theorem u16_of_lt {n : ℕ} (h : n < 2 ^ 16) : u16 n = n := Nat.mod_eq_of_lt h

/-! ## Counting -/

theorem count_congr {p q : ℕ → Prop} [DecidablePred p] [DecidablePred q] {n : ℕ}
    (h : ∀ k < n, (p k ↔ q k)) : Nat.count p n = Nat.count q n :=
  le_antisymm (Nat.count_mono_left fun k hk => (h k hk).mp)
    (Nat.count_mono_left fun k hk => (h k hk).mpr)

theorem count_compl (p : ℕ → Prop) [DecidablePred p] (n : ℕ) :
    Nat.count p n + Nat.count (fun k => ¬ p k) n = n := by
  induction n with
  | zero => simp
  | succ n ih =>
    rw [Nat.count_succ, Nat.count_succ]
    by_cases hp : p n <;> simp only [hp, if_true, if_false, not_true, not_false_eq_true] <;> omega

/-- A count over a window `[a, b)` of `n` positions, with the positions outside it constant. -/
theorem count_window {p q : ℕ → Prop} [DecidablePred p] [DecidablePred q] {a b n : ℕ}
    (hab : a ≤ b) (hbn : b ≤ n) (hout : ∀ k < n, ¬ (a ≤ k ∧ k < b) → (p k ↔ q k)) :
    Nat.count p n + Nat.count (fun k => q (a + k)) (b - a) =
      Nat.count q n + Nat.count (fun k => p (a + k)) (b - a) := by
  obtain ⟨m, rfl⟩ := Nat.exists_eq_add_of_le hab
  obtain ⟨r, rfl⟩ := Nat.exists_eq_add_of_le hbn
  have hlow : Nat.count p a = Nat.count q a :=
    count_congr fun k hk => hout k (by omega) (by omega)
  have hhigh : Nat.count (fun k => p (a + m + k)) r = Nat.count (fun k => q (a + m + k)) r :=
    count_congr fun k hk => hout (a + m + k) (by omega) (by omega)
  rw [Nat.count_add p (a + m) r, Nat.count_add q (a + m) r, Nat.count_add p a m,
    Nat.count_add q a m, hlow, hhigh, Nat.add_sub_cancel_left]
  omega

/-! ## Bits of a word -/

/-- `__builtin_popcount` and `__builtin_popcountll`. -/
def popcount {w : ℕ} (x : BitVec w) : ℕ := Nat.count (fun i => x.getLsbD i = true) w

theorem eq_zero_iff_getLsbD {w : ℕ} {x : BitVec w} : x = 0 ↔ ∀ i < w, x.getLsbD i = false := by
  constructor
  · rintro rfl i _
    simp
  · intro h
    apply BitVec.eq_of_getLsbD_eq
    intro i hi
    simp [h i hi]

theorem popcount_eq_zero {w : ℕ} {x : BitVec w} : popcount x = 0 ↔ x = 0 := by
  unfold popcount
  rw [Nat.count_iff_forall_not, eq_zero_iff_getLsbD]
  simp

/-- The test `(byte >> k) & 1`. -/
theorem shiftRight_and_one_eq_zero (b : Byte) (k : ℕ) :
    (b >>> k) &&& 1#8 = 0#8 ↔ b.getLsbD k = false := by
  constructor
  · intro h
    have h0 := congrArg (fun x => x.getLsbD 0) h
    simpa using h0
  · intro h
    apply BitVec.eq_of_getLsbD_eq
    intro i hi
    rcases Nat.eq_zero_or_pos i with rfl | hpos
    · simp [h]
    · simp only [BitVec.getLsbD_and, BitVec.getLsbD_one, BitVec.getLsbD_zero]
      have hne : i ≠ 0 := by omega
      simp [hne]

/-- The mask `((1 << span) - 1) << off` of a byte. -/
def byteMask (span off : ℕ) : Byte := BitVec.ofNat 8 (((1 <<< span) - 1) <<< off)

@[simp] theorem getLsbD_byteMask (span off i : ℕ) :
    (byteMask span off).getLsbD i = (decide (i < 8) && decide (off ≤ i ∧ i < off + span)) := by
  unfold byteMask
  rw [BitVec.getLsbD_ofNat, Nat.testBit_shiftLeft, Nat.one_shiftLeft, Nat.testBit_two_pow_sub_one]
  grind

theorem toNat_and_not_add {w : ℕ} (x mask : BitVec w) :
    (x &&& ~~~mask).toNat + (x &&& mask).toNat = x.toNat := by
  have hdisj : (x &&& ~~~mask) &&& (x &&& mask) = 0#w := by
    apply BitVec.eq_of_getLsbD_eq
    intro i hi
    simp only [BitVec.getLsbD_and, BitVec.getLsbD_not, BitVec.getLsbD_zero]
    cases x.getLsbD i <;> cases mask.getLsbD i <;> simp
  have hsplit : (x &&& ~~~mask) + (x &&& mask) = x := by
    rw [BitVec.add_eq_or_of_and_eq_zero _ _ hdisj]
    apply BitVec.eq_of_getLsbD_eq
    intro i hi
    simp only [BitVec.getLsbD_or, BitVec.getLsbD_and, BitVec.getLsbD_not, hi, decide_true]
    cases x.getLsbD i <;> cases mask.getLsbD i <;> rfl
  have hadd := BitVec.toNat_add_of_and_eq_zero hdisj
  rw [hsplit] at hadd
  exact hadd.symm

/-! ## Bits of a buffer -/

/-- Bit `i` of a buffer. -/
def bit (buf : Buffer) (i : ℕ) : Bool := (buf (i / 8)).getLsbD (i % 8)

theorem bit_byte (buf : Buffer) (j k : ℕ) (hk : k < 8) :
    bit buf (8 * j + k) = (buf j).getLsbD k := by
  unfold bit
  have h1 : (8 * j + k) / 8 = j := by omega
  have h2 : (8 * j + k) % 8 = k := by omega
  rw [h1, h2]

theorem byte_eq_zero_iff {buf : Buffer} {j : ℕ} :
    buf j = 0 ↔ ∀ i, i / 8 = j → bit buf i = false := by
  rw [eq_zero_iff_getLsbD]
  constructor
  · rintro h i rfl
    exact h (i % 8) (Nat.mod_lt _ (by decide))
  · intro h k hk
    rw [← bit_byte buf j k hk]
    exact h _ (by omega)

/-! ## Bit sets -/

def bitsetGet (bs : Buffer) (idx : ℕ) : Bool :=
  bs (idx >>> 3) &&& (1#8 <<< (idx &&& 7)) ≠ 0

def bitsetSet (bs : Buffer) (idx : ℕ) (val : Bool) : Buffer :=
  let byte := idx >>> 3
  let mask : Byte := 1#8 <<< (idx &&& 7)
  Function.update bs byte (if val then bs byte ||| mask else bs byte &&& ~~~mask)

theorem bitsetGet_eq_bit (bs : Buffer) (idx : ℕ) : bitsetGet bs idx = bit bs idx := by
  have hshift : idx >>> 3 = idx / 8 := by rw [Nat.shiftRight_eq_div_pow]
  have hand : idx &&& 7 = idx % 8 := Nat.and_two_pow_sub_one_eq_mod idx 3
  have hlt : idx % 8 < 8 := Nat.mod_lt _ (by decide)
  unfold bitsetGet bit
  rw [hshift, hand]
  rw [Bool.eq_iff_iff, decide_eq_true_iff, Ne, eq_zero_iff_getLsbD, not_forall]
  constructor
  · rintro ⟨i, hi⟩
    rw [Classical.not_imp] at hi
    obtain ⟨hi8, hbit⟩ := hi
    have hidx : i = idx % 8 := by grind
    subst hidx
    grind
  · intro h
    refine ⟨idx % 8, ?_⟩
    grind

@[simp] theorem bit_bitsetSet (bs : Buffer) (idx : ℕ) (val : Bool) (i : ℕ) :
    bit (bitsetSet bs idx val) i = if i = idx then val else bit bs i := by
  have hshift : idx >>> 3 = idx / 8 := by rw [Nat.shiftRight_eq_div_pow]
  have hand : idx &&& 7 = idx % 8 := Nat.and_two_pow_sub_one_eq_mod idx 3
  unfold bitsetSet bit
  simp only [hshift, hand]
  by_cases hbyte : i / 8 = idx / 8
  · rw [hbyte, Function.update_self]
    by_cases hi : i = idx
    · subst hi
      cases val <;> grind
    · have hmod : i % 8 ≠ idx % 8 := by omega
      cases val <;> grind
  · have hi : i ≠ idx := by
      rintro rfl
      exact hbyte rfl
    rw [Function.update_of_ne hbyte, if_neg hi]

@[simp] theorem bitsetGet_bitsetSet (bs : Buffer) (idx : ℕ) (val : Bool) (i : ℕ) :
    bitsetGet (bitsetSet bs idx val) i = if i = idx then val else bitsetGet bs i := by
  rw [bitsetGet_eq_bit, bit_bitsetSet, bitsetGet_eq_bit]

theorem foldl_any_all (p q : ℕ → Bool) (gs : List ℕ) (a b : Bool) :
    gs.foldl (fun acc g => (acc.1 || p g, acc.2 && q g))
      (a, b) = (a || gs.any p, b && gs.all q) := by
  induction gs generalizing a b with
  | nil => simp
  | cons g gs ih =>
    rw [List.foldl_cons, ih, List.any_cons, List.all_cons, Bool.or_assoc, Bool.and_assoc]

/-- The buffer whose bits are the values of `p`. -/
def packBits (p : ℕ → Bool) : Buffer := fun j =>
  (BitVec.ofBoolListLE ((List.range' (8 * j) 8).map p)).setWidth 8

@[simp] theorem bit_packBits (p : ℕ → Bool) (i : ℕ) : bit (packBits p) i = p i := by
  have hi : 8 * (i / 8) + i % 8 = i := Nat.div_add_mod i 8
  have hlt : i % 8 < 8 := Nat.mod_lt _ (by decide)
  unfold bit packBits
  rw [BitVec.getLsbD_setWidth, BitVec.getLsbD_ofBoolListLE, List.getD_eq_getElem _ _ (by simpa)]
  simp [hlt, hi]

@[simp] theorem bitsetGet_packBits (p : ℕ → Bool) (i : ℕ) : bitsetGet (packBits p) i = p i := by
  rw [bitsetGet_eq_bit, bit_packBits]

end RetroRocket
