import RetroRocket.Bits

/-!
# Numbers in memory

Numbers that lie in memory, or in a list of bytes, with the least significant byte first, and what
is read back after they were stored.
-/

namespace RetroRocket

variable {p q : ℕ → Byte} {a b k n : ℕ}

/-- The number in `n` bytes from `a` on, the least significant byte first. -/
def leValue (memory : ℕ → Byte) (a : ℕ) : ℕ → ℕ
  | 0 => 0
  | n + 1 => (memory a).toNat + 2 ^ 8 * leValue memory (a + 1) n

/-- A number stored in `n` bytes from `a` on. -/
def storeValue (memory : ℕ → Byte) (a n value : ℕ) : ℕ → Byte :=
  fun k => if a ≤ k ∧ k < a + n then BitVec.ofNat 8 (value / 2 ^ (8 * (k - a))) else memory k

def leNat (bytes : List Byte) : ℕ := leValue (fun i => bytes.getD i 0) 0 bytes.length

def leBytes (k n : ℕ) : List Byte := (List.range k).map fun i => BitVec.ofNat 8 (n / 2 ^ (8 * i))

theorem leValue_lt (memory : ℕ → Byte) (a n : ℕ) : leValue memory a n < 2 ^ (8 * n) := by
  induction n generalizing a with
  | zero => exact Nat.one_pos
  | succ n ih =>
    have hbyte := (memory a).isLt
    have hrest := ih (a + 1)
    have hpow :
      2 ^ (8 * (n + 1)) = 2 ^ 8 * 2 ^ (8 * n) := by rw [← pow_add, Nat.mul_succ, Nat.add_comm]
    rw [leValue, hpow]
    omega

theorem leValue_congr (h : ∀ i < n, p (a + i) = q (b + i)) : leValue p a n = leValue q b n := by
  induction n generalizing a b with
  | zero => rfl
  | succ n ih =>
    have hrest : leValue p (a + 1) n = leValue q (b + 1) n := by
      apply ih
      intro i hi
      rw [Nat.add_assoc, Nat.add_assoc, Nat.add_comm 1]
      exact h (i + 1) (Nat.succ_lt_succ hi)
    have hfirst : p a = q b := h 0 (Nat.succ_pos n)
    rw [leValue, leValue, hfirst, hrest]

theorem leValue_congr_of_mem (h : ∀ i, a ≤ i → i < a + n → p i = q i) :
    leValue p a n = leValue q a n :=
  leValue_congr fun i hi => h (a + i) (Nat.le_add_right a i) (Nat.add_lt_add_left hi a)

theorem leValue_eq_mod {memory : ℕ → Byte} {value : ℕ}
    (h : ∀ i < n, memory (a + i) = BitVec.ofNat 8 (value / 2 ^ (8 * i))) :
    leValue memory a n = value % 2 ^ (8 * n) := by
  induction n generalizing a value with
  | zero => exact (Nat.mod_one value).symm
  | succ n ih =>
    have hfirst := h 0 (Nat.succ_pos n)
    rw [Nat.add_zero, Nat.mul_zero, pow_zero, Nat.div_one] at hfirst
    have hrest : leValue memory (a + 1) n = value / 2 ^ 8 % 2 ^ (8 * n) := by
      apply ih
      intro i hi
      rw [Nat.add_assoc, Nat.add_comm 1, h (i + 1) (by omega), Nat.div_div_eq_div_mul, ← pow_add,
        Nat.mul_succ, Nat.add_comm (8 * i)]
    rw [leValue, hfirst, hrest, BitVec.toNat_ofNat, Nat.mul_succ, Nat.add_comm (8 * n), pow_add,
      Nat.mod_mul]

theorem leValue_storeValue {value : ℕ}
    (h : ∀ b, a ≤ b → b < a + n → q b = storeValue p a n value b) :
    leValue q a n = value % 2 ^ (8 * n) := by
  apply leValue_eq_mod
  intro i hi
  rw [h (a + i) (by omega) (by omega), storeValue, if_pos (by omega), Nat.add_sub_cancel_left]

theorem storeValue_of_ne {value : ℕ} (h : k < a ∨ a + n ≤ k) : storeValue p a n value k = p k := by
  unfold storeValue
  rw [if_neg (by omega)]

/-! ## Lists of bytes -/

theorem leNat_lt (bytes : List Byte) : leNat bytes < 2 ^ (8 * bytes.length) := leValue_lt _ _ _

@[simp] theorem length_leBytes (k n : ℕ) : (leBytes k n).length = k := by simp [leBytes]

theorem leNat_leBytes (h : n < 2 ^ (8 * k)) : leNat (leBytes k n) = n := by
  have hbytes : ∀ i < (leBytes k n).length,
      (leBytes k n).getD (0 + i) 0 = BitVec.ofNat 8 (n / 2 ^ (8 * i)) := by
    intro i hi
    rw [Nat.zero_add, List.getD_eq_getElem _ _ hi]
    simp [leBytes]
  rw [leNat, leValue_eq_mod hbytes, length_leBytes, Nat.mod_eq_of_lt h]

end RetroRocket
