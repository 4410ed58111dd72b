import Mathlib.Data.Nat.Bitwise
import Mathlib.Tactic.Common
import Mathlib.Tactic.Ring

/-!
# Sequence numbers

Sequence numbers are 32-bit words that are compared by the sign of their difference. `seqAt base n`
is the number of position `n` in a stream that starts at `base`. The comparisons agree with the
order of the positions as long as these are less than 2 ^ 31 apart.
-/

namespace RetroRocket

def seqLt (x y : BitVec 32) : Prop := (x - y).toInt < 0

def seqLte (x y : BitVec 32) : Prop := (x - y).toInt ≤ 0

def seqGt (x y : BitVec 32) : Prop := 0 < (x - y).toInt

def seqGte (x y : BitVec 32) : Prop := 0 ≤ (x - y).toInt

instance (x y : BitVec 32) : Decidable (seqLt x y) := inferInstanceAs (Decidable (_ < _))

instance (x y : BitVec 32) : Decidable (seqLte x y) := inferInstanceAs (Decidable (_ ≤ _))

instance (x y : BitVec 32) : Decidable (seqGt x y) := inferInstanceAs (Decidable (_ < _))

instance (x y : BitVec 32) : Decidable (seqGte x y) := inferInstanceAs (Decidable (_ ≤ _))

def seqAt (base : BitVec 32) (n : ℕ) : BitVec 32 := base + BitVec.ofNat 32 n

variable {base x y : BitVec 32} {m n : ℕ}

@[simp] theorem seqAt_zero (base : BitVec 32) : seqAt base 0 = base := BitVec.add_zero base

theorem seqAt_add (base : BitVec 32) (m n : ℕ) :
    seqAt base m + BitVec.ofNat 32 n = seqAt base (m + n) := by
  unfold seqAt
  rw [BitVec.add_assoc, ← BitVec.ofNat_add]

theorem toNat_seqAt (base : BitVec 32) (n : ℕ) :
    (seqAt base n).toNat = (base.toNat + n) % 2 ^ 32 := by
  unfold seqAt
  rw [BitVec.toNat_add, BitVec.toNat_ofNat, Nat.add_mod_mod]

theorem exists_seqAt (base x : BitVec 32) (m : ℕ) :
    x = seqAt base (m + (x - seqAt base m).toNat) := by
  rw [← seqAt_add, BitVec.ofNat_toNat, BitVec.setWidth_eq, BitVec.add_comm, BitVec.sub_add_cancel]

theorem toNat_sub_seqAt (base : BitVec 32) (m n : ℕ) :
    (seqAt base n - seqAt base m).toNat = (2 ^ 32 - (base.toNat + m) % 2 ^ 32 + (base.toNat + n)) %
      2 ^ 32 := by
  rw [BitVec.toNat_sub, toNat_seqAt, toNat_seqAt, Nat.add_mod_mod]

theorem sub_seqAt (base : BitVec 32) (h : m ≤ n) :
    seqAt base n - seqAt base m = BitVec.ofNat 32 (n - m) := by
  apply BitVec.eq_of_toNat_eq
  rw [toNat_sub_seqAt, BitVec.toNat_ofNat]
  omega

theorem seqAt_inj (hm : m < n + 2 ^ 32) (hn : n < m + 2 ^ 32) :
    seqAt base m = seqAt base n ↔ m = n := by
  constructor
  · intro h
    have hnat := congrArg BitVec.toNat h
    rw [toNat_seqAt, toNat_seqAt] at hnat
    omega
  · exact congrArg (seqAt base)

theorem toInt_sub_seqAt (hm : m < n + 2 ^ 31) (hn : n < m + 2 ^ 31) :
    (seqAt base m - seqAt base n).toInt = (m : ℤ) - n := by
  rw [BitVec.toInt_eq_toNat_cond, toNat_sub_seqAt]
  split <;> omega

theorem seqLt_seqAt (hm : m < n + 2 ^ 31) (hn : n < m + 2 ^ 31) :
    seqLt (seqAt base m) (seqAt base n) ↔ m < n := by
  unfold seqLt
  rw [toInt_sub_seqAt hm hn]
  omega

theorem seqLte_seqAt (hm : m < n + 2 ^ 31) (hn : n < m + 2 ^ 31) :
    seqLte (seqAt base m) (seqAt base n) ↔ m ≤ n := by
  unfold seqLte
  rw [toInt_sub_seqAt hm hn]
  omega

theorem seqGt_seqAt (hm : m < n + 2 ^ 31) (hn : n < m + 2 ^ 31) :
    seqGt (seqAt base m) (seqAt base n) ↔ n < m := by
  unfold seqGt
  rw [toInt_sub_seqAt hm hn]
  omega

theorem seqGte_seqAt (hm : m < n + 2 ^ 31) (hn : n < m + 2 ^ 31) :
    seqGte (seqAt base m) (seqAt base n) ↔ n ≤ m := by
  unfold seqGte
  rw [toInt_sub_seqAt hm hn]
  omega

/-! ## Offsets -/

def offset (base x : BitVec 32) : ℕ := (x - base).toNat

theorem seqAt_offset (base x : BitVec 32) : seqAt base (offset base x) = x := by
  have h := exists_seqAt base x 0
  rw [seqAt_zero, Nat.zero_add] at h
  exact h.symm

theorem offset_lt (base x : BitVec 32) : offset base x < 2 ^ 32 := BitVec.isLt _

@[simp] theorem offset_self (base : BitVec 32) : offset base base = 0 := by
  unfold offset
  rw [BitVec.sub_self]
  rfl

theorem offset_seqAt (h : n < 2 ^ 32) : offset base (seqAt base n) = n := by
  have hlt := offset_lt base (seqAt base n)
  exact (seqAt_inj (by omega) (by omega)).mp (seqAt_offset base (seqAt base n))

theorem offset_add (h : offset base x + n < 2 ^ 32) :
    offset base (x + BitVec.ofNat 32 n) = offset base x + n := by
  conv_lhs => rw [← seqAt_offset base x]
  rw [seqAt_add, offset_seqAt h]

theorem seqLte_iff_offset (hx : offset base x < 2 ^ 31) (hy : offset base y < 2 ^ 31) :
    seqLte x y ↔ offset base x ≤ offset base y := by
  conv_lhs => rw [← seqAt_offset base x, ← seqAt_offset base y]
  exact seqLte_seqAt (by omega) (by omega)

theorem seqGt_iff_offset (hx : offset base x < 2 ^ 31) (hy : offset base y < 2 ^ 31) :
    seqGt x y ↔ offset base y < offset base x := by
  conv_lhs => rw [← seqAt_offset base x, ← seqAt_offset base y]
  exact seqGt_seqAt (by omega) (by omega)

theorem seqGte_iff_offset (hx : offset base x < 2 ^ 31) (hy : offset base y < 2 ^ 31) :
    seqGte x y ↔ offset base y ≤ offset base x := by
  conv_lhs => rw [← seqAt_offset base x, ← seqAt_offset base y]
  exact seqGte_seqAt (by omega) (by omega)

/-- What lies behind `x` and not behind `y` is between them. -/
theorem offset_between {z : BitVec 32} (hxz : seqGt z x) (hzy : seqLte z y)
    (hxy : offset base x ≤ offset base y) (hy : offset base y < 2 ^ 31) :
    offset base x < offset base z ∧ offset base z ≤ offset base y := by
  -- the distance of `z` from `x` is that of positions, since it is positive as a signed number
  obtain ⟨d, hd⟩ : ∃ d, d = offset x z := ⟨_, rfl⟩
  have hz : z = seqAt base (offset base x + d) := by
    rw [hd, ← seqAt_add, seqAt_offset]
    exact (seqAt_offset x z).symm
  have hsmall : 0 < d ∧ d < 2 ^ 31 := by
    unfold seqGt at hxz
    rw [BitVec.toInt_eq_toNat_cond] at hxz
    have hlt := offset_lt x z
    unfold offset at hd hlt
    split at hxz <;> omega
  rw [hz, ← seqAt_offset base y, seqLte_seqAt (by omega) (by omega)] at hzy
  rw [hz, offset_seqAt (by omega)]
  omega

end RetroRocket
