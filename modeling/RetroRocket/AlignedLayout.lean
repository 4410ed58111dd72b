import Mathlib.Algebra.Order.Group.Nat
import RetroRocket.Bits

/-!
# Blocks laid out one after the other

Blocks of sizes `s`, each from the next multiple of its alignment `a` on, with and without the end
being cut to 64 bits. Blocks that are disjoint and inside of the whole have not been laid out by
sums that wrap.
-/

namespace RetroRocket

/-- The next multiple of `a` from `v` on. -/
def alignNext (v a : ℕ) : ℕ := v + (a - v % a) % a

section Align

variable {v a q : ℕ}

theorem le_alignNext (v a : ℕ) : v ≤ alignNext v a := Nat.le_add_right _ _

theorem alignNext_lt (v : ℕ) (ha : 0 < a) : alignNext v a < v + a :=
  Nat.add_lt_add_left (Nat.mod_lt _ ha) v

theorem dvd_alignNext (v : ℕ) (ha : 0 < a) : a ∣ alignNext v a := by
  have hrest := Nat.mod_lt v ha
  apply Nat.dvd_of_mod_eq_zero
  unfold alignNext
  rw [Nat.add_mod, Nat.mod_mod, ← Nat.add_mod]
  by_cases hzero : v % a = 0
  · rw [hzero, Nat.sub_zero, Nat.add_mod_right, hzero]
  · rw [← Nat.mod_add_mod, Nat.add_sub_of_le hrest.le, Nat.mod_self]

theorem alignNext_le (ha : 0 < a) (hv : v ≤ q) (hq : a ∣ q) : alignNext v a ≤ q := by
  by_contra hlt
  obtain ⟨c, hc⟩ := dvd_alignNext v ha
  obtain ⟨d, rfl⟩ := hq
  have hnext := alignNext_lt v ha
  have hcd : d < c := by
    apply Nat.lt_of_mul_lt_mul_left (a := a)
    omega
  have hstep : a * d + a ≤ a * c := Nat.mul_succ a d ▸ Nat.mul_le_mul_left a hcd
  omega

theorem alignNext_zero (a : ℕ) : alignNext 0 a = 0 := by
  simp [alignNext]

/-- Rounded up to a power of two, a number of 64 bits stays in 64 bits or comes to the number after
them. -/
theorem alignNext_le_two_pow (ha : a.isPowerOfTwo) (halt : a < 2 ^ 64) (hv : v < 2 ^ 64) :
    alignNext v a ≤ 2 ^ 64 := by
  obtain ⟨n, rfl⟩ := ha
  have hn : n < 64 := (Nat.pow_lt_pow_iff_right (by decide : 1 < 2)).mp halt
  exact alignNext_le (Nat.two_pow_pos n) hv.le (Nat.pow_dvd_pow 2 hn.le)

end Align

section Layout

variable (a s : ℕ → ℕ)

/-- The end of the first `n` blocks. -/
def layoutEnd : ℕ → ℕ
  | 0 => 0
  | n + 1 => alignNext (layoutEnd n) (a n) + s n

def layoutStart (n : ℕ) : ℕ := alignNext (layoutEnd a s n) (a n)

/-- The end of the first `n` blocks in 64 bits. -/
def wrappedEnd : ℕ → ℕ
  | 0 => 0
  | n + 1 => u64 (u64 (alignNext (wrappedEnd n) (a n)) + s n)

def wrappedStart (n : ℕ) : ℕ := u64 (alignNext (wrappedEnd a s n) (a n))

variable {a s} {i j n : ℕ}

theorem layoutEnd_succ (n : ℕ) : layoutEnd a s (n + 1) = layoutStart a s n + s n := rfl

theorem layoutEnd_mono (h : i ≤ j) : layoutEnd a s i ≤ layoutEnd a s j := by
  induction h with
  | refl => exact le_rfl
  | step _ ih => exact ih.trans ((le_alignNext _ _).trans (Nat.le_add_right _ _))

theorem layoutStart_add_le (h : i < j) : layoutStart a s i + s i ≤ layoutStart a s j :=
  (layoutEnd_mono h).trans (le_alignNext _ _)

theorem layoutStart_le (h : i < n) : layoutStart a s i + s i ≤ layoutEnd a s n := layoutEnd_mono h

/-- If the first `n` blocks are not empty, one that is not is at the start. -/
theorem exists_first (h : 0 < layoutEnd a s n) : ∃ j < n, 0 < s j ∧ layoutStart a s j = 0 := by
  induction n with
  | zero => exact absurd h (lt_irrefl 0)
  | succ n ih =>
    by_cases hpos : 0 < layoutEnd a s n
    · obtain ⟨j, hj, hstart⟩ := ih hpos
      exact ⟨j, hj.trans (Nat.lt_succ_self n), hstart⟩
    · have hzero : layoutStart a s n = 0 := by
        rw [layoutStart, Nat.eq_zero_of_not_pos hpos, alignNext_zero]
      rw [layoutEnd_succ, hzero, Nat.zero_add] at h
      exact ⟨n, Nat.lt_succ_self n, h, hzero⟩

theorem wrappedEnd_eq (h : layoutEnd a s n < 2 ^ 64) : wrappedEnd a s n = layoutEnd a s n := by
  induction n with
  | zero => rfl
  | succ n ih =>
    have hend := layoutEnd_succ (a := a) (s := s) n
    have hstart : layoutStart a s n < 2 ^ 64 := by omega
    have hbefore := le_alignNext (layoutEnd a s n) (a n)
    rw [wrappedEnd, ih (hbefore.trans_lt hstart)]
    change u64 (u64 (layoutStart a s n) + s n) = _
    rw [u64_of_lt hstart]
    exact u64_of_lt h

theorem wrappedStart_eq (h : layoutStart a s n < 2 ^ 64) :
    wrappedStart a s n = layoutStart a s n := by
  rw [wrappedStart, wrappedEnd_eq ((le_alignNext _ _).trans_lt h)]
  exact u64_of_lt h

theorem wrapped_cases (hpow : ∀ i < n, (a i).isPowerOfTwo ∧ a i < 2 ^ 64)
    (hinside : ∀ i < n, 0 < s i → wrappedStart a s i + s i < 2 ^ 64)
    (hdisjoint : ∀ j < n, ∀ i < j, 0 < s i → 0 < s j → wrappedStart a s j = 0 →
      wrappedStart a s i ≠ 0) :
    layoutEnd a s n < 2 ^ 64 ∨
      (wrappedEnd a s n = 0 ∧ ∃ j < n, 0 < s j ∧ wrappedStart a s j = 0) := by
  induction n with
  | zero => exact Or.inl (Nat.two_pow_pos 64)
  | succ n ih =>
    have hlast := Nat.lt_succ_self n
    have hback (hstart : wrappedStart a s n = 0) (hfirst : ∃ j < n, 0 < s j ∧
      wrappedStart a s j = 0) :
        wrappedEnd a s (n + 1) = 0 ∧ ∃ j < n + 1, 0 < s j ∧ wrappedStart a s j = 0 := by
      obtain ⟨j, hj, hsize, hzero⟩ := hfirst
      have hempty : s n = 0 := by
        by_contra hsize'
        exact hdisjoint n hlast j hj hsize (by omega) hstart hzero
      refine ⟨?_, j, hj.trans hlast, hsize, hzero⟩
      change u64 (wrappedStart a s n + s n) = 0
      rw [hstart, hempty]
      rfl
    rcases ih (fun i hi => hpow i (hi.trans hlast)) (fun i hi => hinside i (hi.trans hlast))
      (fun j hj => hdisjoint j (hj.trans hlast)) with hlt | ⟨hzero, hfirst⟩
    · have hle := alignNext_le_two_pow (hpow n hlast).1 (hpow n hlast).2 hlt
      by_cases hstart : layoutStart a s n < 2 ^ 64
      · left
        rw [layoutEnd_succ]
        by_cases hsize : 0 < s n
        · have hend := hinside n hlast hsize
          rwa [wrappedStart_eq hstart] at hend
        · omega
      · right
        have hfull : layoutStart a s n = 2 ^ 64 := le_antisymm hle (not_lt.mp hstart)
        have hpos : 0 < layoutEnd a s n := by
          by_contra hempty
          rw [layoutStart, Nat.eq_zero_of_not_pos hempty, alignNext_zero] at hfull
          cases hfull
        obtain ⟨j, hj, hsize, hfirst⟩ := exists_first hpos
        have hwrapped : wrappedStart a s n = 0 := by
          rw [wrappedStart, wrappedEnd_eq hlt]
          change u64 (layoutStart a s n) = 0
          rw [hfull]
          rfl
        exact hback hwrapped
          ⟨j, hj, hsize, (wrappedStart_eq (hfirst ▸ Nat.two_pow_pos 64)).trans hfirst⟩
    · right
      apply hback _ hfirst
      rw [wrappedStart, hzero, alignNext_zero]
      rfl

/-- Blocks that are inside of a whole whose size is the end rounded up, and do not both start at 0,
fit into 64 bits. -/
theorem layout_fits {b : ℕ} (hpow : ∀ i < n, (a i).isPowerOfTwo ∧ a i < 2 ^ 64)
    (hb : b.isPowerOfTwo ∧ b < 2 ^ 64)
    (hinside : ∀ i < n, 0 < s i → wrappedStart a s i + s i ≤ u64 (alignNext (wrappedEnd a s n) b))
    (hdisjoint : ∀ j < n, ∀ i < j, 0 < s i → 0 < s j → wrappedStart a s j = 0 →
      wrappedStart a s i ≠ 0) :
    alignNext (layoutEnd a s n) b < 2 ^ 64 := by
  rcases wrapped_cases hpow (fun i hi hsize => (hinside i hi hsize).trans_lt (u64_lt _))
    hdisjoint with
    hlt | ⟨hzero, j, hj, hsize, -⟩
  · by_contra hwraps
    have hfull := le_antisymm (alignNext_le_two_pow hb.1 hb.2 hlt) (not_lt.mp hwraps)
    have hpos : 0 < layoutEnd a s n := by
      by_contra hempty
      rw [Nat.eq_zero_of_not_pos hempty, alignNext_zero] at hfull
      cases hfull
    obtain ⟨j, hj, hsize, -⟩ := exists_first hpos
    have hin := hinside j hj hsize
    rw [wrappedEnd_eq hlt, hfull, show u64 (2 ^ 64) = 0 from rfl] at hin
    omega
  · have hin := hinside j hj hsize
    rw [hzero, alignNext_zero, show u64 0 = 0 from rfl] at hin
    omega

end Layout

end RetroRocket
