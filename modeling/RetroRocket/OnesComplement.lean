import Mathlib.Data.Nat.ModEq
import Mathlib.Algebra.BigOperators.Group.List.Basic
import Mathlib.Tactic.Common

/-!
# One's complement sums

Words up to `n` are added with the carry brought round to the low end. A sum of words is their
residue modulo `n` in `1 .. n`, except that words that are all zero add to zero. Folding the carry
of a plain sum in once gives the same value unless the fold itself carries.
-/

namespace RetroRocket

namespace OnesComplement

variable {n a s t x : ℕ}

def endAdd (n a b : ℕ) : ℕ := (a + b) % (n + 1) + (a + b) / (n + 1)

def endSum (n : ℕ) (ws : List ℕ) : ℕ := ws.foldr (endAdd n) 0

/-- `x` is the word that the number `s` stands for. -/
structure Represents (n x s : ℕ) : Prop where
  le : x ≤ n
  modEq : x ≡ s [MOD n]
  zero_iff : x = 0 ↔ s = 0

theorem fold_modEq (n s : ℕ) : s % (n + 1) + s / (n + 1) ≡ s [MOD n] := by
  have hsplit : s % (n + 1) + s / (n + 1) + n * (s / (n + 1)) = s := by
    have hdiv := Nat.mod_add_div s (n + 1)
    rw [Nat.add_mul, Nat.one_mul] at hdiv
    omega
  have hmul : n * (s / (n + 1)) ≡ 0 [MOD n] := (Nat.modEq_zero_iff_dvd).mpr (Nat.dvd_mul_right _ _)
  have hadd := (Nat.ModEq.refl (s % (n + 1) + s / (n + 1))).add hmul
  rw [hsplit, Nat.add_zero] at hadd
  exact hadd.symm

theorem fold_eq_zero : s % (n + 1) + s / (n + 1) = 0 ↔ s = 0 := by
  constructor
  · intro h
    obtain ⟨hmod, hquot⟩ := Nat.add_eq_zero_iff.mp h
    have hdiv := Nat.mod_add_div s (n + 1)
    rw [hmod, hquot, Nat.mul_zero] at hdiv
    exact hdiv.symm
  · rintro rfl
    rw [Nat.zero_mod, Nat.zero_div]

theorem Represents.eq (h : Represents n x s) (h' : Represents n a s) : x = a := by
  have hmod : x ≡ a [MOD n] := h.modEq.trans h'.modEq.symm
  have hzero : x = 0 ↔ a = 0 := h.zero_iff.trans h'.zero_iff.symm
  rcases Nat.lt_or_ge x n with hx | hx
  · rcases Nat.lt_or_ge a n with ha | ha
    · rwa [Nat.ModEq, Nat.mod_eq_of_lt hx, Nat.mod_eq_of_lt ha] at hmod
    · have hn : a = n := le_antisymm h'.le ha
      rw [hn, Nat.ModEq, Nat.mod_eq_of_lt hx, Nat.mod_self] at hmod
      omega
  · have hn : x = n := le_antisymm h.le hx
    rcases Nat.lt_or_ge a n with ha | ha
    · rw [hn, Nat.ModEq, Nat.mod_eq_of_lt ha, Nat.mod_self] at hmod
      omega
    · exact hn.trans (le_antisymm ha h'.le)

theorem Represents.congr (h : Represents n x s) (hmod : s ≡ t [MOD n]) (hzero : s = 0 ↔ t = 0) :
    Represents n x t := ⟨h.le, h.modEq.trans hmod, h.zero_iff.trans hzero⟩

theorem Represents.eq_iff (h : Represents n x s) (h' : Represents n a t) :
    x = a ↔ s ≡ t [MOD n] ∧ (s = 0 ↔ t = 0) := by
  constructor
  · rintro rfl
    exact ⟨h.modEq.symm.trans h'.modEq, h.zero_iff.symm.trans h'.zero_iff⟩
  · rintro ⟨hmod, hzero⟩
    exact (h.congr hmod hzero).eq h'

theorem Represents.endAdd (ha : a ≤ n) (h : Represents n x s) :
    Represents n (endAdd n a x) (a + s) := by
  have hx := h.le
  unfold OnesComplement.endAdd
  refine ⟨?_, (fold_modEq n (a + x)).trans (h.modEq.add_left a), ?_⟩
  · by_cases hlt : a + x < n + 1
    · rw [Nat.mod_eq_of_lt hlt, Nat.div_eq_of_lt hlt]
      omega
    · have hquot : (a + x) / (n + 1) = 1 := Nat.div_eq_of_lt_le (by omega) (by omega)
      have hdiv := Nat.mod_add_div (a + x) (n + 1)
      rw [hquot] at hdiv ⊢
      omega
  · rw [fold_eq_zero, Nat.add_eq_zero_iff, Nat.add_eq_zero_iff, h.zero_iff]

theorem represents_endSum {ws : List ℕ} (h : ∀ w ∈ ws, w ≤ n) :
    Represents n (endSum n ws) ws.sum := by
  induction ws with
  | nil => exact ⟨Nat.zero_le n, Nat.ModEq.refl 0, Iff.rfl⟩
  | cons w ws ih =>
    rw [List.sum_cons]
    exact (ih fun v hv => h v (List.mem_cons_of_mem w hv)).endAdd (h w List.mem_cons_self)

theorem Represents.complement (hn : 0 < n) (h : Represents n x s) :
    Represents n n (s + (n - x)) := by
  have hle := h.le
  refine ⟨le_rfl, ?_, ?_⟩
  · have hadd := h.modEq.add_right (n - x)
    rwa [Nat.add_sub_cancel' hle] at hadd
  · constructor
    · omega
    · intro hsum
      obtain ⟨hs, hx⟩ := Nat.add_eq_zero_iff.mp hsum
      have hzero := h.zero_iff.mpr hs
      omega

/-! ## Folding once -/

/-- The carry of `s` added to its low part, in a register of the width of a word. -/
def foldOnce (n s : ℕ) : ℕ := (s % (n + 1) + s / (n + 1)) % (n + 1)

def CarriesTwice (n s : ℕ) : Prop := n < s % (n + 1) + s / (n + 1)

instance (n s : ℕ) : Decidable (CarriesTwice n s) :=
  inferInstanceAs (Decidable (n < s % (n + 1) + s / (n + 1)))

theorem foldOnce_represents (h : ¬ CarriesTwice n s) : Represents n (foldOnce n s) s := by
  have hle : s % (n + 1) + s / (n + 1) ≤ n := not_lt.mp h
  unfold foldOnce
  rw [Nat.mod_eq_of_lt (Nat.lt_succ_of_le hle)]
  exact ⟨hle, fold_modEq n s, fold_eq_zero⟩

theorem foldOnce_succ_represents (hs : s / (n + 1) ≤ n) (h : CarriesTwice n s) :
    Represents n (foldOnce n s + 1) s := by
  have hmod : s % (n + 1) < n + 1 := Nat.mod_lt s (Nat.succ_pos n)
  have hlarge : n < s % (n + 1) + s / (n + 1) := h
  have hfold : foldOnce n s = s % (n + 1) + s / (n + 1) - (n + 1) := by
    unfold foldOnce
    rw [Nat.mod_eq_sub_mod (by omega), Nat.mod_eq_of_lt (by omega)]
  have hadd : foldOnce n s + 1 + n = s % (n + 1) + s / (n + 1) := by omega
  have hzero : s ≠ 0 := by
    rintro rfl
    rw [Nat.zero_mod, Nat.zero_div] at hlarge
    omega
  refine ⟨by omega, ?_, by omega⟩
  have hn : foldOnce n s + 1 + n ≡ foldOnce n s + 1 [MOD n] := Nat.add_modEq_right
  rw [hadd] at hn
  exact hn.symm.trans (fold_modEq n s)

/-- When the fold over a part `s` of the sum gives the word for the whole sum `s + t`. -/
theorem foldOnce_eq_iff (hs : s / (n + 1) ≤ n) (hx : Represents n x (s + t)) :
    foldOnce n s = x ↔
      if CarriesTwice n s then t + 1 ≡ 0 [MOD n] ∧ foldOnce n s ≠ 0
      else t ≡ 0 [MOD n] ∧ (s = 0 → t = 0) := by
  split
  · next hcarry =>
    have hword := foldOnce_succ_represents hs hcarry
    have hpos : s ≠ 0 := hword.zero_iff.not.mp (Nat.succ_ne_zero _)
    have hshift : foldOnce n s + (t + 1) ≡ s + t [MOD n] := by
      have hadd := hword.modEq.add_right t
      rwa [Nat.add_assoc, Nat.add_comm 1 t] at hadd
    constructor
    · rintro rfl
      refine ⟨?_, fun h0 => hpos (Nat.add_eq_zero_iff.mp (hx.zero_iff.mp h0)).1⟩
      exact (hshift.trans hx.modEq.symm).add_left_cancel' _
    · rintro ⟨hmod, hfold⟩
      have hsame : foldOnce n s + (t + 1) ≡ foldOnce n s [MOD n] := hmod.add_left _
      have hle := hword.le
      have hrep : Represents n (foldOnce n s) (s + t) := by
        refine ⟨by omega, hsame.symm.trans hshift, ?_⟩
        omega
      exact hrep.eq hx
  · next hcarry =>
    rw [(foldOnce_represents hcarry).eq_iff hx]
    refine and_congr ⟨fun h => ?_, fun h => ?_⟩ (by omega)
    · exact (Nat.ModEq.add_left_cancel' s h).symm
    · exact (h.add_left s).symm

end OnesComplement

end RetroRocket
