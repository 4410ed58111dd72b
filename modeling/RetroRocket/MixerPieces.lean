import Mathlib.Algebra.Order.Ring.Int
import Mathlib.Tactic.Linarith
import RetroRocket.Mixer

/-!
# Pieces of the mix

What `mixPiece` adds to the accumulator, sample by sample: the vector loop a value of its own, the
scalar loop behind it the frames from the start of the piece. Both agree with the product that is
shifted by eight exactly under `PieceExact`.
-/

namespace RetroRocket

variable {src : Samples} {acc : Accum} {gain take n pos dst i j k : ℕ}

/-! ## The loops -/

theorem frameLoop_apply (value : BitVec 16 → BitVec 32) (j : ℕ) :
    frameLoop value src n pos dst acc j =
      if dst ≤ j ∧ j < dst + 2 * n then acc j + value (src (pos + (j - dst))) else acc j := by
  induction n generalizing pos dst acc with
  | zero => rw [frameLoop, if_neg (by omega)]
  | succ n ih =>
    rw [frameLoop, ih]
    unfold addFrame
    by_cases hfirst : j = dst
    · subst hfirst
      rw [if_neg (by omega), if_pos rfl, if_pos (by omega), Nat.sub_self, Nat.add_zero]
    by_cases hsecond : j = dst + 1
    · subst hsecond
      rw [if_neg (by omega), if_neg (by omega), if_pos rfl, if_pos (by omega),
        Nat.add_sub_cancel_left]
    rw [if_neg hfirst, if_neg hsecond]
    by_cases hin : dst ≤ j ∧ j < dst + 2 * (n + 1)
    · rw [if_pos (by omega), if_pos hin, show pos + 2 + (j - (dst + 2)) = pos + (j - dst) by omega]
    · rw [if_neg (by omega), if_neg hin]

def vectorScaled (gain : ℕ) (s : BitVec 16) : BitVec 32 :=
  (s.signExtend 32 * (BitVec.ofNat 16 gain).signExtend 32 +
    (s.sshiftRight 15).signExtend 32 * (BitVec.ofNat 16 gain).signExtend 32).sshiftRight 8

theorem vectorStep_apply (j : ℕ) :
    vectorStep gain src i dst acc j =
      if dst ≤ j ∧ j < dst + 8 then acc j + vectorScaled gain (src (2 * i + (j - dst))) else
        acc j := by
  unfold vectorStep storeu mmAddEpi32 mmSraiEpi32 mmMaddEpi16 mmUnpackloEpi16 mmUnpackhiEpi16
    mmSraiEpi16 mmSet1Epi16 vectorScaled
  dsimp only
  by_cases hhigh : dst + 4 ≤ j ∧ j < dst + 8
  · rw [if_pos (by omega), show dst + 4 + (j - (dst + 4)) = j by omega, if_pos (by omega)]
    simp only [Nat.mul_mod_right, Nat.mul_add_mod, show (1 % 2 = 0) = False by simp, if_false,
      ite_self, show 2 * (j - (dst + 4)) / 2 = j - (dst + 4) by omega,
      show (2 * (j - (dst + 4)) + 1) / 2 = j - (dst + 4) by omega,
      show 4 + (j - (dst + 4)) = j - dst by omega]
    rw [if_pos (by omega)]
  · rw [if_neg (by omega)]
    by_cases hlow : dst ≤ j ∧ j < dst + 4
    · rw [if_pos hlow, show dst + (j - dst) = j by omega, if_pos (by omega)]
      simp only [Nat.mul_mod_right, Nat.mul_add_mod, show (1 % 2 = 0) = False by simp, if_false,
        ite_self, show 2 * (j - dst) / 2 = j - dst by omega,
        show (2 * (j - dst) + 1) / 2 = j - dst by omega]
      rw [if_pos (by omega)]
    · rw [if_neg hlow, if_neg (by omega)]

theorem vectorLoop_spec (gain : ℕ) (src : Samples) (dst : ℕ) (acc : Accum) {fuel : ℕ}
    (hfuel : take ≤ i + fuel) :
    (vectorLoop gain src take fuel i dst acc).2 =
        (i + 4 * ((take - i) / 4), dst + 8 * ((take - i) / 4)) ∧
      ∀ j, (vectorLoop gain src take fuel i dst acc).1 j =
        if dst ≤ j ∧ j < dst + 8 * ((take - i) / 4) then
          acc j + vectorScaled gain (src (2 * i + (j - dst)))
        else acc j := by
  induction fuel generalizing i dst acc with
  | zero =>
    have hnone : (take - i) / 4 = 0 := by omega
    rw [vectorLoop, hnone]
    exact ⟨rfl, fun j => by rw [if_neg (by omega)]⟩
  | succ fuel ih =>
    rw [vectorLoop]
    split_ifs with hmore
    · obtain ⟨hends, hacc⟩ := ih (dst + 8) (vectorStep gain src i dst acc) (i := i + 4) (by omega)
      have hquot : (take - i) / 4 = (take - (i + 4)) / 4 + 1 := by omega
      refine ⟨?_, fun j => ?_⟩
      · rw [hends, hquot]
        exact Prod.ext (by dsimp only; omega) (by dsimp only; omega)
      · rw [hacc, vectorStep_apply, hquot]
        by_cases hstep : dst ≤ j ∧ j < dst + 8
        · rw [if_neg (by omega), if_pos hstep, if_pos (by omega)]
        · rw [if_neg hstep]
          by_cases hlater : dst + 8 ≤ j ∧ j < dst + 8 + 8 * ((take - (i + 4)) / 4)
          · rw [if_pos hlater, if_pos (by omega),
              show 2 * (i + 4) + (j - (dst + 8)) = 2 * i + (j - dst) by omega]
          · rw [if_neg hlater, if_neg (by omega)]
    · have hnone : (take - i) / 4 = 0 := by omega
      rw [hnone]
      exact ⟨rfl, fun j => by rw [if_neg (by omega)]⟩

/-- What a piece adds for its sample `k`. -/
def pieceValue (gain : ℕ) (src : Samples) (take k : ℕ) : BitVec 32 :=
  if gain = 256 then (src k).signExtend 32
  else if k < 8 * (take / 4) then vectorScaled gain (src k)
  else scaled gain (src (k - 8 * (take / 4)))

theorem mixPiece_apply (j : ℕ) :
    mixPiece gain src take dst acc j =
      if dst ≤ j ∧ j < dst + 2 * take then acc j + pieceValue gain src take (j - dst) else
        acc j := by
  unfold mixPiece pieceValue
  by_cases hunity : gain = 256
  · rw [if_pos hunity, if_pos hunity, unityLoop, frameLoop_apply, Nat.zero_add]
  · obtain ⟨hends, hacc⟩ := vectorLoop_spec gain src dst acc (show take ≤ 0 + take by omega)
    rw [if_neg hunity, if_neg hunity, hends, scalarLoop, frameLoop_apply, hacc]
    by_cases hvector : dst ≤ j ∧ j < dst + 8 * (take / 4)
    · rw [Nat.sub_zero, if_neg (by omega), if_pos hvector, if_pos (by omega), if_pos (by omega),
        Nat.mul_zero, Nat.zero_add]
    · rw [Nat.sub_zero, if_neg hvector]
      by_cases hscalar : dst ≤ j ∧ j < dst + 2 * take
      · rw [if_pos (by omega), if_pos hscalar, if_neg (by omega),
          show 0 + (j - (dst + 8 * (take / 4))) = j - dst - 8 * (take / 4) by omega]
      · rw [if_neg (by omega), if_neg hscalar]

/-! ## Values -/

/-- `(sample * gain) >> 8`. -/
def weighted (gain : ℕ) (s : BitVec 16) : ℤ := s.toInt * gain / 256

theorem sample_bounds (s : BitVec 16) : -32768 ≤ s.toInt ∧ s.toInt < 32768 :=
  ⟨s.le_toInt, s.toInt_lt⟩

theorem product_bounds {x : ℤ} (hlow : -32769 ≤ x) (hhigh : x < 32768) (hgain : gain ≤ 256) :
    -8388864 ≤ x * gain ∧ x * gain ≤ 8388608 := by
  have hg : (gain : ℤ) ≤ 256 := by exact_mod_cast hgain
  have hzero : (0 : ℤ) ≤ gain := Int.natCast_nonneg gain
  constructor <;> nlinarith

theorem toInt_ofInt {z : ℤ} (hlow : -2 ^ 31 ≤ z) (hhigh : z < 2 ^ 31) :
    (BitVec.ofInt 32 z).toInt = z := BitVec.toInt_ofInt_eq_self (by decide) hlow hhigh

theorem ofInt_sshiftRight {z : ℤ} (hlow : -2 ^ 31 ≤ z) (hhigh : z < 2 ^ 31) :
    (BitVec.ofInt 32 z).sshiftRight 8 = BitVec.ofInt 32 (z / 256) := by
  unfold BitVec.sshiftRight
  rw [toInt_ofInt hlow hhigh, Int.shiftRight_eq_div_pow]
  rfl

theorem weighted_bounds (hgain : gain ≤ 256) (s : BitVec 16) :
    -32768 ≤ weighted gain s ∧ weighted gain s ≤ 32768 := by
  obtain ⟨hlow, hhigh⟩ := sample_bounds s
  have hg : (gain : ℤ) ≤ 256 := by exact_mod_cast hgain
  have hzero : (0 : ℤ) ≤ gain := Int.natCast_nonneg gain
  have hmin : -32768 * 256 ≤ s.toInt * gain := by nlinarith
  have hmax := (product_bounds (by omega) hhigh hgain).2
  unfold weighted
  omega

theorem scaled_eq (hgain : gain ≤ 256) (s : BitVec 16) :
    scaled gain s = BitVec.ofInt 32 (weighted gain s) := by
  obtain ⟨hlow, hhigh⟩ := sample_bounds s
  obtain ⟨hmin, hmax⟩ := product_bounds (by omega) hhigh hgain
  unfold scaled weighted
  rw [BitVec.signExtend, ← BitVec.ofInt_natCast, ← BitVec.ofInt_mul]
  exact ofInt_sshiftRight (by omega) (by omega)

theorem signExtend_eq (s : BitVec 16) : s.signExtend 32 = BitVec.ofInt 32 (weighted 256 s) := by
  unfold weighted
  rw [BitVec.signExtend, Nat.cast_ofNat, Int.mul_ediv_cancel _ (by decide)]

theorem vectorScaled_eq (hgain : gain ≤ 256) (s : BitVec 16) :
    vectorScaled gain s =
      BitVec.ofInt 32 ((s.toInt - if s.toInt < 0 then 1 else 0) * gain / 256) := by
  obtain ⟨hlow, hhigh⟩ := sample_bounds s
  have hg : ((BitVec.ofNat 16 gain).signExtend 32) = BitVec.ofInt 32 gain := by
    rw [BitVec.signExtend, ← BitVec.ofInt_natCast,
      BitVec.toInt_ofInt_eq_self (by decide) (by omega) (by omega)]
  have hsign : (s.sshiftRight 15).signExtend 32 =
      BitVec.ofInt 32 (-if s.toInt < 0 then 1 else 0) := by
    rw [BitVec.signExtend, BitVec.toInt_sshiftRight, Int.shiftRight_eq_div_pow]
    split_ifs <;> congr 1 <;> omega
  obtain ⟨hmin, hmax⟩ := product_bounds (x := s.toInt - if s.toInt < 0 then 1 else 0)
    (by split_ifs <;> omega) (by split_ifs <;> omega) hgain
  unfold vectorScaled
  rw [hg, hsign, BitVec.signExtend, ← BitVec.ofInt_mul, ← BitVec.ofInt_mul, ← BitVec.ofInt_add,
    ← add_mul, ← sub_eq_add_neg]
  exact ofInt_sshiftRight (by omega) (by omega)

def SignHarmless (gain : ℕ) (s : BitVec 16) : Prop :=
  s.toInt < 0 → (s.toInt - 1) * gain / 256 = weighted gain s

/-- The vector loop meets no sample whose sign shows, and the frames that the scalar loop reads
weigh as much as those it stands for. -/
def PieceExact (gain : ℕ) (src : Samples) (take : ℕ) : Prop :=
  gain = 256 ∨ (∀ k < 8 * (take / 4), SignHarmless gain (src k)) ∧
    ∀ k < 2 * (take % 4), weighted gain (src k) = weighted gain (src (8 * (take / 4) + k))

theorem ofInt_inj {x y : ℤ} (hx : -2 ^ 31 ≤ x ∧ x < 2 ^ 31) (hy : -2 ^ 31 ≤ y ∧ y < 2 ^ 31) :
    BitVec.ofInt 32 x = BitVec.ofInt 32 y ↔ x = y := by
  refine ⟨fun h => ?_, fun h => h ▸ rfl⟩
  rw [← toInt_ofInt hx.1 hx.2, h, toInt_ofInt hy.1 hy.2]

theorem vectorScaled_eq_iff (hgain : gain ≤ 256) (s : BitVec 16) :
    vectorScaled gain s = BitVec.ofInt 32 (weighted gain s) ↔ SignHarmless gain s := by
  obtain ⟨hlow, hhigh⟩ := sample_bounds s
  obtain ⟨hmin, hmax⟩ := product_bounds (x := s.toInt - if s.toInt < 0 then 1 else 0)
    (by split_ifs <;> omega) (by split_ifs <;> omega) hgain
  have hw := weighted_bounds hgain s
  rw [vectorScaled_eq hgain, ofInt_inj (by omega) (by omega)]
  unfold SignHarmless
  by_cases hneg : s.toInt < 0
  · simp only [hneg, if_true, forall_const]
  · simp only [hneg, if_false, sub_zero, weighted, false_implies]

theorem pieceValue_eq_iff (hgain : gain ≤ 256) (src : Samples) (take : ℕ) :
    (∀ k < 2 * take, pieceValue gain src take k = BitVec.ofInt 32 (weighted gain (src k))) ↔
      PieceExact gain src take := by
  unfold PieceExact pieceValue
  by_cases hunity : gain = 256
  · subst hunity
    simp only [if_true, signExtend_eq, implies_true, true_or]
  have hw : ∀ k, -2 ^ 31 ≤ weighted gain (src k) ∧ weighted gain (src k) < 2 ^ 31 := by
    intro k
    have := weighted_bounds hgain (src k)
    omega
  simp only [hunity, if_false, false_or]
  constructor
  · intro h
    refine ⟨fun k hk => ?_, fun k hk => ?_⟩
    · have hk' := h k (by omega)
      rwa [if_pos hk, vectorScaled_eq_iff hgain] at hk'
    · have hk' := h (8 * (take / 4) + k) (by omega)
      rwa [if_neg
        (by omega), Nat.add_sub_cancel_left, scaled_eq hgain, ofInt_inj (hw _) (hw _)] at hk'
  · rintro ⟨hvector, hscalar⟩ k hk
    split_ifs with hlow
    · exact (vectorScaled_eq_iff hgain _).mpr (hvector k hlow)
    · have htail := hscalar (k - 8 * (take / 4)) (by omega)
      rw [Nat.add_sub_cancel' (not_lt.mp hlow)] at htail
      rw [scaled_eq hgain, htail]

end RetroRocket
