import Mathlib.Data.Int.Init
import Mathlib.Tactic.Common
import Mathlib.Tactic.Ring

/-!
# Counting with machine integers

A counter of `w` bits goes from a start by a step for as long as it has not passed a limit, and at
least once. It runs through the values that it would run through without bounds exactly if the first
value behind the limit, reduced to `w` bits, is behind the limit too.
-/

namespace RetroRocket

def Within (step limit value : ℤ) : Prop := (0 < step ∧ value ≤ limit) ∨ (step < 0 ∧ limit ≤ value)

instance (step limit value : ℤ) : Decidable (Within step limit value) :=
  inferInstanceAs (Decidable (_ ∨ _))

def turns (start limit step : ℤ) : ℕ :=
  if 0 < step then ((limit - start) / step).toNat else ((start - limit) / (-step)).toNat

def counted (start limit step : ℤ) : List ℤ :=
  (List.range (turns start limit step + 1)).map fun k : ℕ => start + k * step

@[simp] theorem length_counted (start limit step : ℤ) :
    (counted start limit step).length = turns start limit step + 1 := by
  simp [counted]

theorem counted_eq_singleton_iff (start limit step value : ℤ) :
    counted start limit step = [value] ↔ value = start ∧ turns start limit step = 0 := by
  constructor
  · intro h
    have hlen := congrArg List.length h
    have hturns : turns start limit step = 0 := by simpa using hlen
    refine ⟨?_, hturns⟩
    simpa [counted, hturns, eq_comm] using h
  · rintro ⟨rfl, hturns⟩
    simp [counted, hturns]

theorem within_iff_le_turns {start limit step : ℤ} (hstep : step ≠ 0) {k : ℕ} (hk : 1 ≤ k) :
    Within step limit (start + k * step) ↔ k ≤ turns start limit step := by
  unfold Within turns
  rcases lt_or_gt_of_ne hstep with hneg | hpos
  · rw [if_neg (by omega)]
    have hdiv := Int.le_ediv_iff_mul_le (a := (k : ℤ)) (b := start - limit) (c := -step) (by omega)
    rw [Int.mul_neg] at hdiv
    constructor
    · rintro (⟨hpos, -⟩ | ⟨-, hle⟩)
      · omega
      · have := hdiv.mpr (by omega)
        omega
    · intro hle
      have := hdiv.mp (by omega)
      exact Or.inr ⟨hneg, by omega⟩
  · rw [if_pos hpos]
    have hdiv := Int.le_ediv_iff_mul_le (a := (k : ℤ)) (b := limit - start) (c := step) hpos
    constructor
    · rintro (⟨-, hle⟩ | ⟨hneg, -⟩)
      · have := hdiv.mpr (by omega)
        omega
      · omega
    · intro hle
      have := hdiv.mp (by omega)
      exact Or.inl ⟨hpos, by omega⟩

/-! ## The counter of a machine -/

variable {w : ℕ}

/-- The value of a counter after `k` steps. -/
def nthValue (start step : BitVec w) (k : ℕ) : BitVec w :=
  BitVec.ofInt w (start.toInt + k * step.toInt)

theorem nthValue_eq (start step : BitVec w) (k : ℕ) :
    nthValue start step k = start + BitVec.ofInt w (k * step.toInt) := by
  rw [nthValue, BitVec.ofInt_add, BitVec.ofInt_toInt]

@[simp] theorem nthValue_zero (start step : BitVec w) : nthValue start step 0 = start := by
  simp [nthValue]

theorem nthValue_one (start step : BitVec w) : nthValue start step 1 = start + step := by
  simp [nthValue_eq]

theorem nthValue_succ (start step : BitVec w) (k : ℕ) :
    nthValue start step (k + 1) = nthValue (start + step) step k := by
  have hmul : ((k + 1 : ℕ) : ℤ) * step.toInt = step.toInt + k * step.toInt := by
    push_cast
    ring
  rw [nthValue_eq, nthValue_eq, hmul, BitVec.ofInt_add, BitVec.ofInt_toInt, BitVec.add_assoc]

theorem nthValue_add_step (start step : BitVec w) (k : ℕ) :
    nthValue start step k + step = nthValue start step (k + 1) := by
  have hmul : ((k + 1 : ℕ) : ℤ) * step.toInt = k * step.toInt + step.toInt := by
    push_cast
    ring
  rw [nthValue_eq, nthValue_eq, hmul, BitVec.ofInt_add, BitVec.ofInt_toInt, BitVec.add_assoc]

theorem toInt_nthValue {start step : BitVec w} (limit : BitVec w) (hw : 0 < w)
    (hstep : step.toInt ≠ 0) {k : ℕ}
    (hk : k ≤ turns start.toInt limit.toInt step.toInt) :
    (nthValue start step k).toInt = start.toInt + k * step.toInt := by
  rcases Nat.eq_zero_or_pos k with rfl | hpos
  · simp
  · have hstart := start.two_mul_toInt_lt
    have hstart' := start.le_two_mul_toInt
    have hlimit := limit.two_mul_toInt_lt
    have hlimit' := limit.le_two_mul_toInt
    have hpow : (2 : ℤ) ^ w = 2 * 2 ^ (w - 1) := by
      rw [← pow_succ', Nat.sub_add_cancel hw]
    have hwithin := (within_iff_le_turns hstep hpos).mpr hk
    have hmul : (0 < step.toInt → 0 ≤ k * step.toInt) ∧ (step.toInt < 0 → k * step.toInt ≤ 0) :=
      ⟨fun h => Int.mul_nonneg
        (by omega) (by omega), fun h => Int.mul_nonpos_of_nonneg_of_nonpos (by omega) (by omega)⟩
    rw [nthValue]
    rcases hwithin with ⟨hup, hle⟩ | ⟨hdown, hle⟩
    · have := hmul.1 hup
      exact BitVec.toInt_ofInt_eq_self hw (by omega) (by omega)
    · have := hmul.2 hdown
      exact BitVec.toInt_ofInt_eq_self hw (by omega) (by omega)

def countLoop (limit step : BitVec w) : ℕ → BitVec w → Option (List (BitVec w))
  | 0, _ => none
  | fuel + 1, value =>
    if Within step.toInt limit.toInt (value + step).toInt then
      (countLoop limit step fuel (value + step)).map (value :: ·)
    else some [value]

section Loop

variable {limit step : BitVec w}

theorem countLoop_add {n : ℕ} (fuel : ℕ) : ∀ {start : BitVec w},
    (∀ k < n, Within step.toInt limit.toInt (nthValue start step (k + 1)).toInt) →
    countLoop limit step (n + fuel) start =
      (countLoop limit step fuel (nthValue start step n)).map
        ((List.range n).map (nthValue start step) ++ ·) := by
  induction n with
  | zero =>
    intro start _
    simp
  | succ n ih =>
    intro start h
    have hfirst := h 0 (Nat.succ_pos n)
    rw [nthValue_one] at hfirst
    have hrest : countLoop limit step (n + fuel) (start + step) = _ := ih fun k hk => by
      rw [← nthValue_succ]
      exact h (k + 1) (by omega)
    rw [Nat.add_right_comm, countLoop, if_pos hfirst, hrest, Option.map_map, nthValue_succ,
      List.range_succ_eq_map]
    congr 1
    funext trace
    simp [Function.comp_def, nthValue_succ]

theorem lt_length_of_countLoop {n fuel : ℕ} : ∀ {start : BitVec w} {trace : List (BitVec w)},
    (∀ k < n, Within step.toInt limit.toInt (nthValue start step (k + 1)).toInt) →
    countLoop limit step fuel start = some trace → n < trace.length := by
  induction fuel generalizing n with
  | zero =>
    intro start trace _ h
    cases h
  | succ fuel ih =>
    intro start trace hwithin h
    rw [countLoop] at h
    cases n with
    | zero =>
      split at h
      · obtain ⟨rest, -, rfl⟩ := Option.map_eq_some_iff.mp h
        simp
      · cases h
        simp
    | succ n =>
      have hfirst := hwithin 0 (Nat.succ_pos n)
      rw [nthValue_one] at hfirst
      rw [if_pos hfirst] at h
      obtain ⟨rest, hrest, rfl⟩ := Option.map_eq_some_iff.mp h
      have hlen := ih (n := n) (fun k hk => by
        rw [← nthValue_succ]
        exact hwithin (k + 1) (by omega)) hrest
      simpa using hlen

def behindLimit (start limit step : BitVec w) : BitVec w :=
  nthValue start step (turns start.toInt limit.toInt step.toInt + 1)

/-- The loop goes through the values of an unbounded counter and stops, exactly if the value behind
the limit is behind it for the machine, too. -/
theorem countLoop_counted_iff (hw : 0 < w) {start : BitVec w} (hstep : step.toInt ≠ 0) :
    (∃ fuel trace, countLoop limit step fuel start = some trace ∧
        trace.map BitVec.toInt = counted start.toInt limit.toInt step.toInt) ↔
      ¬ Within step.toInt limit.toInt (behindLimit start limit step).toInt := by
  set n := turns start.toInt limit.toInt step.toInt with hn
  have hinside : ∀ k < n, Within step.toInt limit.toInt (nthValue start step (k + 1)).toInt := by
    intro k hk
    rw [toInt_nthValue limit hw hstep (by omega)]
    exact (within_iff_le_turns hstep (by omega)).mpr (by omega)
  constructor
  · rintro ⟨fuel, trace, hloop, htrace⟩ hwithin
    have hlen := congrArg List.length htrace
    rw [List.length_map, length_counted, ← hn] at hlen
    have hlt := lt_length_of_countLoop (n := n + 1) (fun k hk => by
      rcases Nat.lt_succ_iff_lt_or_eq.mp hk with hk | rfl
      · exact hinside k hk
      · exact hwithin) hloop
    omega
  · intro hbehind
    have hlast : countLoop limit step 1 (nthValue start step n) = some [nthValue start step n] := by
      have hnext : nthValue start step n + step = behindLimit start limit step := by
        rw [behindLimit, ← hn, nthValue_add_step]
      rw [countLoop, hnext, if_neg hbehind]
    refine ⟨n + 1, _, (countLoop_add 1 hinside).trans (by rw [hlast]; rfl), ?_⟩
    rw [counted, ← hn, List.range_succ, List.map_append, List.map_append, List.map_map]
    congr 1
    · apply List.map_congr_left
      intro k hk
      exact toInt_nthValue limit hw hstep (List.mem_range.mp hk).le
    · rw [List.map_singleton, List.map_singleton, toInt_nthValue limit hw hstep hn.le]

end Loop

end RetroRocket
