import Mathlib.Data.List.Basic
import Mathlib.Logic.Function.Basic
import Mathlib.Tactic.Common

/-!
# An index over a list that is sorted by a key

The list is sorted by a number that belongs to each element. The index holds, for each number,
where the elements with that number begin. It is built in two passes: the first one records the
first element of each number, and the second one goes down and fills each gap with the entry above.
-/

namespace RetroRocket

variable {α : Type*} (key : α → ℕ)

/-- The pass that records the first element of each number. An entry that still has the length of
the list in it is free. -/
def recordFirst (count : ℕ) : ℕ → List α → (ℕ → ℕ) → ℕ → ℕ
  | _, [], offsets => offsets
  | i, a :: rest, offsets =>
    recordFirst count (i + 1) rest
      (if offsets (key a) = count then Function.update offsets (key a) i else offsets)

def fillGaps (count : ℕ) : ℕ → (ℕ → ℕ) → ℕ → ℕ
  | 0, offsets => offsets
  | i + 1, offsets =>
    fillGaps count i
      (if offsets i = count then Function.update offsets i (offsets (i + 1)) else offsets)

/-- Where the elements with the number `k`, or a greater one, begin. -/
def bucketStart (l : List α) (k : ℕ) : ℕ := l.findIdx fun a => decide (k ≤ key a)

def slice (l : List α) (start stop : ℕ) : List α := (l.drop start).take (stop - start)

variable {key}

/-! ## The first pass -/

theorem recordFirst_apply {count : ℕ} (k : ℕ) (l : List α) :
    ∀ (i : ℕ) (offsets : ℕ → ℕ), i + l.length = count → recordFirst key count i l offsets k =
      if offsets k = count then i + l.findIdx (fun a => decide (key a = k)) else offsets k := by
  induction l with
  | nil =>
    intro i offsets hi
    simp only [recordFirst, List.findIdx_nil, List.length_nil, Nat.add_zero] at *
    split <;> omega
  | cons a rest ih =>
    intro i offsets hi
    simp only [List.length_cons] at hi
    rw [recordFirst, ih (i + 1) _ (by omega), List.findIdx_cons]
    by_cases hk : key a = k
    · subst hk
      by_cases hfree : offsets (key a) = count
      · simp only [hfree, if_true, Function.update_self, decide_true, cond_true, Nat.add_zero]
        rw [if_neg (by omega)]
      · simp only [hfree, if_false]
    · have hother : (if offsets (key a) = count then Function.update offsets (key a) i else
          offsets) k = offsets k := by
        split
        · exact Function.update_of_ne (Ne.symm hk) _ _
        · rfl
      rw [hother, decide_eq_false hk, cond_false]
      split <;> omega

/-! ## The second pass -/

theorem fillGaps_of_le {count k : ℕ} (n : ℕ) :
    ∀ offsets : ℕ → ℕ, n ≤ k → fillGaps count n offsets k = offsets k := by
  induction n with
  | zero => intro offsets _; rfl
  | succ n ih =>
    intro offsets hk
    rw [fillGaps, ih _ (by omega)]
    split
    · exact Function.update_of_ne (by omega) _ _
    · rfl

theorem fillGaps_of_lt {count k : ℕ} (n : ℕ) :
    ∀ offsets : ℕ → ℕ, k < n → fillGaps count n offsets k =
      if offsets k = count then fillGaps count n offsets (k + 1) else offsets k := by
  induction n with
  | zero => intro offsets hk; omega
  | succ n ih =>
    intro offsets hk
    rw [fillGaps]
    generalize hfilled : (if offsets n = count then Function.update offsets n (offsets (n + 1))
      else offsets) = filled
    by_cases hlast : k = n
    · subst hlast
      rw [fillGaps_of_le k _ (Nat.le_refl k), fillGaps_of_le k _ (Nat.le_succ k), ← hfilled]
      by_cases hfree : offsets k = count
      · simp only [hfree, if_true, Function.update_self, Function.update_of_ne, ne_eq,
          Nat.succ_ne_self, not_false_eq_true]
      · simp only [hfree, if_false]
    · have hsame : filled k = offsets k := by
        rw [← hfilled]
        split
        · exact Function.update_of_ne hlast _ _
        · rfl
      rw [ih filled (by omega), hsame]

/-! ## The index -/

variable {l : List α}

theorem bucketStart_eq_length {k : ℕ} (hk : ∀ a ∈ l, key a < k) :
    bucketStart key l k = l.length := by
  rw [bucketStart, List.findIdx_eq_length]
  intro a ha
  have := hk a ha
  simp only [decide_eq_false_iff_not]
  omega

/-- In a sorted list the elements with a number begin where the first of them is, and where there
is none they begin with those of the next number. -/
theorem bucketStart_eq (hsorted : l.Pairwise fun a b => key a ≤ key b) (k : ℕ) :
    bucketStart key l k =
      if l.findIdx (fun a => decide (key a = k)) = l.length then bucketStart key l (k + 1)
      else l.findIdx fun a => decide (key a = k) := by
  induction l with
  | nil => rfl
  | cons a rest ih =>
    obtain ⟨ha, hrest⟩ := List.pairwise_cons.mp hsorted
    have ih := ih hrest
    simp only [bucketStart, List.findIdx_cons, List.length_cons] at ih ⊢
    rcases Nat.lt_trichotomy (key a) k with hlt | heq | hgt
    · have h1 : decide (k ≤ key a) = false := by simp; omega
      have h2 : decide (k + 1 ≤ key a) = false := by simp; omega
      have h3 : decide (key a = k) = false := by simp; omega
      simp only [h1, h2, h3, cond_false, Nat.add_right_cancel_iff]
      rw [ih]
      split <;> rfl
    · have h1 : decide (k ≤ key a) = true := by simp; omega
      have h3 : decide (key a = k) = true := by simp; omega
      simp only [h1, h3, cond_true]
      rw [if_neg (by omega)]
    · -- every number is above `k`, so that none is found
      have h1 : decide (k ≤ key a) = true := by simp; omega
      have h2 : decide (k + 1 ≤ key a) = true := by simp; omega
      have h3 : decide (key a = k) = false := by simp; omega
      have hnone : rest.findIdx (fun b => decide (key b = k)) = rest.length := by
        rw [List.findIdx_eq_length]
        intro b hb
        have := ha b hb
        simp only [decide_eq_false_iff_not]
        omega
      simp only [h1, h2, h3, cond_true, cond_false, hnone, if_true]

theorem fillGaps_recordFirst {n : ℕ} (hsorted : l.Pairwise fun a b => key a ≤ key b)
    (hn : ∀ a ∈ l, key a < n) {k : ℕ} (hk : k ≤ n) :
    fillGaps l.length n (recordFirst key l.length 0 l fun _ => l.length) k =
      bucketStart key l k := by
  have hrecorded : ∀ j, recordFirst key l.length 0 l (fun _ => l.length) j =
      l.findIdx fun a => decide (key a = j) := by
    intro j
    rw [recordFirst_apply j l 0 _ (Nat.zero_add _), if_pos rfl, Nat.zero_add]
  -- the induction goes down from the bound, as the pass does
  obtain ⟨d, hd⟩ := Nat.exists_eq_add_of_le hk
  induction d generalizing k with
  | zero =>
    have hkn : k = n := hd.symm
    subst hkn
    rw [fillGaps_of_le k _ (Nat.le_refl k), hrecorded, bucketStart_eq_length hn,
      List.findIdx_eq_length]
    intro a ha
    have := hn a ha
    simp only [decide_eq_false_iff_not]
    omega
  | succ d ih =>
    rw [fillGaps_of_lt n _ (by omega), hrecorded, ih (by omega) (by omega),
      ← bucketStart_eq hsorted]

/-! ## The elements of a number -/

theorem slice_bucketStart (hsorted : l.Pairwise fun a b => key a ≤ key b) (k : ℕ) :
    slice l (bucketStart key l k) (bucketStart key l (k + 1)) =
      l.filter fun a => decide (key a = k) := by
  induction l with
  | nil => rfl
  | cons a rest ih =>
    obtain ⟨ha, hrest⟩ := List.pairwise_cons.mp hsorted
    have ih := ih hrest
    simp only [slice, bucketStart] at ih ⊢
    rcases Nat.lt_trichotomy (key a) k with hlt | heq | hgt
    · have h1 : decide (k ≤ key a) = false := by simp; omega
      have h2 : decide (k + 1 ≤ key a) = false := by simp; omega
      have h3 : decide (key a = k) = false := by simp; omega
      simp only [List.findIdx_cons, List.filter_cons, h1, h2, h3, cond_false, List.drop_succ_cons,
        Nat.add_sub_add_right, ih, Bool.false_eq_true, if_false]
    · have h1 : decide (k ≤ key a) = true := by simp; omega
      have h2 : decide (k + 1 ≤ key a) = false := by simp; omega
      have h3 : decide (key a = k) = true := by simp; omega
      -- what follows has no smaller number, so that its elements begin at once
      have hfirst : rest.findIdx (fun b => decide (k ≤ key b)) = 0 := by
        cases rest with
        | nil => rfl
        | cons b rest =>
          have hb := ha b List.mem_cons_self
          simp only [List.findIdx_cons, decide_eq_true (show k ≤ key b by omega), cond_true]
      rw [hfirst, List.drop_zero, Nat.sub_zero] at ih
      simp only [List.findIdx_cons, List.filter_cons, h1, h2, h3, cond_true, cond_false,
        List.drop_zero, Nat.sub_zero, List.take_succ_cons, ih, if_true]
    · have h1 : decide (k ≤ key a) = true := by simp; omega
      have h2 : decide (k + 1 ≤ key a) = true := by simp; omega
      have h3 : decide (key a = k) = false := by simp; omega
      have hnone : rest.filter (fun b => decide (key b = k)) = [] := by
        rw [List.filter_eq_nil_iff]
        intro b hb
        have := ha b hb
        simp only [decide_eq_true_eq]
        omega
      simp only [List.findIdx_cons, List.filter_cons, h1, h2, h3, cond_true, Nat.sub_self,
        List.take_zero, hnone, Bool.false_eq_true, if_false]

end RetroRocket
