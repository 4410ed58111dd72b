import RetroRocket.BoundedCells

/-!
# Sorting by keys

`quicksort_indices_by_string_keys` and its siblings, which divide the elements with Hoare's scans. A
scan has no bound of its own: it stops at an element that is not out of order with the pivot. There
is one as long as no element is out of order with itself, so the scans stay inside of the range.
-/

namespace RetroRocket

section

variable {α : Type} (outOfOrder : α → α → Option Bool) (bound : ℕ)

/-- `while (…(pivot_index, values[i], …)) i++`. -/
def scanRight (pivot : α) (w : ℕ → α) : ℕ → ℕ → Option ℕ
  | 0, _ => none
  | fuel + 1, i => do
    if ← outOfOrder pivot (← loadCell bound w i) then scanRight pivot w fuel (i + 1) else some i

/-- `while (…(values[j], pivot_index, …)) j--`, where an index below 0 is a fault. -/
def scanLeft (pivot : α) (w : ℕ → α) : ℕ → Option ℕ
  | 0 => do
    if ← outOfOrder (← loadCell bound w 0) pivot then none else some 0
  | j + 1 => do
    if ← outOfOrder (← loadCell bound w (j + 1)) pivot then scanLeft pivot w j else some (j + 1)

/-- The loop over both scans, with the `j` that it ends with. -/
def hoareLoop (pivot : α) : ℕ → (ℕ → α) → ℕ → ℕ → Option ((ℕ → α) × ℕ)
  | 0, _, _, _ => none
  | fuel + 1, w, i, j => do
    let i ← scanRight outOfOrder bound pivot w (bound + 1) i
    let j ← scanLeft outOfOrder bound pivot w j
    if j ≤ i then some (w, j)
    else hoareLoop pivot fuel (← swapCells bound w i j) (i + 1) (j - 1)

/-- `quicksort_indices_by_int_keys` and its siblings. -/
def quicksortIndices : ℕ → (ℕ → α) → ℕ → ℕ → Option (ℕ → α)
  | 0, _, _, _ => none
  | fuel + 1, w, low, high => do
    if low < high then
      let pivot ← loadCell bound w (low + (high - low) / 2)
      let (w, j) ← hoareLoop outOfOrder bound pivot (bound + 1) w low high
      if j - low < high - j then
        let w ← if low < j then quicksortIndices fuel w low j else some w
        quicksortIndices fuel w (j + 1) high
      else
        let w ← if j + 1 < high then quicksortIndices fuel w (j + 1) high else some w
        quicksortIndices fuel w low j
    else some w

end

variable {α : Type} {outOfOrder : α → α → Option Bool} {bound : ℕ} {P : α → Prop} {w : ℕ → α}
  {pivot : α} {i j k low high fuel : ℕ}

/-! ## The scans -/

variable (hreads : ∀ x y, P x → P y → ∃ b, outOfOrder x y = some b)

include hreads

theorem scanRight_gives (hpivot : P pivot) (hP : ∀ m, i ≤ m → m ≤ k → P (w m))
    (hk : i ≤ k ∧ k < bound) (hstop : outOfOrder pivot (w k) = some false) (hfuel : k < fuel + i) :
    Gives (scanRight outOfOrder bound pivot w fuel i) fun i' =>
      (i ≤ i' ∧ i' ≤ k) ∧ outOfOrder pivot (w i') = some false := by
  induction fuel generalizing i with
  | zero => omega
  | succ fuel ih =>
    obtain ⟨b, hb⟩ := hreads pivot (w i) hpivot (hP i (Nat.le_refl i) hk.1)
    rw [scanRight, loadCell_eq (by omega)]
    simp only [Option.bind_eq_bind, Option.bind_some]
    rw [hb, Option.bind_some]
    cases b with
    | false => exact Gives.of_some ⟨⟨Nat.le_refl i, hk.1⟩, hb⟩
    | true =>
      have hne : i ≠ k := by
        rintro rfl
        rw [hb] at hstop
        cases hstop
      rw [if_pos rfl]
      apply (ih (fun m hm => hP m (by omega)) (by omega) (by omega)).mono
      rintro i' ⟨hi', hlast⟩
      exact ⟨by omega, hlast⟩

theorem scanLeft_gives (hpivot : P pivot) (hP : ∀ m, k ≤ m → m ≤ j → P (w m))
    (hk : k ≤ j ∧ j < bound) (hstop : outOfOrder (w k) pivot = some false) :
    Gives (scanLeft outOfOrder bound pivot w j) fun j' =>
      (k ≤ j' ∧ j' ≤ j) ∧ outOfOrder (w j') pivot = some false := by
  induction j with
  | zero =>
    obtain rfl : k = 0 := by omega
    rw [scanLeft, loadCell_eq hk.2]
    simp only [Option.bind_eq_bind, Option.bind_some]
    rw [hstop, Option.bind_some]
    exact Gives.of_some ⟨⟨Nat.le_refl 0, Nat.le_refl 0⟩, hstop⟩
  | succ j ih =>
    obtain ⟨b, hb⟩ := hreads (w (j + 1)) pivot (hP (j + 1) hk.1 (Nat.le_refl _)) hpivot
    rw [scanLeft, loadCell_eq hk.2]
    simp only [Option.bind_eq_bind, Option.bind_some]
    rw [hb, Option.bind_some]
    cases b with
    | false => exact Gives.of_some ⟨⟨hk.1, Nat.le_refl _⟩, hb⟩
    | true =>
      have hne : k ≠ j + 1 := by
        rintro rfl
        rw [hb] at hstop
        cases hstop
      rw [if_pos rfl]
      apply (ih (fun m hm hle => hP m hm (by omega)) (by omega)).mono
      rintro j' ⟨hj', hlast⟩
      exact ⟨by omega, hlast⟩

/-! ## The division -/

structure Stops (outOfOrder : α → α → Option Bool) (pivot : α) (w : ℕ → α) (low high i j : ℕ) :
    Prop where
  right : ∃ k, (i ≤ k ∧ k ≤ high) ∧ outOfOrder pivot (w k) = some false ∧ (k < high ∨ j < high)
  left : ∃ k, (low ≤ k ∧ k ≤ j) ∧ outOfOrder (w k) pivot = some false

theorem hoareLoop_gives (hhigh : high < bound) (hpivot : P pivot)
    (hP : ∀ m, low ≤ m ∧ m < high + 1 → P (w m)) (hi : low ≤ i) (hj : j ≤ high)
    (hstops : Stops outOfOrder pivot w low high i j) (hij : i ≤ j + 1) (hfuel : j + 1 < fuel + i) :
    Gives (hoareLoop outOfOrder bound pivot fuel w i j) fun r =>
      (low ≤ r.2 ∧ r.2 < high) ∧ Rearranges low (high + 1) w r.1 := by
  induction fuel generalizing w i j with
  | zero => omega
  | succ fuel ih =>
    obtain ⟨⟨k, hk, hright, hlast⟩, k', hk', hleft⟩ := hstops
    rw [hoareLoop]
    apply (scanRight_gives hreads hpivot (fun m hm hle => hP m (by omega)) (by omega) hright
      (by omega)).bind
    rintro i' ⟨hi', hright'⟩
    apply (scanLeft_gives hreads hpivot (fun m hm hle => hP m (by omega)) (by omega) hleft).bind
    rintro j' ⟨hj', hleft'⟩
    split
    · exact Gives.of_some ⟨by dsimp only; omega, Rearranges.refl _ _ _⟩
    · next hlt =>
      rw [swapCells_eq (by omega) (by omega)]
      have hswap : Rearranges low (high + 1) w (w ∘ Equiv.swap i' j') :=
        Rearranges.swap (by omega) (by omega)
      -- each scan will stop at the element that the other one has found
      have hstops : Stops outOfOrder pivot (w ∘ Equiv.swap i' j') low high (i' + 1) (j' - 1) := by
        constructor
        · refine ⟨j', by omega, ?_, by omega⟩
          rw [Function.comp_apply, Equiv.swap_apply_right]
          exact hright'
        · refine ⟨i', by omega, ?_⟩
          rw [Function.comp_apply, Equiv.swap_apply_left]
          exact hleft'
      apply (ih (hswap.forall hP) (by omega) (by omega) hstops (by omega) (by omega)).mono
      rintro ⟨w', r⟩ ⟨hr, hrest⟩
      exact ⟨hr, hswap.trans hrest⟩

end RetroRocket
