import Mathlib.Logic.Equiv.Basic
import Mathlib.Logic.Function.Basic
import Mathlib.Order.Basic
import Mathlib.Tactic.Common

/-!
# Cells behind a pointer

The cells that a pointer leads to are a function from indices. An access at an index that is not
below the bound of the cells is a fault, `none`, and so is a loop that does not end. What a program
gives is stated by `Gives`, and that it puts cells in another order, between two indices, by
`Rearranges`.
-/

namespace RetroRocket

variable {α β γ : Type}

/-! ## Results -/

/-- There is a result, and it is in `Q`. -/
def Gives (x : Option β) (Q : β → Prop) : Prop := ∃ b, x = some b ∧ Q b

theorem Gives.of_some {Q : β → Prop} {b : β} (h : Q b) : Gives (some b) Q := ⟨b, rfl, h⟩

theorem Gives.bind {x : Option β} {f : β → Option γ} {Q : β → Prop} {R : γ → Prop} (h : Gives x Q)
    (hf : ∀ b, Q b → Gives (f b) R) : Gives (x >>= f) R := by
  obtain ⟨b, rfl, hb⟩ := h
  exact hf b hb

theorem Gives.mono {x : Option β} {Q R : β → Prop} (h : Gives x Q) (hQ : ∀ b, Q b → R b) :
    Gives x R := by
  obtain ⟨b, hx, hb⟩ := h
  exact ⟨b, hx, hQ b hb⟩

theorem Gives.foldlM {f : β → α → Option β} {Q : β → Prop} {xs : List α} {b : β} (hb : Q b)
    (hf : ∀ b, Q b → ∀ x ∈ xs, Gives (f b x) Q) : Gives (xs.foldlM f b) Q := by
  induction xs generalizing b with
  | nil => exact Gives.of_some hb
  | cons x xs ih =>
    rw [List.foldlM_cons]
    apply (hf b hb x List.mem_cons_self).bind
    intro b' hb'
    exact ih hb' fun b hb y hy => hf b hb y (List.mem_cons_of_mem x hy)

/-! ## Accesses -/

def loadCell (bound : ℕ) (w : ℕ → α) (i : ℕ) : Option α := if i < bound then some (w i) else none

def swapCells (bound : ℕ) (w : ℕ → α) (i j : ℕ) : Option (ℕ → α) :=
  if i < bound ∧ j < bound then some (w ∘ Equiv.swap i j) else none

variable {bound i j n : ℕ} {w : ℕ → α} {x : α}

theorem loadCell_eq (h : i < bound) : loadCell bound w i = some (w i) := if_pos h

theorem swapCells_eq (hi : i < bound) (hj : j < bound) :
    swapCells bound w i j = some (w ∘ Equiv.swap i j) := if_pos ⟨hi, hj⟩

/-! ## Rearrangements -/

/-- The cells `w'` are the cells `w`, those from `lo` up to `up` in another order. -/
def Rearranges (lo up : ℕ) (w w' : ℕ → α) : Prop :=
  ∃ σ : Equiv.Perm ℕ, (∀ i, σ i ≠ i → lo ≤ i ∧ i < up) ∧ w' = w ∘ σ

variable {lo up lo' up' : ℕ} {w' w'' : ℕ → α}

theorem Rearranges.refl (lo up : ℕ) (w : ℕ → α) : Rearranges lo up w w :=
  ⟨Equiv.refl ℕ, fun _ h => absurd rfl h, rfl⟩

theorem Rearranges.trans (h : Rearranges lo up w w') (h' : Rearranges lo up w' w'') :
    Rearranges lo up w w'' := by
  obtain ⟨σ, hσ, rfl⟩ := h
  obtain ⟨τ, hτ, rfl⟩ := h'
  refine ⟨τ.trans σ, fun i hi => ?_, rfl⟩
  by_cases hmove : τ i = i
  · apply hσ i
    intro h
    rw [Equiv.trans_apply, hmove, h] at hi
    exact hi rfl
  · exact hτ i hmove

theorem Rearranges.mono (h : Rearranges lo up w w') (hlo : lo' ≤ lo) (hup : up ≤ up') :
    Rearranges lo' up' w w' := by
  obtain ⟨σ, hσ, rfl⟩ := h
  refine ⟨σ, fun i hi => ?_, rfl⟩
  obtain ⟨hl, hu⟩ := hσ i hi
  exact ⟨Nat.le_trans hlo hl, Nat.lt_of_lt_of_le hu hup⟩

theorem Rearranges.swap (hi : lo ≤ i ∧ i < up) (hj : lo ≤ j ∧ j < up) :
    Rearranges lo up w (w ∘ Equiv.swap i j) := by
  refine ⟨Equiv.swap i j, fun k hk => ?_, rfl⟩
  rcases (Equiv.swap_apply_ne_self_iff.mp hk).2 with rfl | rfl
  · exact hi
  · exact hj

theorem Rearranges.exists_index (h : Rearranges lo up w w') : ∃ σ : ℕ → ℕ, Function.Injective σ ∧
    (∀ i, w' i = w (σ i)) ∧ (∀ i, lo ≤ i ∧ i < up → lo ≤ σ i ∧ σ i < up) ∧
    ∀ i, ¬ (lo ≤ i ∧ i < up) → σ i = i := by
  obtain ⟨σ, hσ, rfl⟩ := h
  refine ⟨σ, σ.injective, fun i => rfl, fun i hi => ?_, fun i hi => ?_⟩
  · by_cases hfix : σ i = i
    · rw [hfix]
      exact hi
    · exact hσ (σ i) fun h => hfix (σ.injective h)
  · by_contra hmove
    exact hi (hσ i hmove)

theorem Rearranges.outside (h : Rearranges lo up w w') (hi : ¬ (lo ≤ i ∧ i < up)) : w' i = w i := by
  obtain ⟨σ, -, hw, -, hfix⟩ := h.exists_index
  rw [hw, hfix i hi]

theorem Rearranges.forall {P : α → Prop} (h : Rearranges lo up w w')
    (hP : ∀ i, lo ≤ i ∧ i < up → P (w i)) (i : ℕ) (hi : lo ≤ i ∧ i < up) : P (w' i) := by
  obtain ⟨σ, -, hw, hmem, -⟩ := h.exists_index
  rw [hw]
  exact hP _ (hmem i hi)

end RetroRocket
