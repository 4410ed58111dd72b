import Mathlib.Data.List.Basic
import Mathlib.Data.List.Nodup
import Mathlib.Data.Finset.Card
import Mathlib.Data.Finset.Lattice.Fold
import Mathlib.Order.Lattice.Nat
import Mathlib.Tactic.Common

/-!
# Singly linked lists in memory

`Linked null next a xs b` says that the links `next` lead from `a` through the nodes `xs`, none of
them null, to `b`. Segments append, do not depend on the links of other nodes, and change in the
expected way when a node is linked in or out.
-/

namespace RetroRocket

variable {α : Type*}

def Linked (null : α) (next : α → α) : α → List α → α → Prop
  | a, [], b => a = b
  | a, x :: xs, b => a = x ∧ x ≠ null ∧ Linked null next (next x) xs b

variable {null : α} {next next' : α → α} {a b c x y : α} {xs ys l r : List α}

@[simp] theorem linked_nil : Linked null next a [] b ↔ a = b := Iff.rfl

@[simp] theorem linked_cons :
    Linked null next a (x :: xs) b ↔ a = x ∧ x ≠ null ∧ Linked null next (next x) xs b := Iff.rfl

theorem linked_append :
    Linked null next a (l ++ r) c ↔ ∃ b, Linked null next a l b ∧ Linked null next b r c := by
  induction l generalizing a with
  | nil => simp
  | cons x l ih => simp only [List.cons_append, linked_cons, ih, exists_and_left, and_assoc]

theorem Linked.ne_null (h : Linked null next a xs b) (hx : x ∈ xs) : x ≠ null := by
  induction xs generalizing a with
  | nil => cases hx
  | cons y xs ih =>
    obtain ⟨-, hy, hrest⟩ := h
    rcases List.mem_cons.mp hx with rfl | hx
    · exact hy
    · exact ih hrest hx

theorem Linked.congr (h : Linked null next a xs b) (heq : ∀ x ∈ xs, next' x = next x) :
    Linked null next' a xs b := by
  induction xs generalizing a with
  | nil => exact h
  | cons y xs ih =>
    obtain ⟨rfl, hy, hrest⟩ := h
    refine ⟨rfl, hy, ?_⟩
    rw [heq a List.mem_cons_self]
    exact ih hrest fun x hx => heq x (List.mem_cons_of_mem a hx)

theorem Linked.unique (h : Linked null next a xs null) (h' : Linked null next a ys null) :
    xs = ys := by
  induction xs generalizing a ys with
  | nil =>
    cases ys with
    | nil => rfl
    | cons y ys => exact absurd (h'.1.symm.trans h) h'.2.1
  | cons x xs ih =>
    obtain ⟨rfl, hx, hrest⟩ := h
    cases ys with
    | nil => exact absurd h' hx
    | cons y ys =>
      obtain ⟨rfl, -, hrest'⟩ := h'
      rw [ih hrest hrest']

theorem Linked.head (h : Linked null next a xs null) : a = xs.head?.getD null := by
  cases xs with
  | nil => exact h
  | cons y xs => exact h.1

theorem Linked.next_eq (h : Linked null next a (l ++ x :: r) null) :
    next x = r.head?.getD null := by
  obtain ⟨b, -, -, -, hr⟩ := linked_append.mp h
  exact hr.head

theorem length_lt_of_nodup {n : ℕ} {xs : List ℕ} (hnodup : xs.Nodup) (hzero : 0 ∉ xs)
    (hlt : ∀ x ∈ xs, x < n) (hn : 0 < n) : xs.length < n := by
  have hsub : ∀ x ∈ 0 :: xs, x ∈ List.range n := by
    intro x hx
    rw [List.mem_range]
    rcases List.mem_cons.mp hx with rfl | hx
    · exact hn
    · exact hlt x hx
  have hlen := ((List.nodup_cons.mpr ⟨hzero, hnodup⟩).subperm hsub).length_le
  rw [List.length_range, List.length_cons] at hlen
  exact hlen

theorem succ_sup_not_mem (live : Finset ℕ) : live.sup id + 1 ∉ live := by
  intro h
  have hle : live.sup id + 1 ≤ live.sup id := Finset.le_sup (f := id) h
  omega

variable [DecidableEq α]

theorem Linked.update_of_not_mem (h : Linked null next a xs b) (hx : x ∉ xs) :
    Linked null (Function.update next x y) a xs b := by
  refine h.congr fun z hz => Function.update_of_ne ?_ _ _
  rintro rfl
  exact hx hz

theorem Linked.push (h : Linked null next a xs b) (hx : x ∉ xs) (hne : x ≠ null) :
    Linked null (Function.update next x a) x (x :: xs) b := by
  refine ⟨rfl, hne, ?_⟩
  rw [Function.update_self]
  exact h.update_of_not_mem hx

/-- A node `y` is linked in behind `x`. -/
theorem Linked.insert (h : Linked null next a (l ++ x :: r) b) (hnodup : (l ++ x :: r).Nodup)
    (hy : y ∉ l ++ x :: r) (hne : y ≠ null) :
    Linked null (Function.update (Function.update next y (next x)) x y) a (l ++ x :: y :: r) b := by
  obtain ⟨c, hl, rfl, hx, hr⟩ := linked_append.mp h
  rw [List.nodup_append] at hnodup
  obtain ⟨-, hnodup, hdisj⟩ := hnodup
  have hxr : c ∉ r := (List.nodup_cons.mp hnodup).1
  have hcl : c ∉ l := fun hc => hdisj c hc c List.mem_cons_self rfl
  have hyl : y ∉ l := fun hy' => hy (List.mem_append_left _ hy')
  have hyr : y ∉ r := fun hy' => hy (List.mem_append_right _ (List.mem_cons_of_mem _ hy'))
  have hyc : y ≠ c := fun hyc => hy (List.mem_append_right _ (hyc ▸ List.mem_cons_self))
  refine linked_append.mpr ⟨c, (hl.update_of_not_mem hyl).update_of_not_mem hcl, rfl, hx, ?_⟩
  rw [Function.update_self]
  refine ⟨rfl, hne, ?_⟩
  rw [Function.update_of_ne hyc, Function.update_self]
  exact (hr.update_of_not_mem hyr).update_of_not_mem hxr

/-- The node behind `x` is linked out. -/
theorem Linked.remove (h : Linked null next a (l ++ x :: y :: r) b)
    (hnodup : (l ++ x :: y :: r).Nodup) :
    Linked null (Function.update next x (next y)) a (l ++ x :: r) b := by
  obtain ⟨c, hl, rfl, hx, hxy, -, hr⟩ := linked_append.mp h
  rw [List.nodup_append] at hnodup
  obtain ⟨-, hnodup, hdisj⟩ := hnodup
  have hxr : c ∉ r := fun hc => (List.nodup_cons.mp hnodup).1 (List.mem_cons_of_mem y hc)
  have hcl : c ∉ l := fun hc => hdisj c hc c List.mem_cons_self rfl
  refine linked_append.mpr ⟨c, hl.update_of_not_mem hcl, rfl, hx, ?_⟩
  rw [Function.update_self]
  exact hr.update_of_not_mem hxr

end RetroRocket
