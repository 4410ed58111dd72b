import Mathlib.Data.List.Basic
import Mathlib.Data.List.Induction
import Mathlib.Data.List.Nodup
import Mathlib.Logic.Function.Basic
import Mathlib.Tactic.Common

/-!
# Doubly linked lists in memory

`Chain null prev next p a xs q b` is a stretch of a doubly linked list: behind the node `p` comes
`a`, the links lead from there through the nodes `xs`, the last of which is `q`, and `b` comes next.
Where the stretch is empty, `q` is `p` and `b` is `a`. A stretch does not depend on the links of
other nodes, and either end can be linked to something else.
-/

namespace RetroRocket

variable {α : Type*}

def Chain (null : α) (prev next : α → α) : α → α → List α → α → α → Prop
  | p, a, [], q, b => p = q ∧ a = b
  | p, a, x :: xs, q, b => a = x ∧ x ≠ null ∧ prev x = p ∧ Chain null prev next x (next x) xs q b

namespace Chain

variable {null : α} {prev prev' next next' : α → α} {p a q b c m x : α} {xs l r : List α}

theorem append : Chain null prev next p a (l ++ r) q b ↔
    ∃ m c, Chain null prev next p a l m c ∧ Chain null prev next m c r q b := by
  induction l generalizing p a with
  | nil =>
    constructor
    · exact fun h => ⟨p, a, ⟨rfl, rfl⟩, h⟩
    · rintro ⟨m, c, ⟨rfl, rfl⟩, h⟩
      exact h
  | cons x l ih =>
    constructor
    · rintro ⟨ha, hx, hp, h⟩
      obtain ⟨m, c, hl, hr⟩ := ih.mp h
      exact ⟨m, c, ⟨ha, hx, hp, hl⟩, hr⟩
    · rintro ⟨m, c, ⟨ha, hx, hp, hl⟩, hr⟩
      exact ⟨ha, hx, hp, ih.mpr ⟨m, c, hl, hr⟩⟩

theorem congr (h : Chain null prev next p a xs q b) (hprev : ∀ x ∈ xs, prev' x = prev x)
    (hnext : ∀ x ∈ xs, next' x = next x) : Chain null prev' next' p a xs q b := by
  induction xs generalizing p a with
  | nil => exact h
  | cons x xs ih =>
    obtain ⟨ha, hx, hp, h⟩ := h
    refine ⟨ha, hx, (hprev x List.mem_cons_self).trans hp, ?_⟩
    rw [hnext x List.mem_cons_self]
    exact ih h (fun y hy => hprev y (List.mem_cons_of_mem x hy))
      fun y hy => hnext y (List.mem_cons_of_mem x hy)

theorem ne_null (h : Chain null prev next p a xs q b) (hx : x ∈ xs) : x ≠ null := by
  induction xs generalizing p a with
  | nil => cases hx
  | cons y xs ih =>
    obtain ⟨-, hy, -, h⟩ := h
    rcases List.mem_cons.mp hx with rfl | hx
    · exact hy
    · exact ih h hx

theorem head (h : Chain null prev next p a xs q b) : a = xs.head?.getD b := by
  cases xs with
  | nil => exact h.2
  | cons x xs => exact h.1

theorem last (h : Chain null prev next p a xs q b) : q = xs.getLast?.getD p := by
  induction xs generalizing p a with
  | nil => exact h.1.symm
  | cons x xs ih =>
    rw [ih h.2.2.2, List.getLast?_cons]
    rfl

theorem next_last (h : Chain null prev next p a (l ++ [x]) q b) : q = x ∧ next x = b := by
  obtain ⟨m, c, -, -, -, -, rfl, hb⟩ := append.mp h
  exact ⟨rfl, hb⟩

theorem prev_eq (h : Chain null prev next null a (l ++ x :: r) q b) :
    prev x = l.getLast?.getD null := by
  obtain ⟨m, c, hl, -, -, hp, -⟩ := append.mp h
  rw [hp, hl.last]

theorem next_eq (h : Chain null prev next p a (l ++ x :: r) q null) :
    next x = r.head?.getD null := by
  obtain ⟨m, c, -, -, -, -, hr⟩ := append.mp h
  exact hr.head

theorem prev_eq_null_iff (h : Chain null prev next null a (l ++ x :: r) q null)
    (hnodup : (l ++ x :: r).Nodup) : prev x = null ↔ a = x := by
  obtain ⟨m, c, hl, rfl, hx, rfl, -⟩ := append.mp h
  cases l using List.reverseRecOn with
  | nil => exact ⟨fun _ => hl.2, fun _ => hl.1.symm⟩
  | append_singleton l y =>
    obtain ⟨hy, -⟩ := hl.next_last
    have hne : y ≠ null := hl.ne_null (by simp)
    have hac : a ≠ c := by
      intro heq
      have hmem : c ∈ l ++ [y] := by
        rw [← heq, hl.head]
        cases l with
        | nil => simp
        | cons z l => simp
      exact (List.nodup_append.mp hnodup).2.2 c hmem c List.mem_cons_self rfl
    rw [hy]
    exact ⟨fun heq => absurd heq hne, fun heq => absurd heq hac⟩

variable [DecidableEq α]

theorem relink_end (h : Chain null prev next null a l m c) (hnodup : l.Nodup) (d : α) :
    Chain null prev (if m = null then next else Function.update next m d) null
      (if m = null then d else a) l m d := by
  induction l using List.reverseRecOn with
  | nil =>
    obtain ⟨rfl, -⟩ := h
    rw [if_pos rfl, if_pos rfl]
    exact ⟨rfl, rfl⟩
  | append_singleton l x _ =>
    obtain ⟨k, e, hl, he, hx, hk, rfl, -⟩ := append.mp h
    have hnot : x ∉ l := fun hmem => (List.nodup_append.mp hnodup).2.2 x hmem x (by simp) rfl
    rw [if_neg hx, if_neg hx]
    refine append.mpr ⟨k, e, hl.congr (fun _ _ => rfl) fun y hy => ?_, he, hx, hk, rfl, ?_⟩
    · exact Function.update_of_ne (ne_of_mem_of_not_mem hy hnot) _ _
    · exact Function.update_self _ _ _

theorem relink_start (h : Chain null prev next m c r q null) (hnodup : r.Nodup) (d : α) :
    ∃ q', Chain null (if c = null then prev else Function.update prev c d) next d c r q' null := by
  cases r with
  | nil =>
    obtain ⟨-, rfl⟩ := h
    exact ⟨d, rfl, rfl⟩
  | cons x r =>
    obtain ⟨rfl, hx, -, h⟩ := h
    rw [if_neg hx]
    refine ⟨q, rfl, hx, Function.update_self _ _ _, h.congr (fun y hy => ?_) fun _ _ => rfl⟩
    exact Function.update_of_ne (ne_of_mem_of_not_mem hy (List.nodup_cons.mp hnodup).1) _ _

theorem update_prev_of_not_mem (h : Chain null prev next p a xs q b) (hx : x ∉ xs) :
    Chain null (Function.update prev x m) next p a xs q b :=
  h.congr (fun _ hy => Function.update_of_ne (ne_of_mem_of_not_mem hy hx) _ _) fun _ _ => rfl

theorem update_next_of_not_mem (h : Chain null prev next p a xs q b) (hx : x ∉ xs) :
    Chain null prev (Function.update next x c) p a xs q b :=
  h.congr (fun _ _ => rfl) fun _ hy => Function.update_of_ne (ne_of_mem_of_not_mem hy hx) _ _

theorem push (h : Chain null prev next null a xs q null) (hnodup : xs.Nodup) (hx : x ∉ xs)
    (hne : x ≠ null) :
    ∃ q', Chain null
      (let prev := Function.update prev x null
        if a = null then prev else Function.update prev a x)
      (Function.update next x a) null x (x :: xs) q' null := by
  obtain ⟨q', h'⟩ := ((h.update_prev_of_not_mem hx (m := null)).update_next_of_not_mem hx
    (c := a)).relink_start hnodup x
  refine ⟨q', rfl, hne, ?_, ?_⟩
  · dsimp only
    split
    · exact Function.update_self _ _ _
    · next ha =>
      have hxa : x ≠ a := by
        rintro rfl
        cases xs with
        | nil => exact ha h.2
        | cons y xs => exact hx (h.1 ▸ List.mem_cons_self)
      rw [Function.update_of_ne hxa, Function.update_self]
  · rw [Function.update_self]
    exact h'

theorem remove (h : Chain null prev next null a (l ++ x :: r) q null)
    (hnodup : (l ++ x :: r).Nodup) :
    ∃ q', Chain null
      (if next x = null then prev else Function.update prev (next x) (prev x))
      (if prev x = null then next else Function.update next (prev x) (next x)) null
      (if prev x = null then next x else a) (l ++ r) q' null := by
  obtain ⟨m, c, hl, rfl, hx, rfl, hr⟩ := append.mp h
  rw [List.nodup_append] at hnodup
  obtain ⟨hlnodup, hrnodup, hdisj⟩ := hnodup
  obtain ⟨q', hr'⟩ := hr.relink_start (List.nodup_cons.mp hrnodup).2 (prev c)
  have hl' := hl.relink_end hlnodup (next c)
  have hnextl : next c ∉ l := by
    intro hmem
    have hne := hl.ne_null hmem
    rw [hr.head] at hmem hne
    cases r with
    | nil => exact hne rfl
    | cons y r => exact hdisj _ hmem y (by simp) rfl
  have hprevr : prev c ∉ r := by
    intro hmem
    have hne := hr.ne_null hmem
    rw [hl.last] at hmem hne
    cases l using List.reverseRecOn with
    | nil => exact hne rfl
    | append_singleton l y =>
      rw [List.getLast?_concat] at hmem
      exact hdisj y (by simp) y (List.mem_cons_of_mem c hmem) rfl
  refine ⟨q', append.mpr ⟨prev c, next c, ?_, ?_⟩⟩
  · by_cases hn : next c = null
    · rw [if_pos hn]
      exact hl'
    · rw [if_neg hn]
      exact hl'.update_prev_of_not_mem hnextl
  · by_cases hp : prev c = null
    · rw [if_pos hp]
      exact hr'
    · rw [if_neg hp]
      exact hr'.update_next_of_not_mem hprevr

end Chain

end RetroRocket
