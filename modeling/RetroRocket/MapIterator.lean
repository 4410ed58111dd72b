import Mathlib.Data.List.Induction
import RetroRocket.MapRefinement
import RetroRocket.RedBlackWalk

/-!
# Iterators of the ordered map

An iterator of `map.c` is at an entry, behind the last one or in front of the first one. `map_next`
and `map_prev` go through the entries in the order of their keys. In an empty map `map_prev` does
not get from behind the last entry to the front of the first one.
-/

namespace RetroRocket

variable {κ ν : Type}

/-- The state of a `map_iter`, with its index where that is not `NIL`. -/
inductive MapIter where
  | ok (i : ℕ)
  | atEnd
  | beforeBegin
  deriving DecidableEq

namespace OrderedMap

open Links

variable (m : OrderedMap κ ν)

def minimumNode (i : ℕ) : Option ℕ := minimum m.fuel i m.links

def maximumNode (i : ℕ) : Option ℕ := extreme .right m.fuel i m.links

def successor (i : ℕ) : Option (Option ℕ) := neighbor .right m.fuel i m.links

def predecessor (i : ℕ) : Option (Option ℕ) := neighbor .left m.fuel i m.links

/-- `map_begin`: the iterator, and what is returned. -/
def begin : Option (MapIter × ℕ) :=
  match m.links.root with
  | none => some (.atEnd, 0)
  | some r => do some (.ok (← m.minimumNode r), 1)

/-- `map_next`. -/
def next : MapIter → Option (MapIter × ℕ)
  | .atEnd => some (.atEnd, 0)
  | .beforeBegin =>
    match m.links.root with
    | none => some (.atEnd, 0)
    | some r => do some (.ok (← m.minimumNode r), 1)
  | .ok i => do
    match ← m.successor i with
    | none => some (.atEnd, 0)
    | some nxt => some (.ok nxt, 1)

/-- `map_prev`. -/
def prev : MapIter → Option (MapIter × ℕ)
  | .beforeBegin => some (.beforeBegin, 0)
  | .atEnd =>
    match m.links.root with
    | none => some (.atEnd, 0)
    | some r => do some (.ok (← m.maximumNode r), 1)
  | .ok i => do
    match ← m.predecessor i with
    | none => some (.beforeBegin, 0)
    | some prv => some (.ok prv, 1)

def visit (step : MapIter → Option (MapIter × ℕ)) :
    ℕ → MapIter × ℕ → Option (List (κ × ν) × MapIter)
  | 0, _ => none
  | fuel + 1, (.ok i, 1) => do
    let (entries, last) ← visit step fuel (← step (.ok i))
    some (m.entry i :: entries, last)
  | _ + 1, (it, _) => some ([], it)

def Valid : MapIter → Prop
  | .ok i => i < m.size ∧ i ∉ m.freeIx
  | _ => True

/-- From both ends the loops go through the entries in the order of their keys up to the other end,
and each step is undone by a step in the other direction. -/
structure Iterates (cmp : κ → κ → Ordering) (L : List (κ × ν)) : Prop where
  ascending : L.Pairwise fun e e' => cmp e.1 e'.1 = .lt
  forwards : (m.begin.bind (m.visit m.next m.fuel)) = some (L, .atEnd)
  backwards : ((m.prev .atEnd).bind (m.visit m.prev m.fuel)) = some (L.reverse, .beforeBegin)
  next_prev : ∀ it, m.Valid it → it ≠ .atEnd →
    ∃ it' r r', m.next it = some (it', r) ∧ m.prev it' = some (it, r')
  prev_next : ∀ it, m.Valid it → it ≠ .beforeBegin →
    ∃ it' r r', m.prev it = some (it', r) ∧ m.next it' = some (it, r')

variable {m} {cmp : κ → κ → Ordering} {l u v : List ℕ} {i : ℕ} {L : List (κ × ν)} {fuel : ℕ}

/-! ## Single steps -/

def landing (last : MapIter) : Option ℕ → MapIter × ℕ
  | none => (last, 0)
  | some i => (.ok i, 1)

theorem next_ok (h : m.Holds cmp (u ++ i :: v)) :
    m.next (.ok i) = some (landing .atEnd v.head?) := by
  have hnext := h.tree.neighbor (d := .right) h.length_lt rfl
  change ((neighbor .right m.fuel i m.links).bind fun o => _) = _
  rw [hnext, Option.bind_some]
  cases v with
  | nil => rfl
  | cons j v => rfl

theorem prev_ok (h : m.Holds cmp (u ++ i :: v)) :
    m.prev (.ok i) = some (landing .beforeBegin u.getLast?) := by
  have hsplit : Side.left.order (u ++ i :: v) = v.reverse ++ i :: u.reverse := by
    change (u ++ i :: v).reverse = _
    rw [List.reverse_append, List.reverse_cons, List.append_assoc, List.singleton_append]
  have hprev := h.tree.neighbor (d := .left) h.length_lt hsplit
  change ((neighbor .left m.fuel i m.links).bind fun o => _) = _
  rw [hprev, Option.bind_some, List.head?_reverse]
  cases u.getLast? with
  | none => rfl
  | some j => rfl

theorem begin_eq (h : m.Holds cmp l) : m.begin = some (landing .atEnd l.head?) := by
  unfold begin
  cases hroot : m.links.root with
  | none =>
    rw [h.tree.root_eq_none.mp hroot]
    rfl
  | some r =>
    have hmin := h.tree.extreme .right h.length_lt hroot
    change minimum m.fuel r m.links = l.head? at hmin
    change ((minimum m.fuel r m.links).bind fun i => some (MapIter.ok i, 1)) = _
    cases l with
    | nil => exact absurd (h.tree.root_eq_none.mpr rfl) (hroot ▸ Option.some_ne_none r)
    | cons j l =>
      rw [hmin]
      rfl

theorem next_beforeBegin : m.next .beforeBegin = m.begin := rfl

theorem prev_atEnd (h : m.Holds cmp l) (hne : l ≠ []) :
    m.prev .atEnd = some (landing .beforeBegin l.getLast?) := by
  unfold prev
  cases hroot : m.links.root with
  | none => exact absurd (h.tree.root_eq_none.mp hroot) hne
  | some r =>
    have hmax := h.tree.extreme .left h.length_lt hroot
    change extreme .right m.fuel r m.links = l.reverse.head? at hmax
    rw [List.head?_reverse] at hmax
    change ((extreme .right m.fuel r m.links).bind fun i => some (MapIter.ok i, 1)) = _
    rw [hmax, List.getLast?_eq_some_getLast hne]
    rfl

theorem prev_atEnd_nil (h : m.Holds cmp []) : m.prev .atEnd = some (.atEnd, 0) := by
  unfold prev
  rw [h.tree.root_eq_none.mpr rfl]

/-! ## Loops -/

theorem visit_next (h : m.Holds cmp (u ++ v)) (hfuel : v.length < fuel) :
    m.visit m.next fuel (landing .atEnd v.head?) = some (v.map m.entry, .atEnd) := by
  induction v generalizing u fuel with
  | nil =>
    cases fuel with
    | zero => exact absurd hfuel (Nat.not_lt_zero _)
    | succ fuel => rfl
  | cons i v ih =>
    cases fuel with
    | zero => exact absurd hfuel (Nat.not_lt_zero _)
    | succ fuel =>
      have hrest : m.Holds cmp ((u ++ [i]) ++ v) := by
        rw [List.append_assoc, List.singleton_append]
        exact h
      change ((m.next (.ok i)).bind fun it => (m.visit m.next fuel it).bind fun r => _) = _
      rw [next_ok h, Option.bind_some, ih hrest (Nat.lt_of_succ_lt_succ hfuel), Option.bind_some]
      rfl

theorem visit_prev (h : m.Holds cmp (u ++ v)) (hfuel : u.length < fuel) :
    m.visit m.prev fuel (landing .beforeBegin u.getLast?) =
      some ((u.map m.entry).reverse, .beforeBegin) := by
  induction u using List.reverseRecOn generalizing v fuel with
  | nil =>
    cases fuel with
    | zero => exact absurd hfuel (Nat.not_lt_zero _)
    | succ fuel => rfl
  | append_singleton u i ih =>
    rw [List.length_append, List.length_singleton] at hfuel
    cases fuel with
    | zero => exact absurd hfuel (Nat.not_lt_zero _)
    | succ fuel =>
      have hrest : m.Holds cmp (u ++ i :: v) := by
        rw [List.append_assoc, List.singleton_append] at h
        exact h
      rw [List.getLast?_concat]
      change ((m.prev (.ok i)).bind fun it => (m.visit m.prev fuel it).bind fun r => _) = _
      rw [prev_ok hrest, Option.bind_some, ih hrest (Nat.lt_of_succ_lt_succ hfuel),
        Option.bind_some,
        List.map_append, List.reverse_append]
      rfl

/-! ## Both directions -/

theorem Holds.mem_iff (h : m.Holds cmp l) : i ∈ l ↔ i < m.size ∧ i ∉ m.freeIx := by
  have hmem := h.slots.mem_iff (a := i)
  have hnodup := h.slots.nodup_iff.mpr List.nodup_range
  rw [List.mem_append, List.mem_range] at hmem
  constructor
  · intro hi
    exact ⟨hmem.mp (Or.inl hi), fun hfree => (List.nodup_append.mp hnodup).2.2 i hi i hfree rfl⟩
  · exact fun hi => (hmem.mpr hi.1).resolve_right hi.2

theorem next_prev_of_ne (h : m.Holds cmp l) (hne : l ≠ []) {it : MapIter} (hit : m.Valid it)
    (hend : it ≠ .atEnd) : ∃ it' r r', m.next it = some (it', r) ∧ m.prev it' = some (it, r') := by
  cases it with
  | ok i =>
    obtain ⟨u, v, rfl⟩ := List.append_of_mem (h.mem_iff.mpr hit)
    rw [next_ok h]
    cases v with
    | nil =>
      have hprev := prev_atEnd h hne
      rw [List.getLast?_concat] at hprev
      exact ⟨_, _, _, rfl, hprev⟩
    | cons j v =>
      rw [← List.singleton_append, ← List.append_assoc] at h
      have hprev := prev_ok h
      rw [List.getLast?_concat] at hprev
      exact ⟨_, _, _, rfl, hprev⟩
  | atEnd => exact absurd rfl hend
  | beforeBegin =>
    rw [next_beforeBegin, begin_eq h]
    cases l with
    | nil => exact absurd rfl hne
    | cons i l => exact ⟨_, _, _, rfl, prev_ok (u := []) h⟩

theorem prev_next_of_ne (h : m.Holds cmp l) (hne : l ≠ []) {it : MapIter} (hit : m.Valid it)
    (hfront : it ≠ .beforeBegin) :
    ∃ it' r r', m.prev it = some (it', r) ∧ m.next it' = some (it, r') := by
  cases it with
  | ok i =>
    obtain ⟨u, v, rfl⟩ := List.append_of_mem (h.mem_iff.mpr hit)
    rw [prev_ok h]
    cases u using List.reverseRecOn with
    | nil =>
      have hbegin := begin_eq h
      exact ⟨_, _, _, rfl, next_beforeBegin.trans hbegin⟩
    | append_singleton u j =>
      rw [List.getLast?_concat]
      rw [List.append_assoc, List.singleton_append] at h
      exact ⟨_, _, _, rfl, next_ok h⟩
  | beforeBegin => exact absurd rfl hfront
  | atEnd =>
    rw [prev_atEnd h hne]
    cases l using List.reverseRecOn with
    | nil => exact absurd rfl hne
    | append_singleton l i =>
      rw [List.getLast?_concat]
      exact ⟨_, _, _, rfl, next_ok h⟩

/-! ## Reachable maps -/

theorem iterates_of_ne (h : m.Holds cmp l) (hne : l ≠ []) : m.Iterates cmp (l.map m.entry) := by
  constructor
  case ascending => exact List.pairwise_map.mpr h.sorted
  case forwards =>
    rw [begin_eq h, Option.bind_some]
    exact visit_next (u := []) h h.length_lt
  case backwards =>
    have h' : m.Holds cmp (l ++ []) := (List.append_nil l).symm ▸ h
    rw [prev_atEnd h hne, Option.bind_some]
    exact visit_prev h' h.length_lt
  case next_prev => exact fun it hit hend => next_prev_of_ne h hne hit hend
  case prev_next => exact fun it hit hfront => prev_next_of_ne h hne hit hfront

/-- Iterators work in every map that can be reached, exactly if it is not empty. -/
theorem iterates_iff [Std.TransCmp cmp] {keys : ℕ → κ} {vals : ℕ → ν}
    (hrun : Run (call cmp) (fun _ _ => True) (create keys vals, []) (m, L)) :
    m.Iterates cmp L ↔ m.count ≠ 0 := by
  obtain ⟨⟨l, hl, rfl⟩, -⟩ := refines_of_run hrun
  rw [hl.count]
  constructor
  · intro h hzero
    obtain rfl := List.length_eq_zero_iff.mp hzero
    have hback := h.backwards
    rw [prev_atEnd_nil hl] at hback
    cases hback
  · exact fun hne => iterates_of_ne hl fun hnil => hne (hnil ▸ rfl)

theorem iterates_iff_erased : erased.1.Iterates compare erased.2 :=
  (iterates_iff erased_run).mpr (by decide)

/-- A map without entries is stuck behind the last one. -/
theorem not_iterates_empty : ¬ ∀ (m : OrderedMap ℕ ℕ) (L : List (ℕ × ℕ)),
    Run (call compare) (fun _ _ => True) (create (fun _ => 0) (fun _ => 0), []) (m, L) →
      m.Iterates compare L := by
  intro h
  have hempty : (create (fun _ => 0) (fun _ => 0) : OrderedMap ℕ ℕ).Holds compare [] :=
    holds_create _ _
  have hback := (h _ _ Run.refl).backwards
  rw [prev_atEnd_nil hempty] at hback
  cases hback

end OrderedMap

end RetroRocket
