import Mathlib.Data.Set.Basic
import Mathlib.Logic.Function.Basic
import Mathlib.Tactic.Common

/-!
# Locks

Several parties run operations, each of which is a sequence of lock steps. A lock is granted only
while it is free; a party that has to wait does nothing else. Every party is always at some place in
one of its operations, and it holds the locks that the steps before that place have taken and not
given back.
-/

namespace RetroRocket

inductive LockStep (L : Type*) where
  | acquire (l : L)
  | release (l : L)
  | halt

structure LockState (ι L : Type*) where
  todo : ι → List (LockStep L)
  owner : L → Option ι

variable {ι L : Type*}

namespace LockStep

variable [DecidableEq L]

/-- The locks held after these steps, by a party that holds `locks` before them. -/
def heldFrom (locks : List L) : List (LockStep L) → List L
  | [] => locks
  | acquire l :: rest => heldFrom (l :: locks) rest
  | release l :: rest => heldFrom (locks.filter fun m => m ≠ l) rest
  | halt :: rest => heldFrom locks rest

def held (steps : List (LockStep L)) : List L := heldFrom [] steps

theorem heldFrom_append (locks : List L) (pre rest : List (LockStep L)) :
    heldFrom locks (pre ++ rest) = heldFrom (heldFrom locks pre) rest := by
  induction pre generalizing locks with
  | nil => rfl
  | cons step pre ih => cases step <;> exact ih _

@[simp] theorem held_nil : held ([] : List (LockStep L)) = [] := rfl

@[simp] theorem held_acquire (steps : List (LockStep L)) (l : L) :
    held (steps ++ [acquire l]) = l :: held steps := heldFrom_append [] steps _

@[simp] theorem held_release (steps : List (LockStep L)) (l : L) :
    held (steps ++ [release l]) = (held steps).filter fun m => m ≠ l := heldFrom_append [] steps _

def ReleasesHeld (locks : List L) : List (LockStep L) → Prop
  | [] => True
  | acquire l :: rest => ReleasesHeld (l :: locks) rest
  | release l :: rest => l ∈ locks ∧ ReleasesHeld (locks.filter fun m => m ≠ l) rest
  | halt :: rest => ReleasesHeld locks rest

theorem ReleasesHeld.mem_heldFrom {locks : List L} {pre rest : List (LockStep L)} {l : L}
    (h : ReleasesHeld locks (pre ++ release l :: rest)) : l ∈ heldFrom locks pre := by
  induction pre generalizing locks with
  | nil => exact h.1
  | cons step pre ih =>
    cases step with
    | acquire m => exact @ih (m :: locks) h
    | release m => exact ih h.2
    | halt => exact @ih locks h

def AcquiresUnder (R : L → L → Prop) (locks : List L) : List (LockStep L) → Prop
  | [] => True
  | acquire l :: rest => (∀ m ∈ locks, R m l) ∧ AcquiresUnder R (l :: locks) rest
  | release l :: rest => AcquiresUnder R (locks.filter fun m => m ≠ l) rest
  | halt :: rest => AcquiresUnder R locks rest

theorem AcquiresUnder.of_heldFrom {R : L → L → Prop} {locks : List L} {pre rest : List (LockStep L)}
    {l m : L} (h : AcquiresUnder R locks (pre ++ acquire l :: rest)) (hm : m ∈ heldFrom locks pre) :
    R m l := by
  induction pre generalizing locks with
  | nil => exact h.1 m hm
  | cons step pre ih =>
    cases step with
    | acquire k => exact @ih (k :: locks) h.2 hm
    | release k => exact @ih (locks.filter fun m => m ≠ k) h hm
    | halt => exact @ih locks h hm

structure WellNested (op : List (LockStep L)) : Prop where
  releases : ReleasesHeld [] op
  held_end : halt ∉ op → held op = []

end LockStep

namespace LockState

open LockStep

def idle : LockState ι L := ⟨fun _ => [], fun _ => none⟩

variable [DecidableEq ι] [DecidableEq L]

def start (s : LockState ι L) (i : ι) (op : List (LockStep L)) : Option (LockState ι L) :=
  match s.todo i with
  | [] => some { s with todo := Function.update s.todo i op }
  | _ => none

def advance (s : LockState ι L) (i : ι) : Option (LockState ι L) :=
  match s.todo i with
  | acquire l :: rest =>
    match s.owner l with
    | none => some ⟨Function.update s.todo i rest, Function.update s.owner l (some i)⟩
    | some _ => none
  | release l :: rest => some ⟨Function.update s.todo i rest, Function.update s.owner l none⟩
  | _ => none

/-- Party `i` is about to take `l`. -/
def Waits (s : LockState ι L) (i : ι) (l : L) : Prop := ∃ rest, s.todo i = acquire l :: rest

def Deadlocked (s : LockState ι L) : Prop :=
  ∃ S : Set ι, S.Nonempty ∧ ∀ i ∈ S, ∃ l, s.Waits i l ∧ ∃ j ∈ S, j ≠ i ∧ s.owner l = some j

/-- Party `i` has done `pre` of an operation. -/
structure AtPlace (ops : ι → Set (List (LockStep L))) (s : LockState ι L) (i : ι)
    (pre : List (LockStep L)) : Prop where
  mem : pre ++ s.todo i ∈ ops i
  owner : ∀ l, s.owner l = some i ↔ l ∈ held pre
  not_halt : halt ∉ pre

def InOps (ops : ι → Set (List (LockStep L))) (s : LockState ι L) : Prop :=
  ∀ i, ∃ pre, s.AtPlace ops i pre

variable {ops : ι → Set (List (LockStep L))} {s t : LockState ι L} {i j : ι} {l m : L}
  {op rest : List (LockStep L)}

omit [DecidableEq ι] in
theorem inOps_idle (hnil : ∀ i, [] ∈ ops i) : (idle : LockState ι L).InOps ops :=
  fun i => ⟨[], hnil i, by simp [idle], by simp⟩

omit [DecidableEq ι] in
theorem AtPlace.congr {pre : List (LockStep L)} (h : s.AtPlace ops i pre)
    (htodo : t.todo i = s.todo i) (howner : ∀ l, t.owner l = some i ↔ s.owner l = some i) :
    t.AtPlace ops i pre :=
  ⟨htodo ▸ h.mem, fun l => (howner l).trans (h.owner l), h.not_halt⟩

omit [DecidableEq ι] in
theorem InOps.owner_of_nil (h : s.InOps ops) (hnested : ∀ i, ∀ op ∈ ops i, WellNested op)
    (htodo : s.todo i = []) : s.owner l ≠ some i := by
  obtain ⟨pre, hplace⟩ := h i
  have hmem := hplace.mem
  rw [htodo, List.append_nil] at hmem
  have hnone := (hnested i pre hmem).held_end hplace.not_halt
  intro howner
  have hheld := (hplace.owner l).mp howner
  rw [hnone] at hheld
  cases hheld

omit [DecidableEq L] in
theorem start_eq (h : s.start i op = some t) :
    s.todo i = [] ∧ t = { s with todo := Function.update s.todo i op } := by
  unfold start at h
  split at h
  case h_1 htodo => exact ⟨htodo, (Option.some.inj h).symm⟩
  case h_2 => cases h

theorem advance_eq (h : s.advance i = some t) :
    (∃ l rest, s.todo i = acquire l :: rest ∧ s.owner l = none ∧
      t = ⟨Function.update s.todo i rest, Function.update s.owner l (some i)⟩) ∨
    ∃ l rest, s.todo i = release l :: rest ∧
      t = ⟨Function.update s.todo i rest, Function.update s.owner l none⟩ := by
  unfold advance at h
  split at h
  case h_1 l rest htodo =>
    split at h
    case h_1 howner => exact .inl ⟨l, rest, htodo, howner, (Option.some.inj h).symm⟩
    case h_2 => cases h
  case h_2 l rest htodo => exact .inr ⟨l, rest, htodo, (Option.some.inj h).symm⟩
  case h_3 => cases h

theorem InOps.start (h : s.InOps ops) (hnested : ∀ i, ∀ op ∈ ops i, WellNested op)
    (hop : op ∈ ops i) (hstart : s.start i op = some t) : t.InOps ops := by
  obtain ⟨htodo, rfl⟩ := start_eq hstart
  intro j
  by_cases hj : j = i
  · subst hj
    refine ⟨[], ?_, fun l => ?_, by simp⟩
    · simpa using hop
    · simpa using h.owner_of_nil hnested htodo
  · obtain ⟨pre, hplace⟩ := h j
    exact ⟨pre, hplace.congr (Function.update_of_ne hj _ _) fun l => Iff.rfl⟩

theorem InOps.advance (h : s.InOps ops) (hnested : ∀ i, ∀ op ∈ ops i, WellNested op)
    (hadvance : s.advance i = some t) : t.InOps ops := by
  intro j
  obtain ⟨pre, hplace⟩ := h j
  obtain ⟨pre', hplace'⟩ := h i
  rcases advance_eq hadvance with ⟨l, rest, htodo, hfree, rfl⟩ | ⟨l, rest, htodo, rfl⟩
  · by_cases hj : j = i
    · subst hj
      refine ⟨pre ++ [acquire l], ?_, fun m => ?_, ?_⟩
      · simpa [htodo] using hplace.mem
      · by_cases hm : m = l
        · simp [hm]
        · simpa [hm] using hplace.owner m
      · simpa using hplace.not_halt
    · refine ⟨pre, hplace.congr (Function.update_of_ne hj _ _) fun m => ?_⟩
      by_cases hm : m = l
      · simp [hm, hfree, Ne.symm hj]
      · simp [hm]
  · have hmem := hplace'.mem
    rw [htodo] at hmem
    have hheld := (hplace'.owner l).mpr (hnested i _ hmem).releases.mem_heldFrom
    by_cases hj : j = i
    · subst hj
      refine ⟨pre ++ [release l], ?_, fun m => ?_, ?_⟩
      · simpa [htodo] using hplace.mem
      · by_cases hm : m = l
        · simp [hm]
        · simpa [hm] using hplace.owner m
      · simpa using hplace.not_halt
    · refine ⟨pre, hplace.congr (Function.update_of_ne hj _ _) fun m => ?_⟩
      by_cases hm : m = l
      · simp [hm, hheld, Ne.symm hj]
      · simp [hm]

omit [DecidableEq ι] in
theorem InOps.waits {R : ι → L → L → Prop} (h : s.InOps ops)
    (hunder : ∀ i, ∀ op ∈ ops i, AcquiresUnder (R i) [] op) (hwaits : s.Waits i l)
    (howner : s.owner m = some i) : R i m l := by
  obtain ⟨pre, hplace⟩ := h i
  obtain ⟨rest, htodo⟩ := hwaits
  have hmem := hplace.mem
  rw [htodo] at hmem
  exact (hunder i _ hmem).of_heldFrom ((hplace.owner m).mp howner)

omit [DecidableEq ι] [DecidableEq L] in
theorem deadlocked_of_pair (hij : i ≠ j) (hi : s.Waits i l) (hl : s.owner l = some j)
    (hj : s.Waits j m) (hm : s.owner m = some i) : s.Deadlocked := by
  refine ⟨{i, j}, ⟨i, .inl rfl⟩, ?_⟩
  rintro k (rfl | rfl)
  · exact ⟨l, hi, j, .inr rfl, hij.symm, hl⟩
  · exact ⟨m, hj, i, .inl rfl, hij, hm⟩

end LockState

end RetroRocket
