import Mathlib.Data.List.Basic
import Mathlib.Logic.Function.Basic
import Mathlib.Tactic.Common

/-!
# Scopes

Names are bound in a stack of frames over the global bindings, the innermost frame first. A frame
knows which of its names are parameters. A parameter is assigned to in its frame, any other name
globally unless the assignment is a local one.
-/

namespace RetroRocket

variable {κ ν : Type*} [DecidableEq κ]

structure Frame (κ ν : Type*) where
  params : List κ
  vars : κ → Option ν

structure Scopes (κ ν : Type*) where
  globals : κ → Option ν
  frames : List (Frame κ ν)

namespace Frame

def empty : Frame κ ν := ⟨[], fun _ => none⟩

def set (frame : Frame κ ν) (x : κ) (v : ν) : Frame κ ν :=
  { frame with vars := Function.update frame.vars x (some v) }

def bind (frame : Frame κ ν) (x : κ) (v : ν) : Frame κ ν :=
  { frame.set x v with params := x :: frame.params }

end Frame

namespace Scopes

def empty : Scopes κ ν := ⟨fun _ => none, []⟩

def read (s : Scopes κ ν) (x : κ) : Option ν :=
  (s.frames.findSome? fun frame => frame.vars x).or (s.globals x)

def setGlobal (s : Scopes κ ν) (x : κ) (v : ν) : Scopes κ ν :=
  { s with globals := Function.update s.globals x (some v) }

def modifyHead (s : Scopes κ ν) (f : Frame κ ν → Frame κ ν) : Scopes κ ν :=
  { s with frames := s.frames.modifyHead f }

def setLocal (s : Scopes κ ν) (x : κ) (v : ν) : Scopes κ ν :=
  s.modifyHead fun frame => frame.set x v

def bind (s : Scopes κ ν) (x : κ) (v : ν) : Scopes κ ν := s.modifyHead fun frame => frame.bind x v

def IsParam (s : Scopes κ ν) (x : κ) : Prop := ∃ frame ∈ s.frames.head?, x ∈ frame.params

instance (s : Scopes κ ν) (x : κ) : Decidable (s.IsParam x) := by
  unfold IsParam
  exact decidable_of_iff (s.frames.head?.any fun frame => decide (x ∈ frame.params))
    (by cases s.frames <;> simp)

def assign (s : Scopes κ ν) (x : κ) (v : ν) : Scopes κ ν :=
  if s.IsParam x then s.setLocal x v else s.setGlobal x v

def enter (s : Scopes κ ν) : Scopes κ ν := { s with frames := Frame.empty :: s.frames }

def leave (s : Scopes κ ν) : Scopes κ ν := { s with frames := s.frames.tail }

variable {s : Scopes κ ν} {x y : κ} {v : ν}

/-! ## What the assignments do -/

@[simp] theorem globals_setLocal (s : Scopes κ ν) (x : κ) (v : ν) :
    (s.setLocal x v).globals = s.globals := rfl

/-- What is local is gone with its frame. -/
@[simp] theorem leave_setLocal (s : Scopes κ ν) (x : κ) (v : ν) :
    (s.setLocal x v).leave = s.leave := by
  unfold setLocal modifyHead leave
  cases s.frames <;> rfl

@[simp] theorem leave_bind (s : Scopes κ ν) (x : κ) (v : ν) : (s.bind x v).leave = s.leave := by
  unfold bind modifyHead leave
  cases s.frames <;> rfl

omit [DecidableEq κ] in
@[simp] theorem read_cons (globals : κ → Option ν) (frame : Frame κ ν)
    (rest : List (Frame κ ν)) (x : κ) : (⟨globals, frame :: rest⟩ : Scopes κ ν).read x =
      (frame.vars x).or ((⟨globals, rest⟩ : Scopes κ ν).read x) := by
  unfold read
  rw [List.findSome?_cons]
  cases frame.vars x <;> simp

theorem read_setLocal (h : s.frames ≠ []) : (s.setLocal x v).read x = some v := by
  obtain ⟨globals, frames⟩ := s
  cases frames with
  | nil => exact absurd rfl h
  | cons frame rest =>
    change (⟨globals, frame.set x v :: rest⟩ : Scopes κ ν).read x = some v
    simp [Frame.set]

/-- What is assigned to a parameter is what is read next. -/
theorem read_assign_of_isParam (h : s.IsParam x) : (s.assign x v).read x = some v := by
  have hframes : s.frames ≠ [] := by
    intro hnil
    obtain ⟨frame, hframe, -⟩ := h
    rw [hnil] at hframe
    cases hframe
  unfold assign
  rw [if_pos h]
  exact read_setLocal hframes

end Scopes

end RetroRocket
