import Mathlib.Tactic.Common

/-!
# Runs

A system takes calls, each of which may fail to return. `Run call allowed s t` says that `t` is
reached from `s` by calls that `allowed` admits in the states in which they are made. What such
calls preserve holds in every state reached.
-/

namespace RetroRocket

variable {σ κ : Type*}

inductive Run (call : σ → κ → Option σ) (allowed : σ → κ → Prop) (s : σ) : σ → Prop
  | refl : Run call allowed s s
  | step {t u : σ} {c : κ} : Run call allowed s t → allowed t c → call t c = some u →
      Run call allowed s u

namespace Run

variable {call : σ → κ → Option σ} {allowed : σ → κ → Prop} {s t : σ} {c : κ}

theorem preserved {P : σ → Prop} (hrun : Run call allowed s t) (hs : P s)
    (hstep : ∀ {t u c}, P t → allowed t c → call t c = some u → P u) : P t := by
  induction hrun with
  | refl => exact hs
  | step _ hallowed hcall ih => exact hstep ih hallowed hcall

theorem invariant {P : σ → Prop} (hrun : Run call allowed s t) (hs : P s)
    (hstep : ∀ {t c}, P t → allowed t c → ∃ u, call t c = some u ∧ P u) : P t := by
  apply hrun.preserved hs
  intro t u c ht hallowed hcall
  obtain ⟨v, hv, hP⟩ := hstep ht hallowed
  obtain rfl := Option.some.inj (hv.symm.trans hcall)
  exact hP

def next (call : σ → κ → Option σ) (s : σ) (c : κ) : σ := (call s c).getD s

theorem next_step (h : Run call allowed s t) (hallowed : allowed t c) (hcall : (call t c).isSome) :
    Run call allowed s (next call t c) := by
  obtain ⟨u, hu⟩ := Option.isSome_iff_exists.mp hcall
  refine h.step hallowed ?_
  unfold next
  rw [hu, Option.getD_some]

end Run

/-! ## All states of a run, and all its steps -/

/-- `P` holds in every state that these calls go through from `s`. -/
def AllStates (call : σ → κ → Option σ) (P : σ → Prop) : σ → List κ → Prop
  | s, [] => P s
  | s, c :: cs => P s ∧ ∀ t, call s c = some t → AllStates call P t cs

/-- `Q` holds of every call of a run, in the state in which it is made. -/
def AllSteps (call : σ → κ → Option σ) (Q : σ → κ → Prop) : σ → List κ → Prop
  | _, [] => True
  | s, c :: cs => ∀ t, call s c = some t → Q s c ∧ AllSteps call Q t cs

/-- Where a call keeps the invariant, and keeps `P` exactly if `Q` holds of it, all states have `P`
exactly if all steps have `Q`. -/
theorem allStates_iff_allSteps {call : σ → κ → Option σ} {Inv P : σ → Prop} {Q : σ → κ → Prop}
    (hstep : ∀ {s t c}, Inv s → P s → call s c = some t → Inv t ∧ (P t ↔ Q s c)) {s : σ}
    (hs : Inv s) (hP : P s) (cs : List κ) : AllStates call P s cs ↔ AllSteps call Q s cs := by
  induction cs generalizing s with
  | nil => exact ⟨fun _ => trivial, fun _ => hP⟩
  | cons c cs ih =>
    constructor
    · rintro ⟨-, hstates⟩ t ht
      obtain ⟨hinv, hiff⟩ := hstep hs hP ht
      have hPt : P t := by
        cases cs with
        | nil => exact hstates t ht
        | cons _ _ => exact (hstates t ht).1
      exact ⟨hiff.mp hPt, (ih hinv hPt).mp (hstates t ht)⟩
    · intro hsteps
      refine ⟨hP, fun t ht => ?_⟩
      obtain ⟨hinv, hiff⟩ := hstep hs hP ht
      obtain ⟨hQ, hrest⟩ := hsteps t ht
      exact (ih hinv (hiff.mpr hQ)).mpr hrest

end RetroRocket
