import Mathlib.Logic.Basic
import Mathlib.Tactic.Common

/-!
# Actions that may fail

An action reads and changes a state and either returns a value or fails. A failed action keeps the
state it had reached, so what was done before the failure stays done. `Post` is the rule of
postconditions for such actions: one condition for a return and one for a failure.
-/

namespace RetroRocket

def Action (σ α : Type) := σ → Option α × σ

namespace Action

variable {σ α β : Type}

instance : Monad (Action σ) where
  pure a := fun s => (some a, s)
  bind m f := fun s =>
    match m s with
    | (some a, t) => f a t
    | (none, t) => (none, t)

def fail : Action σ α := fun s => (none, s)

def get : Action σ σ := fun s => (some s, s)

def modify (f : σ → σ) : Action σ Unit := fun s => (some (), f s)

def attempt (m : Action σ α) : Action σ (Option α) := fun s => (some (m s).1, (m s).2)

/-- Started in `s`, the action returns a value and a state in `Q`, or fails in a state in `R`. -/
def Post (m : Action σ α) (s : σ) (Q : α → σ → Prop) (R : σ → Prop) : Prop :=
  match m s with
  | (some a, t) => Q a t
  | (none, t) => R t

variable {m : Action σ α} {f : α → Action σ β} {s t : σ} {a : α}
  {Q Q' : α → σ → Prop} {R R' : σ → Prop}

@[simp] theorem post_pure : Post (pure a) s Q R ↔ Q a s := Iff.rfl

@[simp] theorem post_fail : Post (fail : Action σ α) s Q R ↔ R s := Iff.rfl

@[simp] theorem post_get {Q : σ → σ → Prop} : Post get s Q R ↔ Q s s := Iff.rfl

@[simp] theorem post_modify {g : σ → σ} {Q : Unit → σ → Prop} :
    Post (modify g) s Q R ↔ Q () (g s) := Iff.rfl

@[simp] theorem post_bind {Q : β → σ → Prop} :
    Post (m >>= f) s Q R ↔ Post m s (fun a t => Post (f a) t Q R) R := by
  unfold Post
  change (match (match m s with | (some a, t) => f a t | (none, t) => (none, t)) with
    | (some a, t) => Q a t
    | (none, t) => R t) ↔ _
  rcases m s with ⟨_ | a, t⟩ <;> rfl

theorem bind_of_some (h : m s = (some a, t)) : (m >>= f) s = f a t := by
  change (match m s with | (some a, t) => f a t | (none, t) => (none, t)) = _
  rw [h]

theorem bind_of_none (h : m s = (none, t)) : (m >>= f) s = (none, t) := by
  change (match m s with | (some a, t) => f a t | (none, t) => (none, t)) = _
  rw [h]

theorem post_attempt {Q : Option α → σ → Prop} :
    Post (attempt m) s Q R ↔ Post m s (fun a t => Q (some a) t) (fun t => Q none t) := by
  change Q (m s).1 (m s).2 ↔ _
  unfold Post
  rcases m s with ⟨_ | a, t⟩ <;> rfl

theorem Post.mono (h : Post m s Q R) (hQ : ∀ a t, Q a t → Q' a t) (hR : ∀ t, R t → R' t) :
    Post m s Q' R' := by
  unfold Post at h ⊢
  rcases hm : m s with ⟨_ | a, t⟩
  · rw [hm] at h
    exact hR t h
  · rw [hm] at h
    exact hQ a t h

theorem Post.and (h : Post m s Q R) (h' : Post m s Q' R') :
    Post m s (fun a t => Q a t ∧ Q' a t) (fun t => R t ∧ R' t) := by
  unfold Post at h h' ⊢
  rcases hm : m s with ⟨_ | a, t⟩ <;> rw [hm] at h h' <;> exact ⟨h, h'⟩

theorem Post.of_eq_some (h : Post m s Q R) (hm : m s = (some a, t)) : Q a t := by
  unfold Post at h
  rwa [hm] at h

theorem Post.of_eq_none (h : Post m s Q R) (hm : m s = (none, t)) : R t := by
  unfold Post at h
  rwa [hm] at h

theorem post_iff :
    Post m s Q R ↔ (∀ a t, m s = (some a, t) → Q a t) ∧ (∀ t, m s = (none, t) → R t) := by
  constructor
  · exact fun h => ⟨fun a t hm => h.of_eq_some hm, fun t hm => h.of_eq_none hm⟩
  · rintro ⟨hQ, hR⟩
    unfold Post
    rcases hm : m s with ⟨_ | a, t⟩
    · exact hR t hm
    · exact hQ a t hm

end Action

end RetroRocket
