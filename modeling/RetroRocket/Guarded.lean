import Mathlib.Tactic.Common

/-!
# Runs with guarded accesses

A run comes to a result, rejects its input, or makes an access that it must not make. `Follows` says
which of them, by conditions on the input alone: the run is safe just if `fits`, and a safe run gets
through just if `accepts`. The rules put the conditions of a run together from those of its steps.
-/

namespace RetroRocket

inductive Guarded (α : Type) where
  | ok (a : α)
  | rejected
  | outside

namespace Guarded

variable {α β σ : Type}

instance : Monad Guarded where
  pure := ok
  bind x f := match x with
    | ok a => f a
    | rejected => rejected
    | outside => outside

/-- An access that has to meet `p`. -/
def access (p : Prop) [Decidable p] : Guarded Unit := if p then ok () else outside

/-- A test that rejects the input if `p` does not hold. -/
def test (p : Prop) [Decidable p] : Guarded Unit := if p then ok () else rejected

/-- `for (i = 0; i < n; i++)`. -/
def loop (step : σ → ℕ → Guarded σ) (s : σ) : ℕ → Guarded σ
  | 0 => ok s
  | n + 1 => loop step s n >>= fun s => step s n

def Safe (x : Guarded α) : Prop := x ≠ outside

instance : (x : Guarded α) → Decidable x.Safe
  | ok _ => isTrue fun h => by cases h
  | rejected => isTrue fun h => by cases h
  | outside => isFalse fun h => h rfl

def isOk : Guarded α → Bool
  | ok _ => true
  | _ => false

theorem exists_of_isOk {x : Guarded α} (h : x.isOk = true) : ∃ a, x = ok a := by
  cases x with
  | ok a => exact ⟨a, rfl⟩
  | rejected => cases h
  | outside => cases h

@[simp] theorem ok_bind (a : α) (f : α → Guarded β) : (ok a >>= f) = f a := rfl

@[simp] theorem rejected_bind (f : α → Guarded β) : ((rejected : Guarded α) >>= f) = rejected := rfl

@[simp] theorem outside_bind (f : α → Guarded β) : ((outside : Guarded α) >>= f) = outside := rfl

theorem bind_assoc (x : Guarded α) (f : α → Guarded β) (g : β → Guarded σ) :
    (x >>= f >>= g) = x >>= fun a => f a >>= g := by
  cases x <;> rfl

theorem bind_eq_ok {x : Guarded α} {f : α → Guarded β} {b : β} :
    (x >>= f) = ok b ↔ ∃ a, x = ok a ∧ f a = ok b := by
  cases x <;> simp

structure Follows (x : Guarded α) (fits accepts : Prop) (post : α → Prop) : Prop where
  safe : x.Safe ↔ fits
  ok : fits → ((∃ a, x = ok a) ↔ accepts)
  post : ∀ a, x = .ok a → post a

namespace Follows

variable {x y : Guarded α} {f : α → Guarded β} {F F' A A' : Prop} {P P' : α → Prop} {Q : β → Prop}

theorem accepted (h : Follows x F A P) {a : α} (ha : x = .ok a) : F ∧ A := by
  have hF : F := h.safe.mp (by rw [ha]; exact fun h => by cases h)
  exact ⟨hF, (h.ok hF).mp ⟨a, ha⟩⟩

theorem result (a : α) : Follows (.ok a) True True (· = a) where
  safe := iff_of_true (fun h => by cases h) trivial
  ok _ := iff_of_true ⟨a, rfl⟩ trivial
  post b hb := by
    cases hb
    rfl

theorem reject : Follows (rejected : Guarded α) True False P where
  safe := iff_of_true (fun h => by cases h) trivial
  ok _ := iff_of_false (fun ⟨_, h⟩ => by cases h) id
  post _ h := by cases h

theorem access (p : Prop) [Decidable p] : Follows (access p) p True fun _ => True where
  safe := by
    unfold Guarded.access Safe
    split <;> simp_all
  ok h := by
    unfold Guarded.access
    simp [h]
  post _ _ := trivial

theorem test (p : Prop) [Decidable p] : Follows (test p) True p fun _ => True where
  safe := by
    unfold Guarded.test Safe
    split <;> simp
  ok _ := by
    unfold Guarded.test
    split <;> simp_all
  post _ _ := trivial

theorem bind (h : Follows x F A P) (hf : F → A → ∀ a, P a → Follows (f a) F' A' Q) :
    Follows (x >>= f) (F ∧ (A → F')) (A ∧ A') Q where
  safe := by
    cases x with
    | ok a =>
      obtain ⟨hF, hA⟩ := h.accepted rfl
      have hstep := (hf hF hA a (h.post a rfl)).safe
      rw [ok_bind, hstep]
      exact ⟨fun h => ⟨hF, fun _ => h⟩, fun h => h.2 hA⟩
    | rejected =>
      have hF : F := h.safe.mp fun h => by cases h
      have hA : ¬ A := fun hA => by
        obtain ⟨_, h⟩ := (h.ok hF).mpr hA
        cases h
      exact iff_of_true (fun h => by cases h) ⟨hF, fun h => absurd h hA⟩
    | outside =>
      exact iff_of_false (fun h => h rfl) fun hfits => h.safe.mpr hfits.1 rfl
  ok hfits := by
    constructor
    · rintro ⟨b, hb⟩
      obtain ⟨a, hx, hb⟩ := bind_eq_ok.mp hb
      obtain ⟨hF, hA⟩ := h.accepted hx
      exact ⟨hA, ((hf hF hA a (h.post a hx)).ok (hfits.2 hA)).mp ⟨b, hb⟩⟩
    · rintro ⟨hA, hA'⟩
      obtain ⟨a, hx⟩ := (h.ok hfits.1).mpr hA
      obtain ⟨b, hb⟩ := ((hf hfits.1 hA a (h.post a hx)).ok (hfits.2 hA)).mpr hA'
      exact ⟨b, bind_eq_ok.mpr ⟨a, hx, hb⟩⟩
  post b hb := by
    obtain ⟨a, hx, hb⟩ := bind_eq_ok.mp hb
    obtain ⟨hF, hA⟩ := h.accepted hx
    exact (hf hF hA a (h.post a hx)).post b hb

theorem eq_ok_iff {a b : α} (h : Follows x F A (· = a)) : x = .ok b ↔ F ∧ A ∧ b = a := by
  constructor
  · intro hb
    obtain ⟨hF, hA⟩ := h.accepted hb
    exact ⟨hF, hA, h.post b hb⟩
  · rintro ⟨hF, hA, rfl⟩
    obtain ⟨c, hc⟩ := (h.ok hF).mpr hA
    rw [hc, h.post c hc]

theorem congr (h : Follows x F A P) (hF : F ↔ F') (hA : F → (A ↔ A'))
    (hP : F → A → ∀ a, P a → P' a) : Follows x F' A' P' where
  safe := h.safe.trans hF
  ok hfits := (h.ok (hF.mpr hfits)).trans (hA (hF.mpr hfits))
  post a ha := hP (h.accepted ha).1 (h.accepted ha).2 a (h.post a ha)

theorem access_bind {p : Prop} [Decidable p] {g : Guarded β} (hg : p → Follows g F A Q) :
    Follows (Guarded.access p >>= fun _ => g) (p ∧ F) A Q :=
  ((access p).bind fun hp _ _ _ => hg hp).congr (by simp) (fun _ => by simp) fun _ _ _ h => h

theorem test_bind {p : Prop} [Decidable p] {g : Guarded β} (hg : p → Follows g F A Q) :
    Follows (Guarded.test p >>= fun _ => g) (p → F) (p ∧ A) Q :=
  ((test p).bind fun _ hp _ _ => hg hp).congr (by simp) (fun _ => Iff.rfl) fun _ _ _ h => h

theorem branch {c : Prop} [Decidable c] (hx : c → Follows x F A P) (hy : ¬ c → Follows y F' A' P) :
    Follows (if c then x else y) (if c then F else F') (if c then A else A') P := by
  by_cases hc : c
  · simp only [if_pos hc]
    exact hx hc
  · simp only [if_neg hc]
    exact hy hc

/-- A loop is safe if each turn is that it gets to. `At` is what the state is before a turn. -/
theorem loop {step : σ → ℕ → Guarded σ} {Fits Accepts : ℕ → Prop}
    {At : ℕ → σ → Prop} {n : ℕ} {s : σ}
    (hstep : ∀ i < n, ∀ s, At i s → Follows (step s i) (Fits i) (Accepts i) (At (i + 1)))
    (hs : At 0 s) :
    Follows (loop step s n) (∀ i < n, (∀ j < i, Accepts j) → Fits i)
      (∀ i < n, Accepts i) (At n) := by
  induction n with
  | zero =>
    apply (result s).congr
    · simp
    · simp
    · rintro - - a rfl
      exact hs
  | succ n ih =>
    have hturns := ih fun i hi => hstep i (Nat.lt_succ_of_lt hi)
    apply (hturns.bind fun _ _ => hstep n (Nat.lt_succ_self n)).congr
    · exact Nat.forall_lt_succ_right.symm
    · intro _
      exact Nat.forall_lt_succ_right.symm
    · exact fun _ _ _ h => h

end Follows

/-- The run gets through, with a result in `Q`. -/
def Yields (x : Guarded α) (Q : α → Prop) : Prop := ∃ a, x = ok a ∧ Q a

namespace Yields

variable {x : Guarded α} {f : α → Guarded β} {Q : α → Prop} {R : β → Prop}

theorem result {a : α} (h : Q a) : Yields (ok a) Q := ⟨a, rfl, h⟩

theorem safe (h : Yields x Q) : x.Safe := by
  obtain ⟨a, rfl, -⟩ := h
  exact fun h => by cases h

theorem mono {Q' : α → Prop} (h : Yields x Q) (hQ : ∀ a, Q a → Q' a) : Yields x Q' := by
  obtain ⟨a, hx, ha⟩ := h
  exact ⟨a, hx, hQ a ha⟩

theorem bind (h : Yields x Q) (hf : ∀ a, Q a → Yields (f a) R) : Yields (x >>= f) R := by
  obtain ⟨a, rfl, ha⟩ := h
  exact hf a ha

theorem access_bind {p : Prop} [Decidable p] {f : Unit → Guarded β} (hp : p)
    (hf : Yields (f ()) R) :
    Yields (Guarded.access p >>= f) R := by
  unfold Guarded.access
  rw [if_pos hp]
  exact hf

/-- A loop gets through if each turn keeps `I`, from a state that the turns before it lead to. -/
theorem loop {step : σ → ℕ → Guarded σ} {I : ℕ → σ → Prop} {s : σ} {n : ℕ} (hs : I 0 s)
    (hstep : ∀ i < n, ∀ s', loop step s i = ok s' → I i s' → Yields (step s' i) (I (i + 1))) :
    Yields (loop step s n) (I n) := by
  induction n with
  | zero => exact result hs
  | succ n ih =>
    obtain ⟨s', hs', hI⟩ := ih fun i hi => hstep i (Nat.lt_succ_of_lt hi)
    have hturn := hstep n (Nat.lt_succ_self n) s' hs' hI
    rw [Guarded.loop, hs']
    exact hturn

end Yields

end Guarded

end RetroRocket
