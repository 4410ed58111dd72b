import RetroRocket.Locks
import RetroRocket.Run

/-!
# The locks of the process tables

The lock steps of the functions of `taskswitch.c`, on any number of CPUs: `combined_proc_lock` and
one `proc_lock` for each CPU. `proc_create_common` takes the combined lock first and `proc_kill`
takes it second. That is the only way into a deadlock: one starts between the two locks of the
other, for the same CPU.
-/

namespace RetroRocket

open LockStep

/-- `combined_proc_lock` and `proc_lock[cpu]`. -/
inductive ProcLock (ι : Type*) where
  | combined
  | cpu (c : ι)
  deriving DecidableEq

/-- A call: what it locks does not depend on anything but the CPU a process lives on, and on whether
a creation runs out of memory in the table of pids and a killed process is the last one. -/
inductive ProcCall (ι : Type*) where
  | create
  | createFails
  | kill (c : ι)
  | killLast (c : ι)
  | find
  | cur (c : ι)
  | id
  | runNext (c : ι)

variable {ι : Type*}

/-- The lock steps of a call on CPU `i`. A creation that fails with the locks held reads the CPU
of a process it has set to NULL, and killing the last process stops the CPU. `proc_kill_id` is
`find`, `cur` and `kill`, and `proc_run_next` kills a process that has ended after it has given
up its lock. -/
def ProcCall.steps (i : ι) : ProcCall ι → List (LockStep (ProcLock ι))
  | create => [acquire .combined, acquire (.cpu i), release .combined, release (.cpu i)]
  | createFails => [acquire .combined, acquire (.cpu i), release .combined, halt]
  | kill c => [acquire (.cpu c), acquire .combined, release (.cpu c), release .combined]
  | killLast c => [acquire (.cpu c), acquire .combined, halt]
  | find => [acquire .combined, release .combined]
  | cur c => [acquire (.cpu c), release (.cpu c)]
  | id => [acquire .combined, release .combined]
  | runNext c => [acquire (.cpu c), release (.cpu c)]

inductive ProcEvent (ι : Type*) where
  /-- CPU `i` enters a function. -/
  | call (i : ι) (c : ProcCall ι)
  /-- CPU `i` gets a lock or gives one back. -/
  | run (i : ι)

abbrev ProcLocks (ι : Type*) := LockState ι (ProcLock ι)

namespace ProcLocks

variable [DecidableEq ι]

def step (s : ProcLocks ι) : ProcEvent ι → Option (ProcLocks ι)
  | .call i c => s.start i (c.steps i)
  | .run i => s.advance i

/-- A process is being created on `c`, with the combined lock and without the lock of the CPU. -/
structure CreateHolds (s : ProcLocks ι) (c : ι) : Prop where
  owner : s.owner .combined = some c
  waits : s.Waits c (.cpu c)

/-- `j` is killing a process of `c`, with the lock of the CPU and without the combined one. -/
structure KillHolds (s : ProcLocks ι) (j c : ι) : Prop where
  owner : s.owner (.cpu c) = some j
  waits : s.Waits j .combined

/-- A creation and a kill for the same CPU are not both between their two locks: neither takes its
first lock while the other has its own. -/
def KeepsApart (s : ProcLocks ι) : ProcEvent ι → Prop
  | .call _ _ => True
  | .run i =>
    (∀ rest, s.todo i = acquire .combined :: acquire (.cpu i) :: rest → ∀ j, ¬ s.KillHolds j i) ∧
      ∀ c rest, s.todo i = acquire (.cpu c) :: acquire .combined :: rest → ¬ s.CreateHolds c

def calls (i : ι) : Set (List (LockStep (ProcLock ι))) :=
  {op | op = [] ∨ ∃ c : ProcCall ι, op = c.steps i}

theorem wellNested (i : ι) : ∀ op ∈ calls i, WellNested op := by
  rintro op (rfl | ⟨c, rfl⟩)
  · exact ⟨trivial, fun _ => rfl⟩
  · constructor
    · cases c <;> simp [ProcCall.steps, ReleasesHeld]
    · cases c <;> simp [ProcCall.steps, held, heldFrom]

/-- The pairs of locks that are held together: `l` is taken by CPU `i` while it has `m`. -/
def Under (i : ι) (m l : ProcLock ι) : Prop :=
  m = .combined ∧ l = .cpu i ∨ (∃ c, m = .cpu c) ∧ l = .combined

theorem acquiresUnder (i : ι) : ∀ op ∈ calls i, AcquiresUnder (Under i) [] op := by
  rintro op (rfl | ⟨c, rfl⟩)
  · trivial
  · cases c <;> simp [ProcCall.steps, AcquiresUnder, Under]

variable {s t : ProcLocks ι} {i j c : ι} {l m : ProcLock ι} {e : ProcEvent ι}
  {rest : List (LockStep (ProcLock ι))}

def Inv (s : ProcLocks ι) : Prop := s.InOps calls

theorem Inv.step (h : s.Inv) (hstep : s.step e = some t) : t.Inv := by
  cases e with
  | call i c => exact LockState.InOps.start h wellNested (.inr ⟨c, rfl⟩) hstep
  | run i => exact LockState.InOps.advance h wellNested hstep

theorem Inv.under (h : s.Inv) (hwaits : s.Waits i l) (howner : s.owner m = some i) : Under i m l :=
  LockState.InOps.waits h acquiresUnder hwaits howner

theorem Inv.createHolds (h : s.Inv) (hwaits : s.Waits i l) (howner : s.owner .combined = some i) :
    l = .cpu i := by
  rcases h.under hwaits howner with ⟨-, hl⟩ | ⟨⟨c, hc⟩, -⟩
  · exact hl
  · cases hc

theorem Inv.killHolds (h : s.Inv) (hwaits : s.Waits j l) (howner : s.owner (.cpu c) = some j) :
    l = .combined := by
  rcases h.under hwaits howner with ⟨hc, -⟩ | ⟨-, hl⟩
  · cases hc
  · exact hl

theorem Inv.exists_of_deadlocked (h : s.Inv) (hdead : s.Deadlocked) :
    ∃ c j, j ≠ c ∧ s.CreateHolds c ∧ s.KillHolds j c := by
  obtain ⟨S, ⟨i, hi⟩, hall⟩ := hdead
  -- some CPU of the set is a creation: it holds the combined lock
  obtain ⟨c, hc, howner, hwaits⟩ : ∃ c ∈ S, s.owner .combined = some c ∧ s.Waits c (.cpu c) := by
    obtain ⟨l, -, j, hj, -, hlj⟩ := hall i hi
    obtain ⟨m, hjm, k, hk, -, hmk⟩ := hall j hj
    obtain ⟨n, hkn, -⟩ := hall k hk
    rcases h.under hjm hlj with ⟨rfl, rfl⟩ | ⟨-, rfl⟩
    · exact ⟨j, hj, hlj, hjm⟩
    · obtain rfl := h.createHolds hkn hmk
      exact ⟨k, hk, hmk, hkn⟩
  obtain ⟨l, hl, j, hj, hne, hlj⟩ := hall c hc
  obtain rfl := h.createHolds hl howner
  obtain ⟨m, hm, -⟩ := hall j hj
  obtain rfl := h.killHolds hm hlj
  exact ⟨c, j, hne, ⟨howner, hwaits⟩, ⟨hlj, hm⟩⟩

theorem Inv.not_release_acquire (h : s.Inv) :
    s.todo i ≠ release m :: acquire l :: rest := by
  intro htodo
  obtain ⟨pre, hplace⟩ := h i
  have hmem := hplace.mem
  rw [htodo] at hmem
  rcases hmem with hnil | ⟨c, hsteps⟩
  · simp at hnil
  · cases c <;> rcases pre with _ | ⟨a, _ | ⟨b, _ | ⟨d, _ | ⟨e, pre⟩⟩⟩⟩ <;>
      simp [ProcCall.steps] at hsteps

/-- A step after which a CPU holds `m` and waits for `l` has taken `m`, or is a step of another
CPU. -/
theorem Inv.took (h : s.Inv) (ht : t.Inv) (hadvance : s.advance i = some t) (hwaits : t.Waits i l)
    (howner : t.owner m = some i) :
    (∃ rest, s.todo i = acquire m :: acquire l :: rest) ∧
      t.owner = Function.update s.owner m (some i) := by
  obtain ⟨rest', htodo'⟩ := hwaits
  rcases LockState.advance_eq hadvance with ⟨k, rest, htodo, -, rfl⟩ | ⟨k, rest, htodo, rfl⟩
  · obtain rfl : rest = acquire l :: rest' := by simpa using htodo'
    have hk : k = m := by
      by_contra hne
      have hold : s.owner m = some i := by simpa [Ne.symm hne] using howner
      have hmk := h.under ⟨_, htodo⟩ hold
      have hml := ht.under ⟨rest', htodo'⟩ howner
      have hkl := ht.under (m := k) ⟨rest', htodo'⟩ (by simp)
      rcases hmk with ⟨rfl, rfl⟩ | ⟨⟨c, rfl⟩, rfl⟩ <;> rcases hkl with ⟨hk, rfl⟩ | ⟨⟨c, hk⟩, rfl⟩
      · cases hk
      · rcases hml with ⟨-, hl⟩ | ⟨⟨d, hd⟩, -⟩
        · cases hl
        · cases hd
      · rcases hml with ⟨hd, -⟩ | ⟨-, hl⟩
        · cases hd
        · cases hl
      · cases hk
    subst hk
    exact ⟨⟨rest', htodo⟩, rfl⟩
  · obtain rfl : rest = acquire l :: rest' := by simpa using htodo'
    exact absurd htodo h.not_release_acquire

theorem waits_other (hadvance : s.advance i = some t) (hj : j ≠ i) : t.Waits j l ↔ s.Waits j l := by
  rcases LockState.advance_eq hadvance with ⟨k, rest, -, -, rfl⟩ | ⟨k, rest, -, rfl⟩ <;>
    simp [LockState.Waits, hj]

theorem owner_other (hadvance : s.advance i = some t) (hj : j ≠ i) (howner : t.owner m = some j) :
    s.owner m = some j := by
  rcases LockState.advance_eq hadvance with ⟨k, rest, -, -, rfl⟩ | ⟨k, rest, -, rfl⟩ <;>
    by_cases hm : m = k <;> simp_all

theorem Inv.not_deadlocked_advance (h : s.Inv) (ht : t.Inv) (hs : ¬ s.Deadlocked)
    (hadvance : s.advance i = some t) (hapart : s.KeepsApart (.run i)) : ¬ t.Deadlocked := by
  intro hdead
  obtain ⟨c, j, hne, hcreate, hkill⟩ := ht.exists_of_deadlocked hdead
  by_cases hc : c = i
  · subst hc
    obtain ⟨⟨rest, htodo⟩, -⟩ := h.took ht hadvance hcreate.waits hcreate.owner
    exact hapart.1 rest htodo j ⟨owner_other hadvance hne hkill.owner,
      (waits_other hadvance hne).mp hkill.waits⟩
  · have hcreate' : s.CreateHolds c :=
      ⟨owner_other hadvance hc hcreate.owner, (waits_other hadvance hc).mp hcreate.waits⟩
    by_cases hj : j = i
    · subst hj
      obtain ⟨⟨rest, htodo⟩, -⟩ := h.took ht hadvance hkill.waits hkill.owner
      exact hapart.2 c rest htodo hcreate'
    · have hkill' : s.KillHolds j c :=
        ⟨owner_other hadvance hj hkill.owner, (waits_other hadvance hj).mp hkill.waits⟩
      exact hs (LockState.deadlocked_of_pair hne.symm hcreate'.waits hkill'.owner hkill'.waits
        hcreate'.owner)

theorem Inv.deadlocked_advance (ht : t.Inv) (hadvance : s.advance i = some t)
    (hapart : ¬ s.KeepsApart (.run i)) : t.Deadlocked := by
  have hmeets : (∃ rest j, s.todo i = acquire .combined :: acquire (.cpu i) :: rest ∧
      s.KillHolds j i) ∨
      ∃ c rest, s.todo i = acquire (.cpu c) :: acquire .combined :: rest ∧ s.CreateHolds c := by
    by_contra hnone
    push Not at hnone
    exact hapart ⟨fun rest htodo j => hnone.1 rest j htodo, hnone.2⟩
  -- the step takes the first of two locks, and the other CPU keeps what it has
  have hstep : ∀ {k l : ProcLock ι} {rest}, s.todo i = acquire k :: acquire l :: rest →
      t.Waits i l ∧ t.owner k = some i ∧ ∀ m j, s.owner m = some j → t.owner m = some j := by
    intro k l rest htodo
    rcases LockState.advance_eq hadvance with ⟨k', rest', htodo', hfree, rfl⟩ |
      ⟨k', rest', htodo', rfl⟩
    · obtain ⟨hk, rfl⟩ :
        k = k' ∧ acquire l :: rest = rest' := by simpa using htodo.symm.trans htodo'
      subst hk
      refine ⟨⟨rest, by simp⟩, by simp, fun m j howner => ?_⟩
      have hm : m ≠ k := by
        rintro rfl
        rw [hfree] at howner
        cases howner
      simpa [hm] using howner
    · have := htodo.symm.trans htodo'
      simp at this
  rcases hmeets with ⟨rest, j, htodo, hkill⟩ | ⟨c, rest, htodo, hcreate⟩
  · obtain ⟨hwaits, howner, hkeeps⟩ := hstep htodo
    have hcpu := hkeeps _ _ hkill.owner
    have hji : j ≠ i := by
      rintro rfl
      cases ht.killHolds hwaits hcpu
    exact LockState.deadlocked_of_pair hji.symm hwaits hcpu
      ((waits_other hadvance hji).mpr hkill.waits) howner
  · obtain ⟨hwaits, howner, hkeeps⟩ := hstep htodo
    have hcombined := hkeeps _ _ hcreate.owner
    have hci : c ≠ i := by
      rintro rfl
      cases ht.createHolds hwaits hcombined
    exact LockState.deadlocked_of_pair hci.symm hwaits hcombined
      ((waits_other hadvance hci).mpr hcreate.waits) howner

theorem Inv.not_deadlocked_call {c : ProcCall ι} (h : s.Inv) (ht : t.Inv) (hs : ¬ s.Deadlocked)
    (hstart : s.start i (c.steps i) = some t) : ¬ t.Deadlocked := by
  intro hdead
  obtain ⟨k, j, hne, hcreate, hkill⟩ := ht.exists_of_deadlocked hdead
  obtain ⟨hnil, rfl⟩ := LockState.start_eq hstart
  have hholds : ∀ {m : ProcLock ι} {k}, s.owner m = some k → k ≠ i := by
    rintro m k howner rfl
    exact LockState.InOps.owner_of_nil h wellNested hnil howner
  have hk : k ≠ i := hholds hcreate.owner
  have hj : j ≠ i := hholds hkill.owner
  refine hs (LockState.deadlocked_of_pair (i := k) (j := j) (l := .cpu k) (m := .combined) hne.symm
    ?_ hkill.owner ?_ hcreate.owner)
  · simpa [LockState.Waits, hk] using hcreate.waits
  · simpa [LockState.Waits, hj] using hkill.waits

omit [DecidableEq ι] in
theorem not_deadlocked_idle : ¬ (LockState.idle : ProcLocks ι).Deadlocked := by
  rintro ⟨S, ⟨i, hi⟩, hall⟩
  obtain ⟨l, ⟨rest, htodo⟩, -⟩ := hall i hi
  cases htodo

/-- A run stays out of deadlocks exactly if all its steps keep creations and kills apart. -/
theorem never_deadlocked_iff (events : List (ProcEvent ι)) :
    AllStates step (fun s => ¬ s.Deadlocked) LockState.idle events ↔
      AllSteps step KeepsApart LockState.idle events := by
  have hidle : Inv (LockState.idle : ProcLocks ι) := LockState.inOps_idle fun _ => .inl rfl
  refine allStates_iff_allSteps (fun {s t e} hs hdead hstep => ?_) hidle not_deadlocked_idle events
  have ht := hs.step hstep
  refine ⟨ht, ?_⟩
  cases e with
  | call i c => exact ⟨fun _ => trivial, fun _ => hs.not_deadlocked_call ht hdead hstep⟩
  | run i =>
    constructor
    · intro hnot
      by_contra hapart
      exact hnot (ht.deadlocked_advance hstep hapart)
    · exact hs.not_deadlocked_advance ht hdead hstep

def startAndKill : List (ProcEvent (Fin 2)) := [.call 0 .create, .call 1 (.kill 0), .run 0, .run 1]

theorem startAndKill_deadlocks :
    ¬ ∀ events : List (ProcEvent (Fin 2)),
      AllStates step (fun s => ¬ s.Deadlocked) LockState.idle events := by
  intro hall
  obtain ⟨-, h⟩ := hall startAndKill
  obtain ⟨-, h⟩ := h _ rfl
  obtain ⟨-, h⟩ := h _ rfl
  obtain ⟨-, h⟩ := h _ rfl
  exact h _ rfl
    (LockState.deadlocked_of_pair (i := 0) (j := 1) (by decide) ⟨_, rfl⟩ rfl ⟨_, rfl⟩ rfl)

end ProcLocks

end RetroRocket
