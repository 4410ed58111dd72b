import RetroRocket.IdleTimers

/-!
# What a pass over the idle timers loses

A callback links what it enters in at `task_idles`. A deferred call is taken out through the link
that led to it, which was looked for before its callback ran: where that is `task_idles` itself,
whatever the callback has entered is cut off with it. Everywhere else the list keeps all that was
entered and has not run.
-/

namespace RetroRocket

def IdleTimer.entry (t : IdleTimer) : IdleTimer :=
  if t.frequency = 0 then t else { t with nextTick := 0 }

namespace IdleState

def onceRan (s : IdleState) : List IdleTimer := s.ran.filter fun t => t.frequency = 0

/-- The addresses `xs` are those of the foreground list. -/
structure Lists (s : IdleState) (xs : List ℕ) : Prop where
  linked : Linked 0 s.next s.taskIdles xs 0
  nodup : xs.Nodup
  live : ∀ x ∈ xs, x ∈ s.live

def entriesOf (s : IdleState) (xs : List ℕ) : List IdleTimer := xs.map fun x => (s.timer x).entry

/-! ## What is asked of a run -/

def RunsDue (env : IdleEnv) (s s' : IdleState) : Prop :=
  ∀ t ∈ s.entered, t.frequency = 0 →
    (∀ k, s.reads ≤ k → k < s'.reads → t.nextTick < env.ticks k) → t ∈ s'.onceRan

/-- After some events: the last pass returns, the deferred calls that were run are those freed, none
was run twice, and the list holds what was entered except these; and the last pass ran those due. -/
structure Conserved (env : IdleEnv) (past : List IdleEvent) : Prop where
  returns : ∃ s, Runs env past s
  freed : ∀ s, Runs env past s → s.freed = s.onceRan.map IdleTimer.number
  once : ∀ s, Runs env past s → (s.onceRan.map IdleTimer.number).Nodup
  list : ∀ s, Runs env past s →
    ∃ xs, s.Lists xs ∧ (s.entriesOf xs ++ s.onceRan).Perm (s.entered.map IdleTimer.entry)
  due : ∀ s s' fuel earlier, past = .pass 0 :: earlier → Runs env earlier s →
    s.runIdles env fuel 0 = some s' → RunsDue env s s'

inductive Reaches (env : IdleEnv) : IdleLink → IdleState → IdleLink → IdleState → Prop
  | refl (p s) : Reaches env p s p s
  | step {p s p₁ s₁ p' s'} (i : ℕ) : s.readLink p = some i → i ≠ 0 →
      s.turn env p i = some (p₁, s₁) →
      Reaches env p₁ s₁ p' s' → Reaches env p s p' s'

/-- The callback of a deferred call that is taken out at `task_idles` enters nothing. -/
def TurnKeeps (env : IdleEnv) (p : IdleLink) (s : IdleState) : Prop :=
  p = .head → s.taskIdles ≠ 0 → s.Due env s.taskIdles → (s.timer s.taskIdles).frequency = 0 →
    (s.getTicks.runFunc env s.taskIdles).entered = s.entered

def PassKeeps (env : IdleEnv) (s : IdleState) : Prop :=
  ∀ p s', Reaches env .head s p s' → s'.TurnKeeps env p

/-! ## Entries that are made -/

variable {env : IdleEnv} {s s' s₁ s₂ : IdleState} {p p' : IdleLink} {xs P Q L R : List ℕ} {i : ℕ}
  {lost : List IdleTimer}

structure Counted (s : IdleState) : Prop where
  bound : ∀ t ∈ s.entered, t.number < s.made
  nodup : (s.entered.map IdleTimer.number).Nodup

/-- The entries `P` were made in front of the foreground list, and nothing else was done to it. -/
structure Entering (s s' : IdleState) (P : List ℕ) : Prop where
  linked : Linked 0 s'.next s'.taskIdles P s.taskIdles
  nodup : P.Nodup
  fresh : ∀ x ∈ P, x ∉ s.live ∧ x ∈ s'.live
  live : s.live ⊆ s'.live
  next : ∀ x ∈ s.live, s'.next x = s.next x
  timer : ∀ x ∈ s.live, s'.timer x = s.timer x
  entered : s'.entered = s.entered ++ (P.map s'.timer).reverse
  ran : s'.ran = s.ran
  freed : s'.freed = s.freed
  reads : s.reads ≤ s'.reads
  counted : s.Counted → s'.Counted

theorem Entering.refl (s : IdleState) : Entering s s [] where
  linked := rfl
  nodup := List.nodup_nil
  fresh _ hx := absurd hx List.not_mem_nil
  live := subset_rfl
  next _ _ := rfl
  timer _ _ := rfl
  entered := by simp
  ran := rfl
  freed := rfl
  reads := le_rfl
  counted := id

theorem Entering.trans (h : Entering s s₁ P) (h' : Entering s₁ s₂ Q) : Entering s s₂ (Q ++ P) where
  linked := linked_append.mpr ⟨_, h'.linked, h.linked.congr fun x hx => h'.next x (h.fresh x hx).2⟩
  nodup := by
    refine List.nodup_append.mpr ⟨h'.nodup, h.nodup, ?_⟩
    rintro x hx y hy rfl
    exact (h'.fresh x hx).1 (h.fresh x hy).2
  fresh := by
    intro x hx
    rcases List.mem_append.mp hx with hx | hx
    · exact ⟨fun hlive => (h'.fresh x hx).1 (h.live hlive), (h'.fresh x hx).2⟩
    · exact ⟨(h.fresh x hx).1, h'.live (h.fresh x hx).2⟩
  live := h.live.trans h'.live
  next x hx := (h'.next x (h.live hx)).trans (h.next x hx)
  timer x hx := (h'.timer x (h.live hx)).trans (h.timer x hx)
  entered := by
    have hmap : P.map s₂.timer = P.map s₁.timer :=
      List.map_congr_left fun x hx => h'.timer x (h.fresh x hx).2
    rw [h'.entered, h.entered, List.map_append, List.reverse_append, hmap, List.append_assoc]
  ran := h'.ran.trans h.ran
  freed := h'.freed.trans h.freed
  reads := h.reads.trans h'.reads
  counted hs := h'.counted (h.counted hs)

theorem Counted.mono (h : s.Counted) (hentered : s'.entered = s.entered)
    (hmade : s.made ≤ s'.made) :
    s'.Counted where
  bound t ht := (h.bound t (hentered ▸ ht)).trans_le hmade
  nodup := by
    rw [hentered]
    exact h.nodup

theorem Counted.snoc (h : s.Counted) {t : IdleTimer} (ht : t.number = s.made)
    (hentered : s'.entered = s.entered ++ [t]) (hmade : s'.made = s.made + 1) : s'.Counted where
  bound u hu := by
    rw [hentered] at hu
    rcases List.mem_append.mp hu with hu | hu
    · have := h.bound u hu
      omega
    · rw [List.mem_singleton.mp hu]
      omega
  nodup := by
    rw [hentered, List.map_append, List.nodup_append]
    refine ⟨h.nodup, List.nodup_singleton _, ?_⟩
    intro n hn m hm
    obtain ⟨u, hu, rfl⟩ := List.mem_map.mp hn
    rw [List.map_singleton, List.mem_singleton] at hm
    have := h.bound u hu
    omega

theorem enter_spec (env : IdleEnv) (s : IdleState) (handler : ℕ) (type : IdleType)
    (frequency : BitVec 64) : ∃ P, Entering s (s.enter env handler type frequency) P := by
  unfold enter
  have hfresh := env.fresh s.live s.attempts
  generalize env.kmalloc s.live s.attempts = a at hfresh
  have hne : ∀ x ∈ s.live, x ≠ a := fun x hx heq => hfresh (heq ▸ hx)
  have hsame : ∀ x ∈ s.live, ∀ {α} (f : ℕ → α) v, Function.update f a v x = f x :=
    fun x hx _ f v => Function.update_of_ne (hne x hx) v f
  dsimp only
  split
  · exact ⟨[], Entering.refl s⟩
  · split
    · exact ⟨[], { Entering.refl s with counted := fun h => h.mono rfl le_rfl }⟩
    · next hzero =>
      cases type with
      | foreground =>
        refine ⟨[a], ⟨⟨rfl, hzero, ?_⟩, List.nodup_singleton a, ?_, Finset.subset_insert _ _,
          fun x hx => hsame x hx _ _, fun x hx => hsame x hx _ _, ?_, rfl, rfl, Nat.le_succ _,
          fun h => h.snoc rfl rfl rfl⟩⟩
        · exact Function.update_self ..
        · intro x hx
          rw [List.mem_singleton.mp hx]
          exact ⟨hfresh, Finset.mem_insert_self _ _⟩
        · dsimp only
          rw [List.map_singleton, Function.update_self]
          rfl
      | background =>
        exact ⟨[], ⟨rfl, List.nodup_nil, fun _ hx => absurd hx List.not_mem_nil,
          Finset.subset_insert _ _, fun x hx => hsame x hx _ _, fun x hx => hsame x hx _ _,
          (List.append_nil _).symm, rfl, rfl, Nat.le_succ _, fun h => h.mono rfl (Nat.le_succ _)⟩⟩

theorem call_spec (env : IdleEnv) (s : IdleState) (c : IdleCall) :
    ∃ P, Entering s (s.call env c) P := by
  cases c with
  | registerIdle handler type frequencyMs => exact enter_spec env s handler type frequencyMs
  | queueDpc handler => exact enter_spec env s handler .foreground 0

theorem foldl_call_spec (env : IdleEnv) (calls : List IdleCall) (s : IdleState) :
    ∃ P, Entering s (calls.foldl (call env) s) P := by
  induction calls generalizing s with
  | nil => exact ⟨[], Entering.refl s⟩
  | cons c calls ih =>
    obtain ⟨P, hP⟩ := call_spec env s c
    obtain ⟨Q, hQ⟩ := ih (s.call env c)
    exact ⟨Q ++ P, hP.trans hQ⟩

end IdleState

/-! ## Links -/

/-- The link `p` is behind the addresses `L`. -/
def IdleLink.At (p : IdleLink) (L : List ℕ) : Prop :=
  (p = .head ∧ L = []) ∨ ∃ L' a, p = .next a ∧ L = L' ++ [a]

namespace IdleState

variable {env : IdleEnv} {s s' s₁ s₂ : IdleState} {p p' : IdleLink} {xs P Q L R : List ℕ} {i : ℕ}
  {lost : List IdleTimer}

theorem Lists.entering (h : s.Lists xs) (hP : Entering s s' P) : s'.Lists (P ++ xs) where
  linked := linked_append.mpr ⟨_, hP.linked, h.linked.congr fun x hx => hP.next x (h.live x hx)⟩
  nodup := by
    refine List.nodup_append.mpr ⟨hP.nodup, h.nodup, ?_⟩
    rintro x hx y hy rfl
    exact (hP.fresh x hx).1 (h.live x hy)
  live x hx := by
    rcases List.mem_append.mp hx with hx | hx
    · exact (hP.fresh x hx).2
    · exact hP.live (h.live x hx)

theorem entriesOf_entering (h : s.Lists xs) (hP : Entering s s' P) :
    s'.entriesOf xs = s.entriesOf xs :=
  List.map_congr_left fun x hx => by rw [hP.timer x (h.live x hx)]

theorem entriesOf_append (s : IdleState) (xs ys : List ℕ) :
    s.entriesOf (xs ++ ys) = s.entriesOf xs ++ s.entriesOf ys := List.map_append

theorem Lists.readLink (h : s.Lists (L ++ R)) (hp : p.At L) :
    s.readLink p = some (R.head?.getD 0) := by
  rcases hp with ⟨rfl, rfl⟩ | ⟨L, a, rfl, rfl⟩
  · exact congrArg some h.linked.head
  · rw [List.append_assoc, List.singleton_append] at h
    have hlive := h.live a (List.mem_append_right _ List.mem_cons_self)
    exact (if_pos hlive).trans (congrArg some h.linked.next_eq)

/-- What is behind the link `&(*p)->next`. -/
theorem Lists.advance (h : s.Lists (L ++ i :: R)) (hp : p.At L) :
    s.readLink p = some i ∧ (IdleLink.next i).At (L ++ [i]) :=
  ⟨h.readLink hp, Or.inr ⟨L, i, rfl, rfl⟩⟩

/-- An entry is taken out at `task_idles` together with those in front of it. -/
theorem Lists.cut (h : s.Lists (P ++ i :: R)) :
    ({ s with taskIdles := s.next i } : IdleState).kfree i |>.Lists R := by
  have hlist := linked_append.mp h.linked
  obtain ⟨b, -, -, -, hR⟩ := hlist
  have hnodup := (List.nodup_append.mp h.nodup).2.1
  obtain ⟨hiR, hnodup⟩ := List.nodup_cons.mp hnodup
  refine ⟨hR, hnodup, fun x hx => Finset.mem_erase.mpr ⟨?_, ?_⟩⟩
  · rintro rfl
    exact hiR hx
  · exact h.live x (List.mem_append_right _ (List.mem_cons_of_mem _ hx))

theorem Lists.takeOut {a : ℕ} (h : s.Lists (L ++ a :: i :: R)) :
    ({ s with next := Function.update s.next a (s.next i) } : IdleState).kfree i |>.Lists
      (L ++ a :: R) := by
  have hsub : (L ++ a :: R).Sublist (L ++ a :: i :: R) :=
    ((List.sublist_cons_self i R).cons_cons a).append_left L
  refine ⟨h.linked.remove h.nodup, h.nodup.sublist hsub, fun x hx => Finset.mem_erase.mpr ⟨?_, ?_⟩⟩
  · rintro rfl
    have hnodup := h.nodup
    rw [List.append_cons, List.nodup_append, List.nodup_cons] at hnodup
    obtain ⟨-, ⟨hxR, -⟩, hdisj⟩ := hnodup
    rcases List.mem_append.mp hx with hx | hx
    · exact hdisj x (List.mem_append_left _ hx) x List.mem_cons_self rfl
    · rcases List.mem_cons.mp hx with rfl | hx
      · exact hdisj x (List.mem_append_right _ List.mem_cons_self) x List.mem_cons_self rfl
      · exact hxR hx
  · exact h.live x (hsub.subset hx)

/-! ## One turn -/

/-- A pass has come to the link `p`, behind `L` and in front of `R`, and has lost some entries. -/
structure Walk (s : IdleState) (p : IdleLink) (L R : List ℕ) (lost : List IdleTimer) : Prop where
  lists : s.Lists (L ++ R)
  link : p.At L
  kept : (s.entriesOf (L ++ R) ++ s.onceRan ++ lost).Perm (s.entered.map IdleTimer.entry)
  freed : s.freed = s.onceRan.map IdleTimer.number
  counted : s.Counted

/-- What a turn does to the rest of the pass: there is less of it, unless the link leaves
`task_idles`. -/
structure Turned (env : IdleEnv) (p : IdleLink) (s : IdleState) (i : ℕ) (R : List ℕ) (p' : IdleLink)
    (s' : IdleState) (R' : List ℕ) : Prop where
  next : (R' = R ∧ (p' = .head → p = .head)) ∨ (p = .head ∧ p' ≠ .head)
  reads : s.reads < s'.reads
  ran : s.onceRan ⊆ s'.onceRan
  rest : ∀ x ∈ R, x ∈ R' ∧ s'.timer x = s.timer x
  due : s.Due env i → (s.timer i).frequency = 0 → s.timer i ∈ s'.onceRan

theorem Walk.live (h : s.Walk p L (i :: R) lost) : i ∈ s.live :=
  h.lists.live i (List.mem_append_right _ List.mem_cons_self)

theorem Walk.wait (h : s.Walk p L (i :: R) lost) (hdue : ¬ s.Due env i) :
    ∃ s', s.turn env p i = some (.next i, s') ∧ s'.Walk (.next i) (L ++ [i]) R lost ∧
      Turned env p s i R (.next i) s' R := by
  obtain ⟨hread, hat⟩ := h.lists.advance h.link
  have hturn : s.turn env p i = some (.next i, s.getTicks) := by
    unfold turn
    rw [if_neg (not_not_intro h.live), if_neg hdue]
    exact congrArg (Option.map fun j => (IdleLink.next j, s.getTicks)) hread
  have hlists := h.lists
  have hkept := h.kept
  rw [List.append_cons] at hlists hkept
  exact ⟨s.getTicks, hturn, ⟨⟨hlists.linked, hlists.nodup, hlists.live⟩, hat, hkept, h.freed,
    ⟨h.counted.bound, h.counted.nodup⟩⟩,
    ⟨Or.inl ⟨rfl, fun heq => by cases heq⟩, Nat.lt_succ_self _, List.Subset.refl _,
      fun x hx => ⟨hx, rfl⟩, fun hdue' => absurd hdue' hdue⟩⟩

/-- The callback of `i` was run, and has made the entries `P`. -/
structure Called (s s' : IdleState) (i : ℕ) (xs P : List ℕ) : Prop where
  lists : s'.Lists (P ++ xs)
  timer : ∀ x ∈ xs, s'.timer x = s.timer x
  entries : s'.entriesOf xs = s.entriesOf xs
  entered : s'.entered.map IdleTimer.entry =
    s.entered.map IdleTimer.entry ++ (s'.entriesOf P).reverse
  ran : s'.ran = s.ran ++ [s.timer i]
  freed : s'.freed = s.freed
  reads : s.reads < s'.reads
  counted : s.Counted → s'.Counted

theorem Lists.runFunc (h : s.Lists xs) (env : IdleEnv) (i : ℕ) :
    ∃ P, Called s (s.getTicks.runFunc env i) i xs P ∧
      ((s.getTicks.runFunc env i).entered = s.entered ↔ P = []) := by
  obtain ⟨P, hP⟩ := foldl_call_spec env (env.calls s.getTicks.ran.length)
    { s.getTicks with ran := s.getTicks.ran ++ [s.timer i] }
  change Entering _ (s.getTicks.runFunc env i) P at hP
  have hlists : ({ s.getTicks with ran := s.getTicks.ran ++ [s.timer i] } : IdleState).Lists xs :=
    ⟨h.linked, h.nodup, h.live⟩
  refine ⟨P, ⟨hlists.entering hP, fun x hx => hP.timer x (h.live x hx),
    (entriesOf_entering hlists hP :), ?_, hP.ran, hP.freed, Nat.lt_of_succ_le hP.reads, fun hc =>
      hP.counted ⟨hc.bound, hc.nodup⟩⟩, ?_⟩
  · rw [hP.entered, List.map_append, List.map_reverse, List.map_map]
    rfl
  · rw [hP.entered]
    change s.entered ++ _ = s.entered ↔ P = []
    rw [List.append_right_eq_self, List.reverse_eq_nil_iff, List.map_eq_nil_iff]

theorem Called.onceRan {P : List ℕ} (h : Called s s' i xs P) :
    s'.onceRan = s.onceRan ++ if (s.timer i).frequency = 0 then [s.timer i] else [] := by
  unfold IdleState.onceRan
  rw [h.ran, List.filter_append]
  by_cases honce : (s.timer i).frequency = 0
  · rw [if_pos honce, List.filter_singleton, decide_eq_true honce]
    rfl
  · rw [if_neg honce, List.filter_singleton, decide_eq_false honce]
    rfl

theorem Walk.again (h : s.Walk p L (i :: R) lost) (hdue : s.Due env i)
    (honce : (s.timer i).frequency ≠ 0) :
    ∃ p' s' L' R', s.turn env p i = some (p', s') ∧ s'.Walk p' L' R' lost ∧
      Turned env p s i R p' s' R' := by
  obtain ⟨P, hcalled, -⟩ := h.lists.runFunc env i
  generalize hs₂ : s.getTicks.runFunc env i = s₂ at hcalled
  have hi : i ∈ L ++ i :: R := List.mem_append_right _ List.mem_cons_self
  have hlive : i ∈ s₂.live := hcalled.lists.live i (List.mem_append_right _ hi)
  have htimer := hcalled.timer i hi
  have hlists : (s₂.rearm env i).Lists (P ++ (L ++ i :: R)) :=
    ⟨hcalled.lists.linked, hcalled.lists.nodup, hcalled.lists.live⟩
  -- the tick of `i` does not count for its entry
  have hentries : ∀ ys, (s₂.rearm env i).entriesOf ys = s₂.entriesOf ys := by
    intro ys
    refine List.map_congr_left fun x _ => ?_
    change (Function.update s₂.timer i _ x).entry = _
    by_cases hx : x = i
    · rw [hx, Function.update_self]
      unfold IdleTimer.entry
      rw [htimer, if_neg honce, if_neg honce]
    · rw [Function.update_of_ne hx]
  -- the link that is read now is behind `Lp`
  obtain ⟨Lp, j, R', hat, hsplit, hnext, hrest⟩ : ∃ Lp j R', p.At Lp ∧
      P ++ (L ++ i :: R) = Lp ++ j :: R' ∧ (R' = R ∨ p = .head) ∧ ∀ x ∈ R, x ∈ R' := by
    rcases h.link with ⟨hp, rfl⟩ | ⟨L', a, hp, rfl⟩
    · cases P with
      | nil => exact ⟨[], i, R, Or.inl ⟨hp, rfl⟩, rfl, Or.inr hp, fun x hx => hx⟩
      | cons x P =>
        exact ⟨[], x, P ++ i :: R, Or.inl ⟨hp, rfl⟩, rfl, Or.inr hp,
          fun x hx => List.mem_append_right _ (List.mem_cons_of_mem i hx)⟩
    · exact ⟨P ++ (L' ++ [a]), i, R, Or.inr ⟨P ++ L', a, hp, (List.append_assoc ..).symm⟩,
        (List.append_assoc ..).symm, Or.inl rfl, fun x hx => hx⟩
  have hlists' := hlists
  rw [hsplit] at hlists'
  obtain ⟨hread, hat'⟩ := hlists'.advance hat
  have hturn : s.turn env p i = some (.next j, s₂.rearm env i) := by
    unfold turn
    rw [if_neg (not_not_intro h.live), if_pos hdue]
    dsimp only
    rw [hs₂, if_neg (not_not_intro hlive), if_neg (by rw [htimer]; exact honce), hread]
    rfl
  rw [List.append_cons Lp j R'] at hlists' hsplit
  have hran : (s₂.rearm env i).onceRan = s.onceRan := by
    have hran := hcalled.onceRan
    rw [if_neg honce, List.append_nil] at hran
    exact hran
  refine ⟨.next j, s₂.rearm env i, Lp ++ [j], R', hturn, ⟨hlists', hat', ?_, ?_, ?_⟩, ?_⟩
  · change (_ ++ _ ++ lost).Perm (s₂.entered.map IdleTimer.entry)
    rw [← hsplit, hran, hentries, hcalled.entered, entriesOf_append, hcalled.entries]
    have hkept := List.perm_iff_count.mp h.kept
    refine List.perm_iff_count.mpr fun t => ?_
    have ht := hkept t
    simp only [List.count_append, List.count_reverse] at ht ⊢
    omega
  · rw [hran]
    exact hcalled.freed.trans h.freed
  · exact ⟨(hcalled.counted h.counted).bound, (hcalled.counted h.counted).nodup⟩
  · refine ⟨?_, hcalled.reads.trans (Nat.lt_succ_self _), ?_, fun x hx => ⟨hrest x hx, ?_⟩,
      fun _ hzero => absurd hzero honce⟩
    · rcases hnext with hR | hp
      · exact Or.inl ⟨hR, fun heq => by cases heq⟩
      · exact Or.inr ⟨hp, fun heq => by cases heq⟩
    · rw [hran]
      exact List.Subset.refl _
    · have hxi : x ≠ i := by
        rintro rfl
        have hnodup := (List.nodup_append.mp h.lists.nodup).2.1
        exact (List.nodup_cons.mp hnodup).1 hx
      change Function.update s₂.timer i _ x = _
      rw [Function.update_of_ne hxi]
      exact hcalled.timer x (List.mem_append_right _ (List.mem_cons_of_mem i hx))

theorem Walk.runOnce (h : s.Walk p L (i :: R) lost) (hdue : s.Due env i)
    (honce : (s.timer i).frequency = 0) :
    ∃ s' L' new, s.turn env p i = some (p, s') ∧ s'.Walk p L' R (lost ++ new) ∧
      Turned env p s i R p s' R ∧
      (new = [] ↔ (p = .head → (s.getTicks.runFunc env i).entered = s.entered)) := by
  obtain ⟨P, hcalled, hP⟩ := h.lists.runFunc env i
  generalize hs₂ : s.getTicks.runFunc env i = s₂ at hcalled hP
  have hi : i ∈ L ++ i :: R := List.mem_append_right _ List.mem_cons_self
  have hlive : i ∈ s₂.live := hcalled.lists.live i (List.mem_append_right _ hi)
  have htimer := hcalled.timer i hi
  have hentry : (s.timer i).entry = s.timer i := if_pos honce
  have hran := hcalled.onceRan
  rw [if_pos honce] at hran
  have hfreed : s₂.freed ++ [(s₂.timer i).number] =
      (s.onceRan ++ [s.timer i]).map IdleTimer.number := by
    rw [hcalled.freed, h.freed, htimer, List.map_append]
    rfl
  -- what the entry that is taken out leaves, when it is taken out at the link `p`
  have hwrite : ∀ s₃, s₂.writeLink (s₂.next i) p = some s₃ →
      s.turn env p i = some (p, s₃.kfree i) := by
    intro s₃ hs₃
    unfold turn
    rw [if_neg (not_not_intro h.live), if_pos hdue]
    dsimp only
    rw [hs₂, if_neg (not_not_intro hlive), if_pos (by rw [htimer]; exact honce), hs₃]
    rfl
  have hturned : ∀ s' : IdleState, s'.reads = s₂.reads → s'.ran = s₂.ran → s'.timer = s₂.timer →
      Turned env p s i R p s' R := by
    intro s' hreads hran' htimer'
    have honceRan : s'.onceRan = s.onceRan ++ [s.timer i] := by
      rw [← hran]
      exact congrArg (List.filter _) hran'
    refine ⟨Or.inl ⟨rfl, id⟩, hreads ▸ hcalled.reads, ?_, fun x hx => ⟨hx, ?_⟩, fun _ _ => ?_⟩
    · rw [honceRan]
      exact List.subset_append_left _ _
    · rw [htimer']
      exact hcalled.timer x (List.mem_append_right _ (List.mem_cons_of_mem i hx))
    · rw [honceRan]
      exact List.mem_append_right _ List.mem_cons_self
  have hcount := List.perm_iff_count.mp h.kept
  have hcounted := hcalled.counted h.counted
  rcases h.link with ⟨rfl, rfl⟩ | ⟨L', a, rfl, rfl⟩
  · refine ⟨_, [], s₂.entriesOf P, hwrite _ rfl, ⟨hcalled.lists.cut, Or.inl ⟨rfl, rfl⟩, ?_, ?_,
      ⟨hcounted.bound, hcounted.nodup⟩⟩, hturned _ rfl rfl rfl, ?_⟩
    · change (s₂.entriesOf R ++ s₂.onceRan ++ _).Perm (s₂.entered.map IdleTimer.entry)
      have hentries := hcalled.entries
      change s₂.entriesOf (i :: R) = s.entriesOf (i :: R) at hentries
      refine List.perm_iff_count.mpr fun t => ?_
      have ht := hcount t
      rw [hran, hcalled.entered]
      change (List.count t (s.entriesOf (i :: R) ++ _ ++ _)) = _ at ht
      rw [← hentries] at ht
      change (List.count t ((s₂.timer i).entry :: s₂.entriesOf R ++ _ ++ _)) = _ at ht
      rw [htimer, hentry] at ht
      simp only [List.cons_append, List.count_append, List.count_cons, List.count_reverse,
        List.count_nil] at ht ⊢
      omega
    · change s₂.freed ++ _ = s₂.onceRan.map _
      rw [hfreed, hran]
    · unfold entriesOf
      rw [List.map_eq_nil_iff, ← hP]
      exact ⟨fun heq _ => heq, fun heq => heq rfl⟩
  · have hsplit : P ++ (L' ++ [a] ++ i :: R) = P ++ L' ++ a :: i :: R := by simp
    have hsplit' : P ++ L' ++ a :: R = P ++ (L' ++ [a]) ++ R := by simp
    have hlists := hcalled.lists
    rw [hsplit] at hlists
    have hlivea := hlists.live a (List.mem_append_right _ List.mem_cons_self)
    have htake := hlists.takeOut
    rw [hsplit'] at htake
    refine ⟨_, P ++ (L' ++ [a]), [], hwrite _ (if_pos hlivea), ⟨htake,
      Or.inr ⟨P ++ L', a, rfl, (List.append_assoc ..).symm⟩, ?_, ?_,
      ⟨hcounted.bound, hcounted.nodup⟩⟩, hturned _ rfl rfl rfl,
      fun _ heq => (IdleLink.noConfusion heq :), fun _ => rfl⟩
    · change (s₂.entriesOf _ ++ s₂.onceRan ++ _).Perm (s₂.entered.map IdleTimer.entry)
      refine List.perm_iff_count.mpr fun t => ?_
      have ht := hcount t
      rw [hran, hcalled.entered]
      rw [← hcalled.entries, entriesOf_append] at ht
      change (List.count t (_ ++ (s₂.timer i).entry :: s₂.entriesOf R ++ _ ++ _)) = _ at ht
      rw [htimer, hentry] at ht
      simp only [entriesOf_append, List.count_append, List.count_cons, List.count_reverse,
        List.count_nil] at ht ⊢
      omega
    · change s₂.freed ++ _ = s₂.onceRan.map _
      rw [hfreed, hran]

theorem Walk.turn (h : s.Walk p L (i :: R) lost) (env : IdleEnv) :
    ∃ p' s' L' R' new, s.turn env p i = some (p', s') ∧ s'.Walk p' L' R' (lost ++ new) ∧
      Turned env p s i R p' s' R' ∧ (new = [] ↔ s.TurnKeeps env p) := by
  have hhead : p = .head → s.taskIdles = i := by
    rintro rfl
    exact Option.some.inj (h.lists.advance h.link).1
  have hkeeps : ¬ (s.Due env i ∧ (s.timer i).frequency = 0) → s.TurnKeeps env p := by
    intro hnot hp hne hdue honce
    rw [hhead hp] at hdue honce
    exact absurd ⟨hdue, honce⟩ hnot
  by_cases hdue : s.Due env i
  · by_cases honce : (s.timer i).frequency = 0
    · obtain ⟨s', L', new, hturn, hwalk, hturned, hnew⟩ := h.runOnce hdue honce
      refine ⟨p, s', L', R, new, hturn, hwalk, hturned, hnew.trans ?_⟩
      constructor
      · intro hentered hp hne _ _
        rw [hhead hp]
        exact hentered hp
      · intro hkeeps hp
        have hi := hhead hp
        have hentered := hkeeps hp
        rw [hi] at hentered
        exact hentered (h.lists.linked.ne_null (List.mem_append_right _ List.mem_cons_self))
          hdue honce
    · obtain ⟨p', s', L', R', hturn, hwalk, hturned⟩ := h.again hdue honce
      exact ⟨p', s', L', R', [], hturn, (List.append_nil lost).symm ▸ hwalk, hturned,
        fun _ => hkeeps fun hboth => honce hboth.2, fun _ => rfl⟩
  · obtain ⟨s', hturn, hwalk, hturned⟩ := h.wait hdue
    exact ⟨.next i, s', L ++ [i], R, [], hturn, (List.append_nil lost).symm ▸ hwalk, hturned,
      fun _ => hkeeps fun hboth => hdue hboth.1, fun _ => rfl⟩

/-! ## One pass -/

theorem runIdlesLoop_succ {fuel : ℕ} (hread : s.readLink p = some i) (hi : i ≠ 0)
    (hturn : s.turn env p i = some (p', s')) :
    s.runIdlesLoop env (fuel + 1) p = s'.runIdlesLoop env fuel p' := by
  conv_lhs => unfold runIdlesLoop
  rw [hread]
  dsimp only
  rw [if_neg hi, hturn]

theorem Walk.read (h : s.Walk p L (i :: R) lost) : s.readLink p = some i ∧ i ≠ 0 :=
  ⟨(h.lists.advance h.link).1,
    h.lists.linked.ne_null (List.mem_append_right _ List.mem_cons_self)⟩

theorem Walk.read_nil (h : s.Walk p L [] lost) : s.readLink p = some 0 := h.lists.readLink h.link

/-- A pass that has left `task_idles` returns, by induction on what is behind the link. -/
theorem Walk.returns_next (h : s.Walk p L R lost) (hp : p ≠ .head) (env : IdleEnv) :
    ∃ fuel s', s.runIdlesLoop env fuel p = some s' := by
  induction R generalizing s p L lost with
  | nil =>
    refine ⟨1, s, ?_⟩
    unfold runIdlesLoop
    rw [h.read_nil]
    rfl
  | cons i R ih =>
    obtain ⟨p', s', L', R', new, hturn, hwalk, hturned, -⟩ := h.turn env
    rcases hturned.next with ⟨rfl, hnot⟩ | ⟨heq, -⟩
    · obtain ⟨fuel, s'', hloop⟩ := ih hwalk fun heq => hp (hnot heq)
      exact ⟨fuel + 1, s'', (runIdlesLoop_succ h.read.1 h.read.2 hturn).trans hloop⟩
    · exact absurd heq hp

/-- Every pass returns: while the link is `task_idles` the list gets shorter. -/
theorem Walk.returns (h : s.Walk p L R lost) (env : IdleEnv) :
    ∃ fuel s', s.runIdlesLoop env fuel p = some s' := by
  induction R generalizing s p L lost with
  | nil =>
    refine ⟨1, s, ?_⟩
    unfold runIdlesLoop
    rw [h.read_nil]
    rfl
  | cons i R ih =>
    obtain ⟨p', s', L', R', new, hturn, hwalk, hturned, -⟩ := h.turn env
    obtain ⟨fuel, s'', hloop⟩ : ∃ fuel s'', s'.runIdlesLoop env fuel p' = some s'' := by
      rcases hturned.next with ⟨rfl, -⟩ | ⟨-, hne⟩
      · exact ih hwalk
      · exact hwalk.returns_next hne env
    exact ⟨fuel + 1, s'', (runIdlesLoop_succ h.read.1 h.read.2 hturn).trans hloop⟩

theorem forall_reaches_iff (hread : s.readLink p = some i) (hi : i ≠ 0)
    (hturn : s.turn env p i = some (p', s')) :
    (∀ p₁ s₁, Reaches env p s p₁ s₁ → s₁.TurnKeeps env p₁) ↔
      s.TurnKeeps env p ∧ ∀ p₁ s₁, Reaches env p' s' p₁ s₁ → s₁.TurnKeeps env p₁ := by
  constructor
  · intro h
    exact ⟨h p s (.refl p s), fun p₁ s₁ hreaches => h p₁ s₁ (.step i hread hi hturn hreaches)⟩
  · rintro ⟨hfirst, hrest⟩ p₁ s₁ hreaches
    cases hreaches with
    | refl => exact hfirst
    | step j hread' _ hturn' hreaches =>
      obtain rfl := Option.some.inj (hread.symm.trans hread')
      obtain ⟨rfl, rfl⟩ := Prod.mk.inj (Option.some.inj (hturn.symm.trans hturn'))
      exact hrest p₁ s₁ hreaches

structure Passed (env : IdleEnv) (p : IdleLink) (s : IdleState) (R : List ℕ) (lost : List IdleTimer)
    (s' : IdleState) (xs : List ℕ) (new : List IdleTimer) : Prop where
  walk : s'.Walk .head [] xs (lost ++ new)
  keeps : new = [] ↔ ∀ p₁ s₁, Reaches env p s p₁ s₁ → s₁.TurnKeeps env p₁
  reads : s.reads ≤ s'.reads
  ran : s.onceRan ⊆ s'.onceRan
  due : ∀ x ∈ R, (s.timer x).frequency = 0 →
    (∀ k, s.reads ≤ k → k < s'.reads → (s.timer x).nextTick < env.ticks k) → s.timer x ∈ s'.onceRan

theorem Walk.restart (h : s.Walk p L R lost) : s.Walk .head [] (L ++ R) lost :=
  ⟨h.lists, Or.inl ⟨rfl, rfl⟩, h.kept, h.freed, h.counted⟩

theorem Walk.passed (h : s.Walk p L R lost) {fuel : ℕ}
    (hloop : s.runIdlesLoop env fuel p = some s') :
    ∃ xs new, Passed env p s R lost s' xs new := by
  induction fuel generalizing s p L R lost with
  | zero => cases hloop
  | succ fuel ih =>
    cases R with
    | nil =>
      have hread := h.read_nil
      have hs' : s = s' := by
        unfold runIdlesLoop at hloop
        rw [hread] at hloop
        exact Option.some.inj hloop
      subst hs'
      have hkeeps : ∀ p₁ s₁, Reaches env p s p₁ s₁ → s₁.TurnKeeps env p₁ := by
        intro p₁ s₁ hreaches
        cases hreaches with
        | refl =>
          rintro rfl hne
          exact absurd (Option.some.inj hread) hne
        | step i hread' hi =>
          exact absurd (Option.some.inj (hread'.symm.trans hread)) hi
      exact ⟨L ++ [], [], (List.append_nil lost).symm ▸ h.restart, ⟨fun _ => hkeeps, fun _ => rfl⟩,
        le_rfl, List.Subset.refl _, fun x hx => absurd hx List.not_mem_nil⟩
    | cons i R =>
      obtain ⟨p₁, s₁, L', R', new, hturn, hwalk, hturned, hnew⟩ := h.turn env
      rw [runIdlesLoop_succ h.read.1 h.read.2 hturn] at hloop
      obtain ⟨xs, new', hpassed⟩ := ih hwalk hloop
      have hreads := hturned.reads
      refine ⟨xs, new ++ new', List.append_assoc lost new new' ▸ hpassed.walk, ?_,
        hreads.le.trans hpassed.reads, List.Subset.trans hturned.ran hpassed.ran, ?_⟩
      · rw [forall_reaches_iff h.read.1 h.read.2 hturn, List.append_eq_nil_iff, hnew, hpassed.keeps]
      · intro x hx honce hticks
        rcases List.mem_cons.mp hx with rfl | hx
        · have hdue : s.Due env x := hticks _ le_rfl (hreads.trans_le hpassed.reads)
          exact hpassed.ran (hturned.due hdue honce)
        · obtain ⟨hx', htimer⟩ := hturned.rest x hx
          have hrest := hpassed.due x hx'
          rw [htimer] at hrest
          exact hrest honce fun k hk => hticks k (hreads.le.trans hk)

/-! ## Runs -/

theorem walk_init : init.Walk .head [] [] [] :=
  ⟨⟨rfl, List.nodup_nil, fun _ hx => absurd hx List.not_mem_nil⟩, Or.inl ⟨rfl, rfl⟩,
    List.Perm.nil, rfl,
    ⟨fun _ ht => absurd ht List.not_mem_nil, List.nodup_nil⟩⟩

theorem Walk.call (h : s.Walk .head [] xs lost) (env : IdleEnv) (c : IdleCall) :
    ∃ P, (s.call env c).Walk .head [] (P ++ xs) lost := by
  obtain ⟨P, hP⟩ := call_spec env s c
  have hlists : s.Lists xs := h.lists
  have honce : (s.call env c).onceRan = s.onceRan := congrArg (List.filter _) hP.ran
  refine ⟨P, h.lists.entering hP, Or.inl ⟨rfl, rfl⟩, ?_, ?_, hP.counted h.counted⟩
  · have hkept := List.perm_iff_count.mp h.kept
    have hmap : (s.call env c).entered.map IdleTimer.entry =
        s.entered.map IdleTimer.entry ++ ((s.call env c).entriesOf P).reverse := by
      rw [hP.entered, List.map_append, List.map_reverse, List.map_map]
      rfl
    refine List.perm_iff_count.mpr fun t => ?_
    have ht := hkept t
    rw [hmap, honce, List.nil_append, entriesOf_append,
      entriesOf_entering hlists hP]
    rw [List.nil_append] at ht
    simp only [List.count_append, List.count_reverse] at ht ⊢
    omega
  · rw [honce, hP.freed]
    exact h.freed

theorem runIdles_cases {fuel cpu : ℕ} (h : s.runIdles env fuel cpu = some s') :
    (cpu ≠ 0 ∧ s' = s) ∨ (cpu = 0 ∧ ∃ fuel', s.runIdlesLoop env fuel' .head = some s') := by
  unfold runIdles at h
  by_cases hcpu : cpu = 0
  · by_cases hne : s.taskIdles = 0
    · rw [if_neg (fun hboth => hboth.2 hne)] at h
      refine Or.inr ⟨hcpu, 1, ?_⟩
      rw [← h]
      unfold runIdlesLoop
      change (if s.taskIdles = 0 then _ else _) = _
      exact if_pos hne
    · rw [if_pos ⟨hcpu, hne⟩] at h
      exact Or.inr ⟨hcpu, fuel, h⟩
  · rw [if_neg (fun hboth => hcpu hboth.1)] at h
    exact Or.inl ⟨hcpu, (Option.some.inj h).symm⟩

theorem Runs.walk {past : List IdleEvent} (h : Runs env past s) :
    ∃ xs lost, s.Walk .head [] xs lost := by
  induction h with
  | init => exact ⟨[], [], walk_init⟩
  | call c _ ih =>
    obtain ⟨xs, lost, hwalk⟩ := ih
    obtain ⟨P, hwalk'⟩ := hwalk.call env c
    exact ⟨P ++ xs, lost, hwalk'⟩
  | pass fuel cpu _ hpass ih =>
    obtain ⟨xs, lost, hwalk⟩ := ih
    rcases runIdles_cases hpass with ⟨-, rfl⟩ | ⟨-, fuel', hloop⟩
    · exact ⟨xs, lost, hwalk⟩
    · obtain ⟨xs', new, hpassed⟩ := hwalk.passed hloop
      exact ⟨xs', lost ++ new, hpassed.walk⟩

theorem exists_pass {past : List IdleEvent} (h : Runs env past s) (cpu : ℕ) :
    ∃ fuel s', s.runIdles env fuel cpu = some s' := by
  unfold runIdles
  by_cases hpass : cpu = 0 ∧ s.taskIdles ≠ 0
  · obtain ⟨xs, lost, hwalk⟩ := h.walk
    obtain ⟨fuel, s', hloop⟩ := hwalk.returns env
    exact ⟨fuel, s', (if_pos hpass).trans hloop⟩
  · exact ⟨0, s, if_neg hpass⟩

theorem exists_runs (env : IdleEnv) (past : List IdleEvent) : ∃ s, Runs env past s := by
  induction past with
  | nil => exact ⟨init, .init⟩
  | cons e past ih =>
    obtain ⟨s, hs⟩ := ih
    cases e with
    | call c => exact ⟨s.call env c, .call c hs⟩
    | pass cpu =>
      obtain ⟨fuel, s', hpass⟩ := exists_pass hs cpu
      exact ⟨s', .pass fuel cpu hs hpass⟩

def RunKeeps (env : IdleEnv) (past : List IdleEvent) : Prop :=
  ∀ s earlier, .pass 0 :: earlier <:+ past → Runs env earlier s → s.PassKeeps env

theorem RunKeeps.suffix {past earlier : List IdleEvent} (h : RunKeeps env past)
    (hsuffix : earlier <:+ past) : RunKeeps env earlier :=
  fun s earlier' hsuffix' hs => h s earlier' (hsuffix'.trans hsuffix) hs

theorem Runs.walk_kept {past : List IdleEvent} (h : Runs env past s) (hkeeps : RunKeeps env past) :
    ∃ xs, s.Walk .head [] xs [] := by
  induction h with
  | init => exact ⟨[], walk_init⟩
  | call c _ ih =>
    obtain ⟨xs, hwalk⟩ := ih (hkeeps.suffix (List.suffix_cons _ _))
    obtain ⟨P, hwalk'⟩ := hwalk.call env c
    exact ⟨P ++ xs, hwalk'⟩
  | @pass past s s' fuel cpu hs hpass ih =>
    obtain ⟨xs, hwalk⟩ := ih (hkeeps.suffix (List.suffix_cons _ _))
    rcases runIdles_cases hpass with ⟨-, rfl⟩ | ⟨rfl, fuel', hloop⟩
    · exact ⟨xs, hwalk⟩
    · obtain ⟨xs', new, hpassed⟩ := hwalk.passed hloop
      have hnew : new = [] := hpassed.keeps.mpr (hkeeps s past List.suffix_rfl hs)
      subst hnew
      exact ⟨xs', hpassed.walk⟩

theorem entry_number (t : IdleTimer) : t.entry.number = t.number := by
  unfold IdleTimer.entry
  split <;> rfl

theorem eq_of_entry {t u : IdleTimer} (h : t = u.entry) (honce : t.frequency = 0) : t = u := by
  unfold IdleTimer.entry at h
  split at h
  · exact h
  · next hnot =>
    rw [h] at honce
    exact absurd honce hnot

theorem Walk.once (h : s.Walk .head [] xs lost) : (s.onceRan.map IdleTimer.number).Nodup := by
  have hperm := h.kept.map IdleTimer.number
  have hnumber : (s.entered.map IdleTimer.entry).map IdleTimer.number =
      s.entered.map IdleTimer.number := by
    rw [List.map_map]
    exact List.map_congr_left fun t _ => entry_number t
  have hnodup := h.counted.nodup
  rw [← hnumber, ← hperm.nodup_iff, List.map_append, List.map_append] at hnodup
  exact (List.nodup_append.mp (List.nodup_append.mp hnodup).1).2.1

theorem Walk.runsDue (h : s.Walk .head [] xs []) {fuel : ℕ}
    (hpass : s.runIdles env fuel 0 = some s') : RunsDue env s s' := by
  rcases runIdles_cases hpass with ⟨hne, -⟩ | ⟨-, fuel', hloop⟩
  · exact absurd rfl hne
  obtain ⟨xs', new, hpassed⟩ := h.passed hloop
  intro t ht honce hticks
  have hentry : t.entry = t := if_pos honce
  have hmem : t ∈ s.entered.map IdleTimer.entry := List.mem_map.mpr ⟨t, ht, hentry⟩
  rw [← h.kept.mem_iff, List.append_nil] at hmem
  rcases List.mem_append.mp hmem with hmem | hmem
  · obtain ⟨x, hx, hxt⟩ := List.mem_map.mp hmem
    have hxt := eq_of_entry hxt.symm honce
    rw [hxt] at honce hticks ⊢
    exact hpassed.due x hx honce hticks
  · exact hpassed.ran hmem

/-- A run conserves what is entered, and runs each deferred call once, if and only if no callback of
a deferred call that is taken out at `task_idles` enters anything. -/
theorem conserved_iff (env : IdleEnv) (past : List IdleEvent) :
    (∀ earlier, earlier <:+ past → Conserved env earlier) ↔ RunKeeps env past := by
  constructor
  · intro h s earlier hsuffix hs
    obtain ⟨xs, hlists, hperm⟩ :=
      (h earlier ((List.suffix_cons _ _).trans hsuffix)).list s hs
    obtain ⟨xs', lost, hwalk⟩ := hs.walk
    obtain rfl : xs' = xs := hwalk.lists.linked.unique hlists.linked
    obtain ⟨fuel, s', hpass⟩ := exists_pass hs 0
    obtain ⟨ys, hlists', hperm'⟩ := (h _ hsuffix).list s' (.pass fuel 0 hs hpass)
    rcases runIdles_cases hpass with ⟨hne, -⟩ | ⟨-, fuel', hloop⟩
    · exact absurd rfl hne
    obtain ⟨ys', new, hpassed⟩ := hwalk.passed hloop
    obtain rfl : ys' = ys := hpassed.walk.lists.linked.unique hlists'.linked
    have hlen := hpassed.walk.kept.length_eq.trans hperm'.length_eq.symm
    simp only [List.nil_append, List.length_append] at hlen
    have hnew : new = [] := List.eq_nil_of_length_eq_zero (by omega)
    exact hpassed.keeps.mp hnew
  · intro h earlier hsuffix
    have hkeeps := h.suffix hsuffix
    refine ⟨exists_runs env earlier, fun s hs => ?_, fun s hs => ?_, fun s hs => ?_,
      fun s s' fuel before heq hs hpass => ?_⟩
    · obtain ⟨xs, hwalk⟩ := hs.walk_kept hkeeps
      exact hwalk.freed
    · obtain ⟨xs, hwalk⟩ := hs.walk_kept hkeeps
      exact hwalk.once
    · obtain ⟨xs, hwalk⟩ := hs.walk_kept hkeeps
      have hkept := hwalk.kept
      rw [List.append_nil] at hkept
      exact ⟨xs, hwalk.lists, hkept⟩
    · subst heq
      obtain ⟨xs, hwalk⟩ := hs.walk_kept (hkeeps.suffix (List.suffix_cons _ _))
      exact hwalk.runsDue hpass

/-! ## A deferred call that enters another -/

def deferringEnv : IdleEnv where
  ticks k := BitVec.ofNat 64 k
  calls k := if k = 0 then [.queueDpc 2] else []
  kmalloc live _ := live.sup id + 1
  fresh live _ := succ_sup_not_mem live

/-- A deferred call is queued, and a pass is made: its callback defers another. -/
theorem not_conserved_deferring :
    ¬ Conserved deferringEnv [.pass 0, .call (.queueDpc 1)] := by
  intro h
  have hqueued : Runs deferringEnv [.call (.queueDpc 1)] (init.call deferringEnv (.queueDpc 1)) :=
    .call _ .init
  cases hpass : (init.call deferringEnv (.queueDpc 1)).runIdles deferringEnv 2 0 with
  | none => exact absurd hpass (Option.isSome_iff_ne_none.mp rfl)
  | some s =>
    obtain ⟨xs, hlists, hperm⟩ := h.list s (.pass 2 0 hqueued hpass)
    have hstate :
        s = (((init.call deferringEnv (.queueDpc 1)).runIdles deferringEnv 2 0).get rfl) := by
      simp only [hpass, Option.get_some]
    have hhead : s.taskIdles = 0 := by
      rw [hstate]
      rfl
    have hlen := hperm.length_eq
    have hentered : s.entered.length = 2 := by
      rw [hstate]
      rfl
    have hran : s.onceRan.length = 1 := by
      rw [hstate]
      rfl
    have hxs : xs = [] := by
      cases xs with
      | nil => rfl
      | cons x xs => exact absurd (hhead.symm.trans hlists.linked.1) (Ne.symm hlists.linked.2.1)
    subst hxs
    rw [List.length_append, List.length_map, hentered, hran] at hlen
    cases hlen

end IdleState

end RetroRocket
