import Mathlib.Logic.Function.Basic
import RetroRocket.Action
import RetroRocket.Run

/-!
# Restrictions of BASIC programs

`RESTRICT` and `DERESTRICT` keep a set of names for the programs that a program launches with
`CHAIN` or with an `EVAL` of several lines, and `basic_pass_restrictions_to_child` copies the names
of both sets of the parent. A copy that runs out of memory stops, and the launch does not look at
its result. The answers of the allocator are part of each statement. Whether a name is that of a
keyword or of a built-in function is a parameter.
-/

namespace RetroRocket

/-- A hash map of restrictions: its items, in the order in which they are scanned, and the number of
its buckets. -/
structure RestrictionMap where
  items : List String
  nbuckets : ℕ
  deriving DecidableEq

/-- The part of `basic_ctx` that restrictions are kept in. -/
structure RestrictCtx where
  activeRestrictions : Option RestrictionMap
  childRestrictions : Option RestrictionMap
  errors : List String
  deriving DecidableEq

/-- A program at work. The allocator answers from the list, and behind its end it always
succeeds. -/
structure RestrictTask where
  ctx : RestrictCtx
  answers : List Bool

namespace Restrictions

def malloc : Action RestrictTask Unit := fun s =>
  match s.answers with
  | [] => (some (), s)
  | true :: answers => (some (), { s with answers })
  | false :: answers => (none, { s with answers })

def report (error : String) : Action RestrictTask Unit :=
  Action.modify fun s => { s with ctx.errors := error :: s.ctx.errors }

def setActive (map : RestrictionMap) : Action RestrictTask Unit :=
  Action.modify fun s => { s with ctx.activeRestrictions := some map }

def setChild (map : RestrictionMap) : Action RestrictTask Unit :=
  Action.modify fun s => { s with ctx.childRestrictions := some map }

/-! ## Hash maps -/

/-- `hashmap_new_with_allocator`, which allocates the map and its buckets. -/
def hashmapNew : Action RestrictTask RestrictionMap := do
  malloc
  malloc
  pure ⟨[], 16⟩

/-- `hashmap_set`, which fails where `hashmap_oom` holds behind it. -/
def hashmapSet (name : String) (map : RestrictionMap) : Action RestrictTask RestrictionMap := do
  let map ← if map.items.length = map.nbuckets * 3 / 4 then do
      malloc
      malloc
      pure { map with nbuckets := map.nbuckets * 2 }
    else pure map
  pure { map with items := if name ∈ map.items then map.items else map.items ++ [name] }

/-- `hashmap_delete` of an item, which goes on as it is where the map cannot be made smaller. -/
def hashmapDelete (name : String) (map : RestrictionMap) : Action RestrictTask RestrictionMap := do
  let map := { map with items := map.items.erase name }
  if 16 < map.nbuckets ∧ map.items.length ≤ map.nbuckets / 10 then do
    let shrunk ← (do malloc; malloc : Action RestrictTask Unit).attempt
    pure { map with nbuckets := if shrunk.isSome then map.nbuckets / 2 else map.nbuckets }
  else pure map

/-! ## The sets of a program -/

/-- `is_restricted_len`. -/
def isRestricted (ctx : RestrictCtx) (name : String) : Bool :=
  match ctx.activeRestrictions with
  | none => false
  | some map => name ∈ map.items

def orReport (error : String) {α : Type} (m : Action RestrictTask α) : Action RestrictTask α := do
  match ← m.attempt with
  | some a => pure a
  | none => do
    report error
    Action.fail

/-- `basic_restrict_keyword_or_function_for_child`. -/
def basicRestrict (name : String) : Action RestrictTask Unit := do
  let s ← Action.get
  let map ← match s.ctx.childRestrictions with
    | some map => pure map
    | none => do
      let map ← orReport "Out of memory creating restriction" hashmapNew
      setChild map
      pure map
  orReport "Out of memory setting restriction" malloc
  let map ← orReport "Out of memory setting restriction" (hashmapSet name map)
  setChild map

/-- `basic_derestrict_keyword_or_function_for_child`. -/
def basicDerestrict (name : String) : Action RestrictTask Unit := do
  let s ← Action.get
  match s.ctx.childRestrictions with
  | none => do
    report "Nothing to derestrict"
    Action.fail
  | some map =>
    if name ∈ map.items then do
      let map ← hashmapDelete name map
      setChild map
    else do
      report "Keyword was not restricted"
      Action.fail

/-- `parse_restriction_list`, on the names of the list. -/
def parseRestrictionList (isValidRestrictionName : String → Bool) (add : Bool) :
    List String → Action RestrictTask Unit
  | [] => report "Expected keyword or builtin function"
  | name :: names =>
    if name = "" then report "Expected keyword or builtin function"
    else if isValidRestrictionName name then do
      if add then basicRestrict name else basicDerestrict name
      if names = [] then pure () else parseRestrictionList isValidRestrictionName add names
    else report ("'" ++ name ++ "' is not a valid keyword or builtin function")

def restrictionIter (name : String) : Action RestrictTask Unit := do
  malloc
  let s ← Action.get
  match s.ctx.activeRestrictions with
  | none => Action.fail
  | some map => do
    let map ← hashmapSet name map
    setActive map

/-- `hashmap_scan` with `restriction_iter`, which a failure stops. -/
def scanRestrictions : List String → Action RestrictTask Unit
  | [] => pure ()
  | name :: names => do
    restrictionIter name
    scanRestrictions names

def itemsOf (map : Option RestrictionMap) : List String := (map.map (·.items)).getD []

/-- `basic_pass_restrictions_to_child`, which fails where it returns false. -/
def basicPassRestrictionsToChild (parent : RestrictCtx) : Action RestrictTask Unit := do
  let s ← Action.get
  if s.ctx.activeRestrictions.isSome then Action.fail
  else if parent.childRestrictions.isNone ∧ parent.activeRestrictions.isNone then pure ()
  else do
    let map ← hashmapNew
    setActive map
    scanRestrictions (itemsOf parent.activeRestrictions)
    scanRestrictions (itemsOf parent.childRestrictions)

end Restrictions

/-! ## Programs that launch each other -/

structure Programs where
  program : ℕ → Option RestrictCtx
  nextid : ℕ

namespace Programs

open Restrictions

/-- The context that `basic_init` makes. -/
def freshCtx : RestrictCtx := ⟨none, none, []⟩

def init : Programs := ⟨Function.update (fun _ => none) 0 (some freshCtx), 1⟩

/-- The statements that restrictions matter to, with the answers of the allocator. A launch is a
`CHAIN` or an `EVAL` of several lines, whose program may fail to load. -/
inductive Statement where
  | restrict (pid : ℕ) (names : List String) (answers : List Bool)
  | derestrict (pid : ℕ) (names : List String) (answers : List Bool)
  | launch (pid : ℕ) (loads : Bool) (answers : List Bool)
  | other (pid : ℕ)
  | finish (pid : ℕ)

def Statement.pid : Statement → ℕ
  | .restrict pid _ _ => pid
  | .derestrict pid _ _ => pid
  | .launch pid _ _ => pid
  | .other pid => pid
  | .finish pid => pid

def runIn (m : Action RestrictTask Unit) (ctx : RestrictCtx) (answers : List Bool) : RestrictCtx :=
  (m ⟨ctx, answers⟩).2.ctx

def set (s : Programs) (pid : ℕ) (ctx : Option RestrictCtx) : Programs :=
  { s with program := Function.update s.program pid ctx }

/-- What a statement of the program `ctx` does. -/
def execute (isValidRestrictionName : String → Bool) (s : Programs) (ctx : RestrictCtx) :
    Statement → Programs
  | .restrict pid names answers =>
    s.set pid (runIn (parseRestrictionList isValidRestrictionName true names) ctx answers)
  | .derestrict pid names answers =>
    s.set pid (runIn (parseRestrictionList isValidRestrictionName false names) ctx answers)
  | .launch _ loads answers =>
    -- the result of `basic_pass_restrictions_to_child` is not looked at
    if loads then
      { s.set s.nextid (runIn (basicPassRestrictionsToChild ctx) freshCtx answers) with
        nextid := s.nextid + 1 }
    else s
  | .other _ => s
  | .finish pid => s.set pid none

def step (isValidRestrictionName : String → Bool) (s : Programs) (c : Statement) :
    Option Programs :=
  (s.program c.pid).map fun ctx => s.execute isValidRestrictionName ctx c

def Passes (_ : Programs) : Statement → Prop
  | .launch _ _ answers => ∀ answer ∈ answers, answer = true
  | _ => True

end Programs

namespace Restrictions

open RetroRocket.Action

/-! ## What leaves the active set alone -/

section Keeps

variable {α β : Type}

def Keeps (m : Action RestrictTask α) : Prop :=
  ∀ s, (m s).2.ctx.activeRestrictions = s.ctx.activeRestrictions

theorem Keeps.pure (a : α) : Keeps (Pure.pure a : Action RestrictTask α) := fun _ => rfl

theorem Keeps.fail : Keeps (Action.fail : Action RestrictTask α) := fun _ => rfl

theorem Keeps.get : Keeps (Action.get : Action RestrictTask RestrictTask) := fun _ => rfl

theorem Keeps.bind {m : Action RestrictTask α} {f : α → Action RestrictTask β} (hm : Keeps m)
    (hf : ∀ a, Keeps (f a)) : Keeps (m >>= f) := by
  intro s
  have h := hm s
  rcases hrun : m s with ⟨_ | a, t⟩
  · rw [hrun] at h
    rw [bind_of_none hrun]
    exact h
  · rw [hrun] at h
    rw [bind_of_some hrun]
    exact (hf a t).trans h

theorem Keeps.attempt {m : Action RestrictTask α} (hm : Keeps m) : Keeps m.attempt := hm

theorem Keeps.malloc : Keeps malloc := by
  intro s
  unfold Restrictions.malloc
  split <;> rfl

theorem Keeps.report (error : String) : Keeps (report error) := fun _ => rfl

theorem Keeps.setChild (map : RestrictionMap) : Keeps (setChild map) := fun _ => rfl

theorem Keeps.orReport {m : Action RestrictTask α} (hm : Keeps m) (error : String) :
    Keeps (orReport error m) := by
  unfold Restrictions.orReport
  apply hm.attempt.bind
  intro a
  cases a with
  | some a => exact Keeps.pure a
  | none => exact (Keeps.report error).bind fun _ => Keeps.fail

theorem Keeps.hashmapNew : Keeps hashmapNew :=
  Keeps.malloc.bind fun _ => Keeps.malloc.bind fun _ => Keeps.pure _

theorem Keeps.hashmapSet (name : String) (map : RestrictionMap) : Keeps (hashmapSet name map) := by
  unfold Restrictions.hashmapSet
  dsimp only
  split
  · exact Keeps.malloc.bind fun _ => Keeps.malloc.bind fun _ => Keeps.pure _
  · exact Keeps.pure _

theorem Keeps.hashmapDelete (name : String) (map : RestrictionMap) :
    Keeps (hashmapDelete name map) := by
  unfold Restrictions.hashmapDelete
  dsimp only
  split
  · exact (Keeps.malloc.bind fun _ => Keeps.malloc).attempt.bind fun _ => Keeps.pure _
  · exact Keeps.pure _

theorem Keeps.basicRestrict (name : String) : Keeps (basicRestrict name) := by
  have hset : ∀ map, Keeps (do
      Restrictions.orReport "Out of memory setting restriction" Restrictions.malloc
      let map ← Restrictions.orReport "Out of memory setting restriction"
        (Restrictions.hashmapSet name map)
      Restrictions.setChild map) := fun map =>
    (Keeps.malloc.orReport _).bind fun _ =>
      ((Keeps.hashmapSet name map).orReport _).bind fun map => Keeps.setChild map
  unfold Restrictions.basicRestrict
  apply Keeps.get.bind
  intro s
  cases s.ctx.childRestrictions with
  | some map => exact hset map
  | none =>
    exact (Keeps.hashmapNew.orReport _).bind fun map => (Keeps.setChild map).bind fun _ => hset map

theorem Keeps.basicDerestrict (name : String) : Keeps (basicDerestrict name) := by
  unfold Restrictions.basicDerestrict
  apply Keeps.get.bind
  intro s
  cases s.ctx.childRestrictions with
  | none => exact (Keeps.report _).bind fun _ => Keeps.fail
  | some map =>
    dsimp only
    split
    · exact (Keeps.hashmapDelete name map).bind fun map => Keeps.setChild map
    · exact (Keeps.report _).bind fun _ => Keeps.fail

theorem Keeps.parseRestrictionList (valid : String → Bool) (add : Bool) (names : List String) :
    Keeps (parseRestrictionList valid add names) := by
  induction names with
  | nil => exact Keeps.report _
  | cons name names ih =>
    have hmore : Keeps (if names = [] then Pure.pure () else
        Restrictions.parseRestrictionList valid add names) := by
      split
      · exact Keeps.pure ()
      · exact ih
    unfold Restrictions.parseRestrictionList
    split
    · exact Keeps.report _
    · split
      · cases add with
        | true => exact (Keeps.basicRestrict name).bind fun _ => hmore
        | false => exact (Keeps.basicDerestrict name).bind fun _ => hmore
      · exact Keeps.report _

end Keeps

/-! ## A copy that does not run out of memory -/

section Copy

variable {s : RestrictTask}

def Succeeds (s : RestrictTask) : Prop := ∀ answer ∈ s.answers, answer = true

theorem post_malloc (h : Succeeds s) :
    Post malloc s (fun _ t => t.ctx = s.ctx ∧ Succeeds t) fun _ => False := by
  obtain ⟨ctx, answers⟩ := s
  unfold Post malloc
  cases answers with
  | nil => exact ⟨rfl, h⟩
  | cons answer answers =>
    obtain rfl : answer = true := h answer List.mem_cons_self
    exact ⟨rfl, fun a ha => h a (List.mem_cons_of_mem _ ha)⟩

theorem post_hashmapNew (h : Succeeds s) :
    Post hashmapNew s (fun _ t => t.ctx = s.ctx ∧ Succeeds t) fun _ => False := by
  unfold hashmapNew
  rw [post_bind]
  refine (post_malloc h).mono ?_ fun _ h => h
  rintro - t ⟨hctx, ht⟩
  rw [post_bind]
  refine (post_malloc ht).mono ?_ fun _ h => h
  rintro - u ⟨hctx', hu⟩
  exact ⟨hctx'.trans hctx, hu⟩

theorem post_hashmapSet (name : String) (map : RestrictionMap) (h : Succeeds s) :
    Post (hashmapSet name map) s (fun map' t => t.ctx = s.ctx ∧ Succeeds t ∧
      name ∈ map'.items ∧ ∀ other ∈ map.items, other ∈ map'.items) fun _ => False := by
  have hitems : ∀ items : List String,
      name ∈ (if name ∈ items then items else items ++ [name]) ∧
        ∀ other ∈ items, other ∈ (if name ∈ items then items else items ++ [name]) := by
    intro items
    split
    · next hmem => exact ⟨hmem, fun _ h => h⟩
    · simp +contextual
  unfold hashmapSet
  dsimp only
  split
  · rw [post_bind]
    refine (post_malloc h).mono ?_ fun _ h => h
    rintro - t ⟨hctx, ht⟩
    rw [post_bind]
    refine (post_malloc ht).mono ?_ fun _ h => h
    rintro - u ⟨hctx', hu⟩
    exact ⟨hctx'.trans hctx, hu, hitems map.items⟩
  · exact ⟨rfl, h, hitems map.items⟩

theorem post_restrictionIter (name : String) {map : RestrictionMap} (h : Succeeds s)
    (hmap : s.ctx.activeRestrictions = some map) :
    Post (restrictionIter name) s (fun _ t => Succeeds t ∧ ∃ map',
      t.ctx.activeRestrictions = some map' ∧ name ∈ map'.items ∧
        ∀ other ∈ map.items, other ∈ map'.items) fun _ => False := by
  unfold restrictionIter
  rw [post_bind]
  refine (post_malloc h).mono ?_ fun _ h => h
  rintro - t ⟨hctx, ht⟩
  rw [post_bind, post_get, hctx, hmap]
  dsimp only
  rw [post_bind]
  refine (post_hashmapSet name map ht).mono ?_ fun _ h => h
  rintro map' u ⟨-, hu, hname, hold⟩
  exact ⟨hu, map', rfl, hname, hold⟩

theorem post_scanRestrictions (names : List String) {map : RestrictionMap} (h : Succeeds s)
    (hmap : s.ctx.activeRestrictions = some map) :
    Post (scanRestrictions names) s (fun _ t => Succeeds t ∧ ∃ map',
      t.ctx.activeRestrictions = some map' ∧ (∀ name ∈ names, name ∈ map'.items) ∧
        ∀ other ∈ map.items, other ∈ map'.items) fun _ => False := by
  induction names generalizing s map with
  | nil => exact ⟨h, map, hmap, by simp, fun _ h => h⟩
  | cons name names ih =>
    unfold scanRestrictions
    rw [post_bind]
    refine (post_restrictionIter name h hmap).mono ?_ fun _ h => h
    rintro - t ⟨ht, map', hmap', hname, hold⟩
    refine (ih ht hmap').mono ?_ fun _ h => h
    rintro - u ⟨hu, map'', hmap'', hnames, hold'⟩
    refine ⟨hu, map'', hmap'', ?_, fun other hother => hold' other (hold other hother)⟩
    rintro other (_ | ⟨_, hother⟩)
    · exact hold' name hname
    · exact hnames other hother

def passed (parent : RestrictCtx) : List String :=
  itemsOf parent.activeRestrictions ++ itemsOf parent.childRestrictions

theorem isRestricted_iff {ctx : RestrictCtx} {name : String} :
    isRestricted ctx name ↔ name ∈ itemsOf ctx.activeRestrictions := by
  unfold isRestricted itemsOf
  cases ctx.activeRestrictions <;> simp

theorem post_basicPassRestrictionsToChild {parent : RestrictCtx} (h : Succeeds s)
    (hfresh : s.ctx.activeRestrictions = none) :
    Post (basicPassRestrictionsToChild parent) s
      (fun _ t => ∀ name ∈ passed parent, isRestricted t.ctx name) fun _ => False := by
  unfold basicPassRestrictionsToChild
  rw [post_bind, post_get, if_neg (by simp [hfresh])]
  split
  · next hnone =>
    rw [Option.isNone_iff_eq_none, Option.isNone_iff_eq_none] at hnone
    rw [post_pure]
    simp [passed, itemsOf, hnone]
  · rw [post_bind]
    refine (post_hashmapNew h).mono ?_ fun _ h => h
    rintro map t ⟨-, ht⟩
    unfold setActive
    rw [post_bind, post_modify, post_bind]
    have hset : Succeeds { t with ctx.activeRestrictions := some map } := ht
    refine (post_scanRestrictions (itemsOf parent.activeRestrictions) hset rfl).mono ?_ fun _ h => h
    rintro - u ⟨hu, map', hmap', hactive, -⟩
    refine (post_scanRestrictions (itemsOf parent.childRestrictions) hu hmap').mono ?_ fun _ h => h
    rintro - v ⟨-, map'', hmap'', hchild, hold⟩
    intro name hname
    rw [isRestricted_iff]
    simp only [hmap'', itemsOf, Option.map_some, Option.getD_some]
    rcases List.mem_append.mp hname with h | h
    · exact hold name (hactive name h)
    · exact hchild name h

end Copy

end Restrictions

/-! ## Restrictions along launches -/

namespace Programs

open Restrictions

variable {isValidRestrictionName : String → Bool} {s t u : Programs}

theorem step_active {c : Statement} {pid : ℕ} {ctx ctx' : RestrictCtx} (hpid : pid ≠ s.nextid)
    (hstep : step isValidRestrictionName s c = some t) (hbefore : s.program pid = some ctx)
    (hafter : t.program pid = some ctx') : ctx'.activeRestrictions = ctx.activeRestrictions := by
  obtain ⟨caller, hcaller, rfl⟩ := Option.map_eq_some_iff.mp hstep
  have hset : ∀ new : RestrictCtx, new.activeRestrictions = caller.activeRestrictions →
      (s.set c.pid (some new)).program pid = some ctx' →
      ctx'.activeRestrictions = ctx.activeRestrictions := by
    intro new hnew hprogram
    change Function.update s.program c.pid (some new) pid = some ctx' at hprogram
    by_cases heq : pid = c.pid
    · subst heq
      rw [Function.update_self] at hprogram
      cases hprogram
      rw [hbefore] at hcaller
      cases hcaller
      exact hnew
    · rw [Function.update_of_ne heq, hbefore] at hprogram
      cases hprogram
      rfl
  cases c with
  | restrict pid' names answers => exact hset _ (Keeps.parseRestrictionList _ true names _) hafter
  | derestrict pid' names answers =>
    exact hset _ (Keeps.parseRestrictionList _ false names _) hafter
  | launch pid' loads answers =>
    cases loads with
    | false =>
      rw [← Option.some.inj (hbefore.symm.trans hafter)]
    | true =>
      change Function.update s.program s.nextid _ pid = some ctx' at hafter
      rw [Function.update_of_ne hpid, hbefore] at hafter
      cases hafter
      rfl
  | other pid' => rw [← Option.some.inj (hbefore.symm.trans hafter)]
  | finish pid' =>
    change Function.update s.program pid' none pid = some ctx' at hafter
    by_cases heq : pid = pid'
    · rw [heq, Function.update_self] at hafter
      cases hafter
    · rw [Function.update_of_ne heq, hbefore] at hafter
      cases hafter
      rfl

theorem step_nextid {c : Statement} (hstep : step isValidRestrictionName s c = some t) :
    s.nextid ≤ t.nextid := by
  obtain ⟨caller, -, rfl⟩ := Option.map_eq_some_iff.mp hstep
  cases c with
  | restrict pid names answers => exact Nat.le_refl _
  | derestrict pid names answers => exact Nat.le_refl _
  | launch pid loads answers =>
    cases loads with
    | false => exact Nat.le_refl _
    | true => exact Nat.le_succ _
  | other pid => exact Nat.le_refl _
  | finish pid => exact Nat.le_refl _

theorem step_none {c : Statement} {pid : ℕ} (hpid : pid < s.nextid)
    (hstep : step isValidRestrictionName s c = some t) (hbefore : s.program pid = none) :
    t.program pid = none := by
  obtain ⟨caller, hcaller, rfl⟩ := Option.map_eq_some_iff.mp hstep
  have hset : ∀ new, pid ≠ c.pid → (s.set c.pid new).program pid = none := by
    intro new hne
    change Function.update s.program c.pid new pid = none
    rw [Function.update_of_ne hne, hbefore]
  have hne : pid ≠ c.pid := by
    rintro rfl
    rw [hbefore] at hcaller
    cases hcaller
  cases c with
  | restrict pid' names answers => exact hset _ hne
  | derestrict pid' names answers => exact hset _ hne
  | launch pid' loads answers =>
    cases loads with
    | false => exact hbefore
    | true =>
      change Function.update s.program s.nextid _ pid = none
      rw [Function.update_of_ne (Nat.ne_of_lt hpid), hbefore]
  | other pid' => exact hbefore
  | finish pid' => exact hset _ hne

theorem run_active {allowed : Programs → Statement → Prop} {pid : ℕ} {ctx ctx' : RestrictCtx}
    (hrun : Run (step isValidRestrictionName) allowed s t) (hpid : pid < s.nextid)
    (hbefore : s.program pid = some ctx) (hafter : t.program pid = some ctx') :
    ctx'.activeRestrictions = ctx.activeRestrictions := by
  have hkeeps : pid < t.nextid ∧ ∀ ctx', t.program pid = some ctx' →
      ctx'.activeRestrictions = ctx.activeRestrictions := by
    apply hrun.preserved (P := fun t => pid < t.nextid ∧ ∀ ctx', t.program pid = some ctx' →
      ctx'.activeRestrictions = ctx.activeRestrictions)
    · refine ⟨hpid, fun ctx' h => ?_⟩
      rw [← Option.some.inj (hbefore.symm.trans h)]
    · rintro t u c ⟨hlt, hsame⟩ - hstep
      refine ⟨Nat.lt_of_lt_of_le hlt (step_nextid hstep), fun ctx' h => ?_⟩
      cases hprogram : t.program pid with
      | none =>
        rw [step_none hlt hstep hprogram] at h
        cases h
      | some ctx'' =>
        exact (step_active (Nat.ne_of_lt hlt) hstep hprogram h).trans (hsame ctx'' hprogram)
  exact hkeeps.2 ctx' hafter

theorem launch_passes {pid : ℕ} {answers : List Bool} {parent child : RestrictCtx}
    (hpasses : ∀ answer ∈ answers, answer = true) (hparent : s.program pid = some parent)
    (hlaunch : step isValidRestrictionName s (.launch pid true answers) = some t)
    (hchild : t.program s.nextid = some child) :
    ∀ name ∈ passed parent, isRestricted child name := by
  obtain ⟨caller, hcaller, rfl⟩ := Option.map_eq_some_iff.mp hlaunch
  rw [show (Statement.launch pid true answers).pid = pid from rfl, hparent] at hcaller
  cases hcaller
  change Function.update s.program s.nextid _ s.nextid = some child at hchild
  rw [Function.update_self] at hchild
  cases hchild
  have hsucceeds : Succeeds ⟨freshCtx, answers⟩ := hpasses
  have hpost := @post_basicPassRestrictionsToChild _ parent hsucceeds rfl
  unfold runIn
  rcases hrun : basicPassRestrictionsToChild parent ⟨freshCtx, answers⟩ with ⟨_ | _, task⟩
  · exact absurd (hpost.of_eq_none hrun) id
  · exact hpost.of_eq_some hrun

/-- In every run in which no allocation fails while restrictions are passed, a program has all the
names that were restricted in its parent, or for the children of its parent, when it was launched,
and no statement takes one away. -/
theorem restricted_of_launched {pid : ℕ} {answers : List Bool} {parent child : RestrictCtx}
    (hparent : s.program pid = some parent) (hpasses : Passes s (.launch pid true answers))
    (hlaunch : step isValidRestrictionName s (.launch pid true answers) = some t)
    (hrun : Run (step isValidRestrictionName) Passes t u)
    (hchild : u.program s.nextid = some child) :
    (∀ name, name ∈ itemsOf parent.activeRestrictions ∨ name ∈ itemsOf parent.childRestrictions →
      isRestricted child name) ∧
    ∀ c v child', step isValidRestrictionName u c = some v → v.program s.nextid = some child' →
      ∀ name, isRestricted child name → isRestricted child' name := by
  obtain ⟨caller, hcaller, ht⟩ := Option.map_eq_some_iff.mp hlaunch
  have hnextid : s.nextid < t.nextid := by
    rw [← ht]
    exact Nat.lt_succ_self _
  obtain ⟨start, hstart⟩ : ∃ start, t.program s.nextid = some start := by
    rw [← ht]
    exact ⟨_, Function.update_self _ _ _⟩
  have hactive := run_active hrun hnextid hstart hchild
  constructor
  · intro name hname
    rw [isRestricted_iff, hactive, ← isRestricted_iff]
    exact launch_passes hpasses hparent hlaunch hstart name (List.mem_append.mpr hname)
  · intro c v child' hstep hchild' name hname
    have hlater : s.nextid < u.nextid := hrun.preserved (P := fun u => s.nextid < u.nextid) hnextid
      fun hlt _ hstep => Nat.lt_of_lt_of_le hlt (step_nextid hstep)
    rw [isRestricted_iff] at hname ⊢
    rwa [step_active (Nat.ne_of_lt hlater) hstep hchild hchild']

/-- The first program restricts `PRINT`. -/
def restricting : Programs :=
  execute (fun _ => true) init freshCtx (.restrict 0 ["PRINT"] [])

def restrictingCtx : RestrictCtx := ⟨none, some ⟨["PRINT"], 16⟩, []⟩

theorem restricting_eq : restricting.program 0 = some restrictingCtx := by
  decide +kernel

theorem launch_restricting (answers : List Bool) :
    step (fun _ => true) restricting (.launch 0 true answers) =
      some (restricting.execute (fun _ => true) restrictingCtx (.launch 0 true answers)) :=
  Option.map_eq_some_iff.mpr ⟨restrictingCtx, restricting_eq, rfl⟩

def launchedCtx (answers : List Bool) : RestrictCtx :=
  runIn (basicPassRestrictionsToChild restrictingCtx) freshCtx answers

theorem program_launched (answers : List Bool) :
    (restricting.execute (fun _ => true) restrictingCtx
      (.launch 0 true answers)).program restricting.nextid = some (launchedCtx answers) := by
  unfold execute
  dsimp only
  rw [if_pos rfl]
  unfold set
  dsimp only
  rw [Function.update_self]
  rfl

theorem restricted_of_launched_print : isRestricted (launchedCtx [true, true, true]) "PRINT" := by
  have hpasses : Passes restricting (.launch 0 true [true, true, true]) := by
    change ∀ answer ∈ [true, true, true], answer = true
    simp
  refine (restricted_of_launched restricting_eq hpasses (launch_restricting _) .refl
    (program_launched _)).1 "PRINT" (Or.inr ?_)
  decide +kernel

/-- A program whose launch runs out of memory has lost the restriction. -/
theorem restriction_lost : ∃ s t parent child,
    Run (step fun _ => true) (fun _ _ => True) init s ∧ s.program 0 = some parent ∧
      "PRINT" ∈ itemsOf parent.childRestrictions ∧
      step (fun _ => true) s (.launch 0 true [true, true, false]) = some t ∧
      t.program s.nextid = some child ∧ isRestricted child "PRINT" = false := by
  refine ⟨restricting, _, restrictingCtx, _, ?_, restricting_eq, by decide +kernel,
    launch_restricting _, program_launched _, by decide +kernel⟩
  exact .step .refl trivial (c := .restrict 0 ["PRINT"] []) rfl

end Programs

end RetroRocket
