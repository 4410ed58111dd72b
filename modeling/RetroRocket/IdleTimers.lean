import Mathlib.Data.Finset.Insert
import Mathlib.Data.List.Perm.Basic
import Mathlib.Logic.Function.Basic
import RetroRocket.LinkedList

/-!
# Idle timers and deferred calls

`proc_register_idle`, `proc_queue_dpc` and `run_idles`. The entries are on the heap, linked through
`next` from `task_idles` and `timer_idles`, and reading or writing an entry that is not allocated is
`none`. A pass walks the links by the place where the link is: `task_idles` itself or the `next` of
an entry. What a callback does is a list of calls, which can be another one each time. Entries are
numbered in the order in which they are made, and it is recorded what was entered, run and freed.
-/

namespace RetroRocket

/-- `idle_timer_t` without its link, and its number. -/
structure IdleTimer where
  func : ℕ
  nextTick : BitVec 64
  frequency : BitVec 64
  number : ℕ
  deriving DecidableEq

/-- `idle_type_t`. -/
inductive IdleType
  | foreground
  | background
  deriving DecidableEq

inductive IdleCall
  | registerIdle (handler : ℕ) (type : IdleType) (frequencyMs : BitVec 64)
  | queueDpc (handler : ℕ)

/-- What is not the code's own: the value of each `get_ticks`, the calls of each callback that runs,
and what `kmalloc` returns, which is 0 or not in use. -/
structure IdleEnv where
  ticks : ℕ → BitVec 64
  calls : ℕ → List IdleCall
  kmalloc : Finset ℕ → ℕ → ℕ
  fresh : ∀ live n, kmalloc live n ∉ live

structure IdleState where
  taskIdles : ℕ
  timerIdles : ℕ
  next : ℕ → ℕ
  timer : ℕ → IdleTimer
  live : Finset ℕ
  /-- The calls of `get_ticks`, those of `kmalloc` and the entries made. -/
  reads : ℕ
  attempts : ℕ
  made : ℕ
  /-- The foreground entries that were made, those that were run and the numbers of those freed. -/
  entered : List IdleTimer
  ran : List IdleTimer
  freed : List ℕ

/-- Where a link is: `&task_idles`, or `&i->next`. -/
inductive IdleLink
  | head
  | next (a : ℕ)
  deriving DecidableEq

namespace IdleState

def init : IdleState := ⟨0, 0, fun _ => 0, fun _ => ⟨0, 0, 0, 0⟩, ∅, 0, 0, 0, [], [], []⟩

def enter (env : IdleEnv) (s : IdleState) (handler : ℕ) (type : IdleType) (frequency : BitVec 64) :
    IdleState :=
  if handler = 0 then s
  else
    let a := env.kmalloc s.live s.attempts
    if a = 0 then { s with attempts := s.attempts + 1 }
    else
      let new : IdleTimer := ⟨handler, env.ticks s.reads + frequency, frequency, s.made⟩
      let made : IdleState :=
        { s with
          timer := Function.update s.timer a new
          live := insert a s.live
          reads := s.reads + 1
          attempts := s.attempts + 1
          made := s.made + 1 }
      match type with
      | .foreground =>
        { made with
          next := Function.update s.next a s.taskIdles
          taskIdles := a
          entered := s.entered ++ [new] }
      | .background =>
        { made with
          next := Function.update s.next a s.timerIdles
          timerIdles := a }

def procRegisterIdle (env : IdleEnv) (s : IdleState) (handler : ℕ) (type : IdleType)
    (frequencyMs : BitVec 64) : IdleState :=
  s.enter env handler type frequencyMs

/-- `proc_queue_dpc`: its tick is the present one, and its frequency 0. -/
def procQueueDpc (env : IdleEnv) (s : IdleState) (handler : ℕ) : IdleState :=
  s.enter env handler .foreground 0

def call (env : IdleEnv) (s : IdleState) : IdleCall → IdleState
  | .registerIdle handler type frequencyMs => s.procRegisterIdle env handler type frequencyMs
  | .queueDpc handler => s.procQueueDpc env handler

/-- `i->func()`. -/
def runFunc (env : IdleEnv) (s : IdleState) (i : ℕ) : IdleState :=
  (env.calls s.ran.length).foldl (call env) { s with ran := s.ran ++ [s.timer i] }

/-- `*p`. -/
def readLink (s : IdleState) : IdleLink → Option ℕ
  | .head => some s.taskIdles
  | .next a => if a ∈ s.live then some (s.next a) else none

/-- `*p = v`. -/
def writeLink (s : IdleState) (v : ℕ) : IdleLink → Option IdleState
  | .head => some { s with taskIdles := v }
  | .next a => if a ∈ s.live then some { s with next := Function.update s.next a v } else none

def kfree (s : IdleState) (i : ℕ) : IdleState :=
  { s with live := s.live.erase i, freed := s.freed ++ [(s.timer i).number] }

/-- `get_ticks() > i->next_tick`, at the next reading. -/
def Due (env : IdleEnv) (s : IdleState) (i : ℕ) : Prop :=
  (s.timer i).nextTick < env.ticks s.reads

instance (env : IdleEnv) (s : IdleState) (i : ℕ) : Decidable (s.Due env i) :=
  inferInstanceAs (Decidable (_ < _))

def getTicks (s : IdleState) : IdleState := { s with reads := s.reads + 1 }

/-- `i->next_tick = i->frequency + get_ticks()`. -/
def rearm (env : IdleEnv) (s : IdleState) (i : ℕ) : IdleState :=
  { s.getTicks with
    timer := Function.update s.timer i
      { s.timer i with nextTick := (s.timer i).frequency + env.ticks s.reads } }

/-- The body of the loop of `run_idles`, for the entry `i` that `p` leads to. -/
def turn (env : IdleEnv) (p : IdleLink) (i : ℕ) (s : IdleState) : Option (IdleLink × IdleState) :=
  if i ∉ s.live then none
  else if s.Due env i then
    let s := s.getTicks.runFunc env i
    if i ∉ s.live then none
    else if (s.timer i).frequency = 0 then
      (s.writeLink (s.next i) p).map fun s => (p, s.kfree i)
    else
      let s := s.rearm env i
      (s.readLink p).map fun j => (.next j, s)
  else
    let s := s.getTicks
    (s.readLink p).map fun j => (.next j, s)

def runIdlesLoop (env : IdleEnv) : ℕ → IdleLink → IdleState → Option IdleState
  | 0, _, _ => none
  | fuel + 1, p, s =>
    match s.readLink p with
    | none => none
    | some i =>
      if i = 0 then some s
      else
        match s.turn env p i with
        | none => none
        | some (p', s') => runIdlesLoop env fuel p' s'

def runIdles (env : IdleEnv) (fuel cpu : ℕ) (s : IdleState) : Option IdleState :=
  if cpu = 0 ∧ s.taskIdles ≠ 0 then runIdlesLoop env fuel .head s else some s

/-! ## Runs -/

inductive IdleEvent
  | call (c : IdleCall)
  | pass (cpu : ℕ)

inductive Runs (env : IdleEnv) : List IdleEvent → IdleState → Prop
  | init : Runs env [] init
  | call {past s} (c : IdleCall) : Runs env past s → Runs env (.call c :: past) (s.call env c)
  | pass {past s s'} (fuel cpu : ℕ) : Runs env past s → s.runIdles env fuel cpu = some s' →
      Runs env (.pass cpu :: past) s'

end IdleState

end RetroRocket
