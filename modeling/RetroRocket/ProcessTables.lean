import RetroRocket.Bits
import RetroRocket.DoublyLinked
import RetroRocket.ProcessLocks

/-!
# The process tables

The tables of `taskswitch.c`: a list of processes for each CPU, a list of all processes, a cursor
for each CPU, a map by pid and a counter. A process is known by its address, and a null pointer is
address 0. The fields of processes are functions of the address. `live` is not in the source: it
holds the processes that were created and not killed, the latest first. Names, directories and
programs of processes are left out, as is the CPU usage. A call that reads through a null pointer,
or waits for a lock for ever, is `none`.
-/

namespace RetroRocket

/-- The two lists a process is linked into: `sched_next` and `sched_prev`, `global_next` and
`global_prev`. -/
inductive ProcList where
  | sched
  | global
  deriving DecidableEq

structure ProcTables where
  pid : ℕ → ℕ
  cpu : ℕ → ℕ
  next : ProcList → ℕ → ℕ
  prev : ProcList → ℕ → ℕ
  procCurrent : ℕ → ℕ
  procList : ℕ → ℕ
  combinedProcList : ℕ
  processByPid : ℕ → Option ℕ
  nextid : ℕ
  processCount : ℕ
  locked : ProcLock ℕ → Bool
  halted : Bool
  live : List ℕ

namespace ProcTables

/-- `a->next = b` in one of the lists. -/
def setNext (s : ProcTables) (l : ProcList) (a b : ℕ) : ProcTables :=
  { s with next := Function.update s.next l (Function.update (s.next l) a b) }

/-- `a->prev = b` in one of the lists. -/
def setPrev (s : ProcTables) (l : ProcList) (a b : ℕ) : ProcTables :=
  { s with prev := Function.update s.prev l (Function.update (s.prev l) a b) }

/-- `lock_spinlock`, which waits as long as the lock is held. -/
def lock (s : ProcTables) (l : ProcLock ℕ) : Option ProcTables :=
  if s.locked l then none else some { s with locked := Function.update s.locked l true }

/-- `unlock_spinlock`. -/
def unlock (s : ProcTables) (l : ProcLock ℕ) : ProcTables :=
  { s with locked := Function.update s.locked l false }

def linkFirst (s : ProcTables) (l : ProcList) (head proc : ℕ) : ProcTables :=
  if head = 0 then (s.setNext l proc 0).setPrev l proc 0
  else ((s.setNext l proc head).setPrev l proc 0).setPrev l head proc

def unlink (s : ProcTables) (l : ProcList) (head proc : ℕ) : ProcTables × ℕ :=
  let prev := s.prev l proc
  let next := s.next l proc
  let t := if prev = 0 then s else s.setNext l prev next
  (if next = 0 then t else t.setPrev l next prev, if prev = 0 then next else head)

end ProcTables

/-- What a creation meets: whether the text is a program, the CPU it runs on, the address of the new
process, where 0 is a failed allocation, and whether the program, the strings and the entry of the
map get their memory. -/
structure Creation where
  isBasic : Bool
  cpu : ℕ
  newproc : ℕ
  code : Bool
  name : Bool
  directory : Bool
  csd : Bool
  inserted : Bool
  deriving DecidableEq

def initProcess (s : ProcTables) (newproc cpu : ℕ) : ProcTables :=
  { s with
    pid := Function.update s.pid newproc s.nextid
    nextid := (s.nextid + 1) % 2 ^ 32
    cpu := Function.update s.cpu newproc cpu }

/-- The part of `proc_create_common` between the locks, from the entry in the map on. -/
def enterProcess (s : ProcTables) (newproc : ℕ) : ProcTables :=
  let s := { s with
    processByPid := Function.update s.processByPid (s.pid newproc) (some newproc) }
  let cpu := s.cpu newproc
  let s := s.linkFirst .sched (s.procList cpu) newproc
  let s := { s with procList := Function.update s.procList cpu newproc }
  let s := s.linkFirst .global s.combinedProcList newproc
  let s := { s with combinedProcList := newproc }
  { s with
    procCurrent := if s.procCurrent cpu = 0 then
      Function.update s.procCurrent cpu (s.procList cpu) else s.procCurrent
    processCount := (s.processCount + 1) % 2 ^ 32
    live := newproc :: s.live }

/-- `proc_create_common`, with the process it returns. -/
def procCreateCommon (s : ProcTables) (c : Creation) : Option (ℕ × ProcTables) :=
  if c.isBasic = false then some (0, s)
  else if c.newproc = 0 then some (0, s)
  else if c.code = false then some (0, s)
  else
    let s := initProcess s c.newproc c.cpu
    if c.name = false ∨ c.directory = false ∨ c.csd = false then some (0, s)
    else do
      let cpu := s.cpu c.newproc
      let s ← s.lock .combined
      let s ← s.lock (.cpu cpu)
      -- the process is freed and NULL when its CPU is read for the unlock
      if c.inserted = false then none
      else some (c.newproc, ((enterProcess s c.newproc).unlock .combined).unlock (.cpu cpu))

/-- The part of `proc_kill` between the locks. -/
def removeProcess (s : ProcTables) (proc : ℕ) : ProcTables :=
  let cpu := s.cpu proc
  let (s, head) := s.unlink .sched (s.procList cpu) proc
  let s := { s with procList := Function.update s.procList cpu head }
  let (s, head) := s.unlink .global s.combinedProcList proc
  let s := { s with combinedProcList := head }
  let next := s.next .sched proc
  { s with
    procCurrent := if s.procCurrent cpu = proc then
      Function.update s.procCurrent cpu (if next ≠ 0 then next else s.procList cpu) else
        s.procCurrent
    processByPid := Function.update s.processByPid (s.pid proc) none
    processCount := (s.processCount + (2 ^ 32 - 1)) % 2 ^ 32
    live := s.live.erase proc }

/-- `proc_kill`. Killing the last process halts the system. -/
def procKill (s : ProcTables) (proc : ℕ) : Option ProcTables := do
  let cpu := s.cpu proc
  let s ← s.lock (.cpu cpu)
  let s ← s.lock .combined
  let s := removeProcess s proc
  if s.combinedProcList = 0 then some { s with halted := true }
  else some ((s.unlock (.cpu cpu)).unlock .combined)

def procFind (s : ProcTables) (pid : ℕ) : Option (ℕ × ProcTables) := do
  let s ← s.lock .combined
  some ((s.processByPid pid).getD 0, s.unlock .combined)

def procCur (s : ProcTables) (cpu : ℕ) : Option (ℕ × ProcTables) := do
  let s ← s.lock (.cpu cpu)
  some (s.procCurrent cpu, s.unlock (.cpu cpu))

def procKillId (s : ProcTables) (id : ℕ) : Option (Bool × ProcTables) := do
  let (proc, s) ← procFind s id
  if proc = 0 then some (false, s)
  else
    let (cur, s) ← procCur s (s.cpu proc)
    if cur = 0 then none
    else if s.pid cur = id then some (false, s)
    else
      let s ← procKill s proc
      some (true, s)

/-- `proc_run_next`, where `ended` says whether the program has come to its end. What the program
calls is a call of its own. -/
def procRunNext (s : ProcTables) (cpu : ℕ) (ended : Bool) : Option ProcTables := do
  let s ← s.lock (.cpu cpu)
  if s.procList cpu = 0 ∨ s.procCurrent cpu = 0 then some (s.unlock (.cpu cpu))
  else
    let next := s.next .sched (s.procCurrent cpu)
    let s := { s with
      procCurrent := Function.update s.procCurrent cpu (if next = 0 then s.procList cpu else next) }
    let s := s.unlock (.cpu cpu)
    let current := s.procCurrent cpu
    if current = 0 then some s
    else if ended then procKill s current
    else some s

end RetroRocket
