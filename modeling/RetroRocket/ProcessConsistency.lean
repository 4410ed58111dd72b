import RetroRocket.ProcessTables
import RetroRocket.Run

/-!
# The process tables stay consistent

In a run of creations, kills and scheduler steps the lists, the map, the counter and the cursors
agree on which processes are live, and all locks are free between the calls. A creation breaks this
in three cases only: the map has no memory for the entry, the new pid is that of a live process
because the pids have wrapped, or the counter wraps.
-/

namespace RetroRocket

structure Creation.Complete (c : Creation) : Prop where
  isBasic : c.isBasic = true
  newproc : c.newproc ≠ 0
  code : c.code = true
  name : c.name = true
  directory : c.directory = true
  csd : c.csd = true

namespace ProcTables

variable {σ : Type*} {s t : ProcTables} {c : Creation} {l : ProcList} {p x head proc cpu : ℕ}

def onCpu (s : ProcTables) (cpu : ℕ) : List ℕ := s.live.filter fun p => s.cpu p = cpu

theorem mem_onCpu : p ∈ s.onCpu cpu ↔ p ∈ s.live ∧ s.cpu p = cpu := by simp [onCpu]

structure Agree (s : ProcTables) : Prop where
  global : ∃ q, Chain 0 (s.prev .global) (s.next .global) 0 s.combinedProcList s.live q 0
  sched : ∀ cpu, ∃ q, Chain 0 (s.prev .sched) (s.next .sched) 0 (s.procList cpu) (s.onCpu cpu) q 0
  nodup : s.live.Nodup
  findable : ∀ pid p, s.processByPid pid = some p ↔ p ∈ s.live ∧ s.pid p = pid
  count : s.processCount = s.live.length
  count_lt : s.processCount < 2 ^ 32
  current : ∀ cpu, s.procCurrent cpu ∈ s.onCpu cpu ∨ s.procCurrent cpu = 0 ∧ s.onCpu cpu = []

structure Consistent (s : ProcTables) : Prop where
  agree : s.Agree
  released : s.halted = false → ∀ l, s.locked l = false

structure SameTables (s t : ProcTables) : Prop where
  next : t.next = s.next
  prev : t.prev = s.prev
  procCurrent : t.procCurrent = s.procCurrent
  procList : t.procList = s.procList
  combinedProcList : t.combinedProcList = s.combinedProcList
  processByPid : t.processByPid = s.processByPid
  processCount : t.processCount = s.processCount
  live : t.live = s.live
  pid : ∀ p ∈ s.live, t.pid p = s.pid p
  cpu : ∀ p ∈ s.live, t.cpu p = s.cpu p

theorem SameTables.refl (s : ProcTables) : s.SameTables s :=
  ⟨rfl, rfl, rfl, rfl, rfl, rfl, rfl, rfl, fun _ _ => rfl, fun _ _ => rfl⟩

theorem SameTables.onCpu (h : s.SameTables t) (cpu : ℕ) : t.onCpu cpu = s.onCpu cpu := by
  unfold ProcTables.onCpu
  rw [h.live]
  exact List.filter_congr fun p hp => by rw [h.cpu p hp]

theorem Agree.same (h : s.Agree) (ht : s.SameTables t) : t.Agree where
  global := by
    rw [ht.prev, ht.next, ht.combinedProcList, ht.live]
    exact h.global
  sched cpu := by
    rw [ht.prev, ht.next, ht.procList, ht.onCpu]
    exact h.sched cpu
  nodup := ht.live ▸ h.nodup
  findable pid p := by
    rw [ht.processByPid, h.findable, ht.live]
    exact and_congr_right fun hp => by rw [ht.pid p hp]
  count := by rw [ht.processCount, ht.live, h.count]
  count_lt := ht.processCount ▸ h.count_lt
  current cpu := by
    rw [ht.procCurrent, ht.onCpu]
    exact h.current cpu

theorem Agree.ne_zero (h : s.Agree) (hp : p ∈ s.live) : p ≠ 0 := by
  obtain ⟨q, hchain⟩ := h.global
  exact hchain.ne_null hp

theorem Agree.onCpu_nodup (h : s.Agree) (cpu : ℕ) : (s.onCpu cpu).Nodup := h.nodup.filter _

theorem Agree.procList_mem (h : s.Agree) (hne : s.procList cpu ≠ 0) :
    s.procList cpu ∈ s.onCpu cpu := by
  obtain ⟨q, hchain⟩ := h.sched cpu
  have hhead := hchain.head
  cases hlist : s.onCpu cpu with
  | nil =>
    rw [hlist] at hhead
    exact absurd hhead hne
  | cons x xs =>
    rw [hlist] at hhead
    exact hhead ▸ List.mem_cons_self

theorem Agree.neighbours (h : s.Agree) (hp : proc ∈ s.live) :
    (s.prev .sched proc = 0 ∨ s.prev .sched proc ∈ s.onCpu (s.cpu proc)) ∧
      (s.next .sched proc = 0 ∨ s.next .sched proc ∈ s.onCpu (s.cpu proc)) ∧
      s.prev .sched proc ≠ proc ∧ s.next .sched proc ≠ proc := by
  obtain ⟨q, hchain⟩ := h.sched (s.cpu proc)
  have hnodup := h.onCpu_nodup (s.cpu proc)
  obtain ⟨l, r, hlist⟩ := List.append_of_mem (mem_onCpu.mpr ⟨hp, rfl⟩)
  rw [hlist] at hchain hnodup ⊢
  rw [hchain.prev_eq, hchain.next_eq]
  obtain ⟨-, hr, hdisj⟩ := List.nodup_append.mp hnodup
  refine ⟨?_, ?_, ?_, ?_⟩
  · cases l using List.reverseRecOn <;> simp
  · cases r <;> simp
  · cases l using List.reverseRecOn with
    | nil => exact (h.ne_zero hp).symm
    | append_singleton l y =>
      rw [List.getLast?_concat]
      exact hdisj y (by simp) proc List.mem_cons_self
  · cases r with
    | nil => exact (h.ne_zero hp).symm
    | cons y r =>
      rintro rfl
      exact (List.nodup_cons.mp hr).1 List.mem_cons_self

/-! ## Links -/

theorem linkFirst_eq (s : ProcTables) (l : ProcList) (head proc : ℕ) : s.linkFirst l head proc =
    { s with
      next := Function.update s.next l (Function.update (s.next l) proc head)
      prev := Function.update s.prev l
        (let prev := Function.update (s.prev l) proc 0
          if head = 0 then prev else Function.update prev head proc) } := by
  unfold linkFirst setNext setPrev
  split
  next hzero => rw [hzero]
  next => simp

theorem unlink_eq (s : ProcTables) (l : ProcList) (head proc : ℕ) : s.unlink l head proc =
    ({ s with
      next := Function.update s.next l
        (if s.prev l proc = 0 then s.next l
          else Function.update (s.next l) (s.prev l proc) (s.next l proc))
      prev := Function.update s.prev l
        (if s.next l proc = 0 then s.prev l
          else Function.update (s.prev l) (s.next l proc) (s.prev l proc)) },
      if s.prev l proc = 0 then s.next l proc else head) := by
  unfold unlink setNext setPrev
  dsimp only
  split <;> split <;> simp

def first (s : ProcTables) (cpu : ℕ) : ProcList → ℕ
  | .sched => s.procList cpu
  | .global => s.combinedProcList

theorem enterProcess_next (s : ProcTables) (proc : ℕ) (l : ProcList) :
    (enterProcess s proc).next l =
    Function.update (s.next l) proc (s.first (s.cpu proc) l) := by
  cases l <;> simp [enterProcess, linkFirst_eq, first]

theorem enterProcess_prev (s : ProcTables) (proc : ℕ) (l : ProcList) :
    (enterProcess s proc).prev l =
    let prev := Function.update (s.prev l) proc 0
    if s.first (s.cpu proc) l = 0 then prev
    else Function.update prev (s.first (s.cpu proc) l) proc := by
  cases l <;> simp [enterProcess, linkFirst_eq, first] <;> rfl

theorem enterProcess_procCurrent (s : ProcTables) (proc : ℕ) : (enterProcess s proc).procCurrent =
    if s.procCurrent (s.cpu proc) = 0 then Function.update s.procCurrent (s.cpu proc) proc
    else s.procCurrent := by
  simp [enterProcess, linkFirst_eq]

theorem enterProcess_procList (s : ProcTables) (proc : ℕ) : (enterProcess s proc).procList =
    Function.update s.procList (s.cpu proc) proc := by
  simp [enterProcess, linkFirst_eq]

theorem enterProcess_processByPid (s : ProcTables) (proc : ℕ) : (enterProcess s proc).processByPid =
    Function.update s.processByPid (s.pid proc) (some proc) := by
  simp [enterProcess, linkFirst_eq]

theorem enterProcess_processCount (s : ProcTables) (proc : ℕ) :
    (enterProcess s proc).processCount = (s.processCount + 1) % 2 ^ 32 := by
  simp [enterProcess, linkFirst_eq]

theorem enterProcess_live (s : ProcTables) (proc : ℕ) :
    (enterProcess s proc).live = proc :: s.live := by
  simp [enterProcess, linkFirst_eq]

theorem enterProcess_same (s : ProcTables) (proc : ℕ) :
    (enterProcess s proc).pid = s.pid ∧ (enterProcess s proc).cpu = s.cpu ∧
      (enterProcess s proc).locked = s.locked ∧ (enterProcess s proc).halted = s.halted ∧
      (enterProcess s proc).combinedProcList = proc := by
  simp [enterProcess, linkFirst_eq]

def firstWithout (s : ProcTables) (l : ProcList) (head proc : ℕ) : ℕ :=
  if s.prev l proc = 0 then s.next l proc else head

theorem removeProcess_next (s : ProcTables) (proc : ℕ) (l : ProcList) :
    (removeProcess s proc).next l =
    if s.prev l proc = 0 then s.next l
    else Function.update (s.next l) (s.prev l proc) (s.next l proc) := by
  cases l <;> simp [removeProcess, unlink_eq]

theorem removeProcess_prev (s : ProcTables) (proc : ℕ) (l : ProcList) :
    (removeProcess s proc).prev l =
    if s.next l proc = 0 then s.prev l
    else Function.update (s.prev l) (s.next l proc) (s.prev l proc) := by
  cases l <;> simp [removeProcess, unlink_eq]

theorem removeProcess_procList (s : ProcTables) (proc : ℕ) : (removeProcess s proc).procList =
    Function.update s.procList (s.cpu proc)
      (s.firstWithout .sched (s.procList (s.cpu proc)) proc) := by
  simp [removeProcess, unlink_eq, firstWithout]

theorem removeProcess_combinedProcList (s : ProcTables) (proc : ℕ) :
    (removeProcess s proc).combinedProcList = s.firstWithout .global s.combinedProcList proc := by
  simp [removeProcess, unlink_eq, firstWithout]

theorem removeProcess_procCurrent (s : ProcTables) (proc : ℕ) (hself : s.prev .sched proc ≠ proc) :
    (removeProcess s proc).procCurrent =
      if s.procCurrent (s.cpu proc) = proc then
        Function.update s.procCurrent (s.cpu proc)
          (if s.next .sched proc ≠ 0 then s.next .sched proc
          else s.firstWithout .sched (s.procList (s.cpu proc)) proc)
      else s.procCurrent := by
  have hnext : (if s.prev .sched proc = 0 then s.next .sched
      else Function.update (s.next .sched) (s.prev .sched proc) (s.next .sched proc)) proc =
      s.next .sched proc := by
    split
    · rfl
    · exact Function.update_of_ne hself.symm _ _
  simp [removeProcess, unlink_eq, firstWithout, hnext]

theorem removeProcess_processByPid (s : ProcTables) (proc : ℕ) :
    (removeProcess s proc).processByPid =
    Function.update s.processByPid (s.pid proc) none := by
  simp [removeProcess, unlink_eq]

theorem removeProcess_processCount (s : ProcTables) (proc : ℕ) :
    (removeProcess s proc).processCount = (s.processCount + (2 ^ 32 - 1)) % 2 ^ 32 := by
  simp [removeProcess, unlink_eq]

theorem removeProcess_live (s : ProcTables) (proc : ℕ) :
    (removeProcess s proc).live = s.live.erase proc := by
  simp [removeProcess, unlink_eq]

theorem removeProcess_same (s : ProcTables) (proc : ℕ) :
    (removeProcess s proc).pid = s.pid ∧ (removeProcess s proc).cpu = s.cpu ∧
      (removeProcess s proc).locked = s.locked ∧ (removeProcess s proc).halted = s.halted := by
  simp [removeProcess, unlink_eq]

/-! ## Locks -/

def taking (s : ProcTables) (m : ProcLock ℕ) : ProcTables :=
  { s with locked := Function.update s.locked m true }

theorem lock_eq {m : ProcLock ℕ} (h : s.locked m = false) : s.lock m = some (s.taking m) := by
  unfold lock
  rw [h]
  rfl

def holding (s : ProcTables) (m n : ProcLock ℕ) : ProcTables :=
  { s with locked := Function.update (Function.update s.locked m true) n true }

theorem lock_lock (h : ∀ l, s.locked l = false) (m n : ProcLock ℕ) (hne : n ≠ m)
    (f : ProcTables → Option σ) :
    ((s.lock m).bind fun s => (s.lock n).bind f) = f (s.holding m n) := by
  have hn : (s.taking m).locked n = false := (Function.update_of_ne hne _ _).trans (h n)
  rw [lock_eq (h m), Option.bind_some, lock_eq hn, Option.bind_some]
  rfl

theorem sameTables_holding (s : ProcTables) (m n : ProcLock ℕ) : s.SameTables (s.holding m n) :=
  ⟨rfl, rfl, rfl, rfl, rfl, rfl, rfl, rfl, fun _ _ => rfl, fun _ _ => rfl⟩

theorem sameTables_unlock (s : ProcTables) (m : ProcLock ℕ) : s.SameTables (s.unlock m) :=
  ⟨rfl, rfl, rfl, rfl, rfl, rfl, rfl, rfl, fun _ _ => rfl, fun _ _ => rfl⟩

theorem unlock_unlock {m n : ProcLock ℕ} (h : ∀ l, s.locked l = false)
    (ht : t.locked = (s.holding m n).locked) (l : ProcLock ℕ) :
    ((t.unlock m).unlock n).locked l = false := by
  unfold unlock
  dsimp only
  rw [ht]
  simp only [holding, Function.update_apply, h]
  split
  · rfl
  · split <;> rfl

theorem lock_unlock {m : ProcLock ℕ} (h : ∀ l, s.locked l = false) (l : ProcLock ℕ) :
    ((s.taking m).unlock m).locked l = false := by
  simp [unlock, taking, Function.update_apply, h]

theorem sameTables_taking (s : ProcTables) (m : ProcLock ℕ) :
    s.SameTables ((s.taking m).unlock m) :=
  ⟨rfl, rfl, rfl, rfl, rfl, rfl, rfl, rfl, fun _ _ => rfl, fun _ _ => rfl⟩

/-! ## A process is entered -/

theorem enterProcess_onCpu (s : ProcTables) (proc cpu : ℕ) : (enterProcess s proc).onCpu cpu =
    if s.cpu proc = cpu then proc :: s.onCpu cpu else s.onCpu cpu := by
  unfold onCpu
  rw [enterProcess_live, (enterProcess_same s proc).2.1, List.filter_cons]
  simp

theorem Agree.enter (h : s.Agree) (hnew : proc ∉ s.live) (hne : proc ≠ 0)
    (hpid : ∀ p ∈ s.live, s.pid p ≠ s.pid proc) (hcount : s.live.length + 1 < 2 ^ 32) :
    (enterProcess s proc).Agree := by
  obtain ⟨heqpid, heqcpu, -, -, hcombined⟩ := enterProcess_same s proc
  constructor
  case global =>
    obtain ⟨q, hchain⟩ := h.global
    rw [enterProcess_prev, enterProcess_next, enterProcess_live, hcombined]
    exact hchain.push h.nodup hnew hne
  case sched =>
    intro cpu
    obtain ⟨q, hchain⟩ := h.sched cpu
    rw [enterProcess_prev, enterProcess_next, enterProcess_procList, enterProcess_onCpu]
    by_cases hcpu : s.cpu proc = cpu
    · subst hcpu
      rw [if_pos rfl, Function.update_self]
      exact hchain.push (h.onCpu_nodup _) (fun hmem => hnew (mem_onCpu.mp hmem).1) hne
    · rw [if_neg hcpu, Function.update_of_ne (Ne.symm hcpu)]
      -- the links that change are those of the new process and of the first one of its CPU
      have hnot : ∀ x ∈ s.onCpu cpu, x ≠ proc ∧ (s.first (s.cpu proc) .sched ≠ 0 →
          x ≠ s.first (s.cpu proc) .sched) := by
        intro x hx
        obtain ⟨hlive, hxcpu⟩ := mem_onCpu.mp hx
        refine ⟨fun heq => hnew (heq ▸ hlive), fun hzero heq => hcpu ?_⟩
        rw [← hxcpu, heq]
        exact (mem_onCpu.mp (h.procList_mem hzero)).2.symm
      refine ⟨q, hchain.congr (fun x hx => ?_) fun x hx => ?_⟩
      · obtain ⟨hxnew, hxhead⟩ := hnot x hx
        by_cases hzero : s.first (s.cpu proc) .sched = 0
        · rw [if_pos hzero, Function.update_of_ne hxnew]
        · rw [if_neg hzero, Function.update_of_ne (hxhead hzero), Function.update_of_ne hxnew]
      · exact Function.update_of_ne (hnot x hx).1 _ _
  case nodup =>
    rw [enterProcess_live]
    exact List.nodup_cons.mpr ⟨hnew, h.nodup⟩
  case findable =>
    intro pid p
    rw [enterProcess_processByPid, enterProcess_live, heqpid, List.mem_cons]
    by_cases heq : pid = s.pid proc
    · subst heq
      rw [Function.update_self, Option.some.injEq]
      constructor
      · rintro rfl
        exact ⟨.inl rfl, rfl⟩
      · rintro ⟨rfl | hlive, hsame⟩
        · rfl
        · exact absurd hsame (hpid p hlive)
    · rw [Function.update_of_ne heq, h.findable]
      constructor
      · exact fun hp => ⟨.inr hp.1, hp.2⟩
      · rintro ⟨rfl | hlive, hsame⟩
        · exact absurd hsame.symm heq
        · exact ⟨hlive, hsame⟩
  case count =>
    rw [enterProcess_processCount, enterProcess_live, h.count, List.length_cons]
    exact Nat.mod_eq_of_lt hcount
  case count_lt =>
    rw [enterProcess_processCount]
    exact Nat.mod_lt _ (Nat.two_pow_pos 32)
  case current =>
    intro cpu
    rw [enterProcess_procCurrent, enterProcess_onCpu]
    by_cases hcpu : s.cpu proc = cpu
    · subst hcpu
      rw [if_pos rfl]
      left
      split
      · rw [Function.update_self]
        exact List.mem_cons_self
      next hzero =>
        rcases h.current (s.cpu proc) with hmem | hnull
        · exact List.mem_cons_of_mem _ hmem
        · exact absurd hnull.1 hzero
    · rw [if_neg hcpu]
      split
      · rw [Function.update_of_ne (Ne.symm hcpu)]
        exact h.current cpu
      · exact h.current cpu

/-! ## A process is removed -/

theorem removeProcess_onCpu (h : s.live.Nodup) (proc cpu : ℕ) :
    (removeProcess s proc).onCpu cpu = (s.onCpu cpu).erase proc := by
  unfold onCpu
  rw [removeProcess_live, (removeProcess_same s proc).2.1, h.erase_eq_filter,
    (h.filter _).erase_eq_filter, List.filter_filter, List.filter_filter]
  exact List.filter_congr fun p _ => Bool.and_comm _ _

theorem Agree.remove_sched (h : s.Agree) (hp : proc ∈ s.live) :
    ∃ q, Chain 0 ((removeProcess s proc).prev .sched) ((removeProcess s proc).next .sched) 0
      (s.firstWithout .sched (s.procList (s.cpu proc)) proc)
      ((s.onCpu (s.cpu proc)).erase proc) q 0 := by
  obtain ⟨q, hchain⟩ := h.sched (s.cpu proc)
  have hnodup := h.onCpu_nodup (s.cpu proc)
  obtain ⟨l, r, hlist⟩ := List.append_of_mem (mem_onCpu.mpr ⟨hp, rfl⟩)
  rw [removeProcess_prev, removeProcess_next]
  rw [hlist] at hchain hnodup ⊢
  have hnot : proc ∉ l := fun hmem =>
    (List.nodup_append.mp hnodup).2.2 proc hmem proc List.mem_cons_self rfl
  rw [List.erase_append_right _ hnot, List.erase_cons_head]
  exact hchain.remove hnodup

theorem Agree.remove (h : s.Agree) (hp : proc ∈ s.live) : (removeProcess s proc).Agree := by
  obtain ⟨heqpid, heqcpu, -, -⟩ := removeProcess_same s proc
  obtain ⟨hprev, hnext, hself, hnextself⟩ := h.neighbours hp
  constructor
  case global =>
    obtain ⟨q, hchain⟩ := h.global
    have hnodup := h.nodup
    obtain ⟨l, r, hlist⟩ := List.append_of_mem hp
    rw [removeProcess_prev, removeProcess_next, removeProcess_live, removeProcess_combinedProcList]
    rw [hlist] at hchain hnodup ⊢
    have hnot : proc ∉ l := fun hmem =>
      (List.nodup_append.mp hnodup).2.2 proc hmem proc List.mem_cons_self rfl
    rw [List.erase_append_right _ hnot, List.erase_cons_head]
    exact hchain.remove hnodup
  case sched =>
    intro cpu
    rw [removeProcess_procList, removeProcess_onCpu h.nodup]
    by_cases hcpu : s.cpu proc = cpu
    · subst hcpu
      rw [Function.update_self]
      exact h.remove_sched hp
    · have hout : proc ∉ s.onCpu cpu := fun hmem => hcpu (mem_onCpu.mp hmem).2
      rw [Function.update_of_ne (Ne.symm hcpu), List.erase_of_not_mem hout, removeProcess_prev,
        removeProcess_next]
      obtain ⟨q, hchain⟩ := h.sched cpu
      -- the links that change are those of the neighbours, which run on another CPU
      have hne : ∀ x ∈ s.onCpu cpu, ∀ y, (y = 0 ∨ y ∈ s.onCpu (s.cpu proc)) → y ≠ 0 → x ≠ y := by
        rintro x hx y hy hzero rfl
        exact hcpu ((mem_onCpu.mp (hy.resolve_left hzero)).2.symm.trans (mem_onCpu.mp hx).2)
      refine ⟨q, hchain.congr (fun x hx => ?_) fun x hx => ?_⟩
      · by_cases hzero : s.next .sched proc = 0
        · rw [if_pos hzero]
        · rw [if_neg hzero, Function.update_of_ne (hne x hx _ hnext hzero)]
      · by_cases hzero : s.prev .sched proc = 0
        · rw [if_pos hzero]
        · rw [if_neg hzero, Function.update_of_ne (hne x hx _ hprev hzero)]
  case nodup =>
    rw [removeProcess_live]
    exact h.nodup.erase proc
  case findable =>
    intro pid p
    rw [removeProcess_processByPid, removeProcess_live, heqpid, h.nodup.mem_erase_iff]
    by_cases heq : pid = s.pid proc
    · subst heq
      rw [Function.update_self]
      constructor
      · exact nofun
      · rintro ⟨⟨hne, hlive⟩, hsame⟩
        have hfound := (h.findable _ _).mpr ⟨hlive, hsame⟩
        rw [(h.findable _ _).mpr ⟨hp, rfl⟩] at hfound
        exact absurd (Option.some.inj hfound).symm hne
    · rw [Function.update_of_ne heq, h.findable]
      constructor
      · rintro ⟨hlive, hsame⟩
        refine ⟨⟨?_, hlive⟩, hsame⟩
        rintro rfl
        exact heq hsame.symm
      · rintro ⟨⟨-, hlive⟩, hsame⟩
        exact ⟨hlive, hsame⟩
  case count =>
    have hpos := List.length_pos_of_mem hp
    have hlt := h.count_lt
    rw [removeProcess_processCount, removeProcess_live, List.length_erase_of_mem hp, ← h.count]
    rw [← h.count] at hpos
    omega
  case count_lt =>
    rw [removeProcess_processCount]
    exact Nat.mod_lt _ (Nat.two_pow_pos 32)
  case current =>
    intro cpu
    rw [removeProcess_procCurrent s proc hself, removeProcess_onCpu h.nodup]
    by_cases hcpu : s.cpu proc = cpu
    · subst hcpu
      have hnodup := h.onCpu_nodup (s.cpu proc)
      by_cases hcur : s.procCurrent (s.cpu proc) = proc
      · rw [if_pos hcur, Function.update_self]
        by_cases hzero : s.next .sched proc = 0
        · rw [if_neg (not_not.mpr hzero)]
          obtain ⟨q, hchain⟩ := h.remove_sched hp
          have hhead := hchain.head
          cases hlist : (s.onCpu (s.cpu proc)).erase proc with
          | nil => exact .inr ⟨by rw [hhead, hlist]; rfl, rfl⟩
          | cons x xs =>
            left
            rw [hhead, hlist]
            exact List.mem_cons_self
        · rw [if_pos hzero]
          exact .inl (hnodup.mem_erase_iff.mpr ⟨hnextself, hnext.resolve_left hzero⟩)
      · rw [if_neg hcur]
        rcases h.current (s.cpu proc) with hmem | ⟨-, hnil⟩
        · exact .inl (hnodup.mem_erase_iff.mpr ⟨hcur, hmem⟩)
        · have hmem := mem_onCpu.mpr ⟨hp, rfl⟩
          rw [hnil] at hmem
          cases hmem
    · have hout : proc ∉ s.onCpu cpu := fun hmem => hcpu (mem_onCpu.mp hmem).2
      rw [List.erase_of_not_mem hout]
      split
      · rw [Function.update_of_ne (Ne.symm hcpu)]
        exact h.current cpu
      · exact h.current cpu

/-! ## The functions -/

theorem Agree.enter_iff (h : s.Agree) (hnew : proc ∉ s.live) (hne : proc ≠ 0) :
    (enterProcess s proc).Agree ↔
      (∀ p ∈ s.live, s.pid p ≠ s.pid proc) ∧ s.live.length + 1 < 2 ^ 32 := by
  refine ⟨fun ht => ⟨fun p hp heq => ?_, ?_⟩, fun hfree => h.enter hnew hne hfree.1 hfree.2⟩
  · have hfound := (ht.findable (s.pid proc) p).mpr
      ⟨by rw [enterProcess_live]; exact List.mem_cons_of_mem _ hp,
        by rw [(enterProcess_same s proc).1]; exact heq⟩
    rw [enterProcess_processByPid, Function.update_self] at hfound
    exact hnew (Option.some.inj hfound ▸ hp)
  · have hcount := ht.count
    rw [enterProcess_processCount, enterProcess_live, List.length_cons] at hcount
    exact hcount ▸ Nat.mod_lt _ (Nat.two_pow_pos 32)

theorem sameTables_initProcess (hnew : proc ∉ s.live) (cpu : ℕ) :
    s.SameTables (initProcess s proc cpu) := by
  refine ⟨rfl, rfl, rfl, rfl, rfl, rfl, rfl, rfl, fun p hp => ?_, fun p hp => ?_⟩
  · exact Function.update_of_ne (ne_of_mem_of_not_mem hp hnew) _ _
  · exact Function.update_of_ne (ne_of_mem_of_not_mem hp hnew) _ _

theorem procCreateCommon_failed (hc : ¬ c.Complete) (hnew : c.newproc ∉ s.live) :
    ∃ t, procCreateCommon s c = some (0, t) ∧ s.SameTables t ∧ t.locked = s.locked ∧
      t.halted = s.halted := by
  have hself : s.SameTables s ∧ s.locked = s.locked ∧ s.halted = s.halted :=
    ⟨SameTables.refl s, rfl, rfl⟩
  unfold procCreateCommon
  dsimp only
  split
  · exact ⟨s, rfl, hself⟩
  · split
    · exact ⟨s, rfl, hself⟩
    · split
      · exact ⟨s, rfl, hself⟩
      · split
        · exact ⟨_, rfl, sameTables_initProcess hnew c.cpu, rfl, rfl⟩
        next hbasic hne hcode hstrings =>
          simp only [not_or, Bool.not_eq_false] at hbasic hcode hstrings
          exact absurd ⟨hbasic, hne, hcode, hstrings.1, hstrings.2.1, hstrings.2.2⟩ hc

def entered (s : ProcTables) (c : Creation) : ProcTables :=
  enterProcess ((initProcess s c.newproc c.cpu).holding .combined (.cpu c.cpu)) c.newproc

/-- A creation that gets as far as the map succeeds if the map has memory, and otherwise does not
return. -/
theorem procCreateCommon_complete (hfree : ∀ l, s.locked l = false) (hc : c.Complete) :
    procCreateCommon s c = if c.inserted = false then none
      else some (c.newproc, ((s.entered c).unlock .combined).unlock (.cpu c.cpu)) := by
  obtain ⟨hbasic, hnew, hcode, hname, hdir, hcsd⟩ := hc
  unfold procCreateCommon
  simp only [hbasic, hnew, hcode, hname, hdir, hcsd, Bool.true_eq_false, or_self, if_false,
    Option.bind_eq_bind]
  have hcpu : (initProcess s c.newproc c.cpu).cpu c.newproc = c.cpu := Function.update_self _ _ _
  rw [hcpu]
  exact lock_lock (s := initProcess s c.newproc c.cpu) hfree .combined (.cpu c.cpu) nofun _

theorem entered_agree_iff (h : s.Agree) (hnew : c.newproc ∉ s.live) (hne : c.newproc ≠ 0) :
    (s.entered c).Agree ↔ (∀ p ∈ s.live, s.pid p ≠ s.nextid) ∧ s.live.length + 1 < 2 ^ 32 := by
  have hsame := sameTables_initProcess hnew c.cpu
  have hagree := (h.same hsame).same (sameTables_holding _ .combined (.cpu c.cpu))
  have hself : (initProcess s c.newproc c.cpu).pid c.newproc = s.nextid :=
    Function.update_self _ _ _
  have hpid : ∀ p ∈ s.live, (initProcess s c.newproc c.cpu).pid p = s.pid p := hsame.pid
  unfold entered
  rw [hagree.enter_iff hnew hne]
  refine and_congr_left fun _ => forall₂_congr fun p hp => ?_
  change (initProcess s c.newproc c.cpu).pid p ≠ (initProcess s c.newproc c.cpu).pid c.newproc ↔ _
  rw [hself, hpid p hp]

theorem Consistent.kill (h : s.Consistent) (hrun : s.halted = false) (hp : proc ∈ s.live) :
    ∃ t, procKill s proc = some t ∧ t.Consistent := by
  have hfree := h.released hrun
  let u := removeProcess (s.holding (.cpu (s.cpu proc)) .combined) proc
  have hagree : u.Agree := (h.agree.same (sameTables_holding _ _ _)).remove hp
  have hkill : procKill s proc = if u.combinedProcList = 0 then some { u with halted := true }
      else some ((u.unlock (.cpu (s.cpu proc))).unlock .combined) := by
    unfold procKill
    simp only [Option.bind_eq_bind]
    rw [lock_lock hfree (.cpu (s.cpu proc)) .combined nofun]
  rw [hkill]
  split
  · refine ⟨_, rfl, ?_, nofun⟩
    exact hagree.same ⟨rfl, rfl, rfl, rfl, rfl, rfl, rfl, rfl, fun _ _ => rfl, fun _ _ => rfl⟩
  · exact ⟨_, rfl, (hagree.same (sameTables_unlock _ _)).same (sameTables_unlock _ _),
      fun _ => unlock_unlock hfree (removeProcess_same _ proc).2.2.1⟩

theorem Consistent.find (h : s.Consistent) (hrun : s.halted = false) (pid : ℕ) :
    ∃ t, procFind s pid = some ((s.processByPid pid).getD 0, t) ∧ s.SameTables t ∧ t.Consistent ∧
      t.halted = false := by
  have hfree := h.released hrun
  have hsame := sameTables_taking s .combined
  refine ⟨_, ?_, hsame, ⟨h.agree.same hsame, fun _ => lock_unlock hfree⟩, hrun⟩
  unfold procFind
  rw [lock_eq (hfree .combined)]
  rfl

theorem Consistent.cur (h : s.Consistent) (hrun : s.halted = false) (cpu : ℕ) :
    ∃ t, procCur s cpu = some (s.procCurrent cpu, t) ∧ s.SameTables t ∧ t.Consistent ∧
      t.halted = false := by
  have hfree := h.released hrun
  have hsame := sameTables_taking s (.cpu cpu)
  refine ⟨_, ?_, hsame, ⟨h.agree.same hsame, fun _ => lock_unlock hfree⟩, hrun⟩
  unfold procCur
  rw [lock_eq (hfree (.cpu cpu))]
  rfl

theorem Consistent.killId (h : s.Consistent) (hrun : s.halted = false) (id : ℕ) :
    ∃ b t, procKillId s id = some (b, t) ∧ t.Consistent := by
  obtain ⟨t, hfind, hsame, ht, hrunt⟩ := h.find hrun id
  unfold procKillId
  rw [hfind]
  simp only [Option.bind_eq_bind, Option.bind_some]
  cases hid : s.processByPid id with
  | none => exact ⟨false, t, rfl, ht⟩
  | some proc =>
    obtain ⟨hlive, hpid⟩ := (h.agree.findable id proc).mp hid
    have hproc := h.agree.ne_zero hlive
    have hlivet : proc ∈ t.live := hsame.live ▸ hlive
    rw [Option.getD_some, if_neg hproc]
    obtain ⟨u, hcur, hsameu, hu, hrunu⟩ := ht.cur hrunt (t.cpu proc)
    rw [hcur, Option.bind_some]
    -- a CPU with a process has a current one
    have hne : t.procCurrent (t.cpu proc) ≠ 0 := by
      rcases ht.agree.current (t.cpu proc) with hmem | ⟨-, hnil⟩
      · exact ht.agree.ne_zero (mem_onCpu.mp hmem).1
      · have hmem := mem_onCpu.mpr ⟨hlivet, rfl⟩
        rw [hnil] at hmem
        cases hmem
    dsimp only
    rw [if_neg hne]
    split
    · exact ⟨false, u, rfl, hu⟩
    · obtain ⟨v, hkill, hv⟩ := hu.kill hrunu (hsameu.live ▸ hlivet)
      rw [hkill]
      exact ⟨true, v, rfl, hv⟩

theorem Agree.move (h : s.Agree) (hx : x ∈ s.onCpu cpu) :
    Agree { s with procCurrent := Function.update s.procCurrent cpu x } := by
  refine ⟨h.global, h.sched, h.nodup, h.findable, h.count, h.count_lt, fun i => ?_⟩
  by_cases hi : i = cpu
  · subst hi
    left
    change Function.update s.procCurrent i x i ∈ s.onCpu i
    rw [Function.update_self]
    exact hx
  · change Function.update s.procCurrent cpu x i ∈ s.onCpu i ∨
      Function.update s.procCurrent cpu x i = 0 ∧ s.onCpu i = []
    rw [Function.update_of_ne hi]
    exact h.current i

def nextOf (s : ProcTables) (cpu : ℕ) : ℕ :=
  let next := s.next .sched (s.procCurrent cpu)
  if next = 0 then s.procList cpu else next

theorem Agree.nextOf_mem (h : s.Agree) (hlist : s.procList cpu ≠ 0) (hcur : s.procCurrent cpu ≠ 0) :
    s.nextOf cpu ∈ s.onCpu cpu := by
  have hmem := (h.current cpu).resolve_right fun hnull => hcur hnull.1
  obtain ⟨hlive, hcpu⟩ := mem_onCpu.mp hmem
  obtain ⟨-, hnext, -⟩ := h.neighbours hlive
  rw [hcpu] at hnext
  unfold nextOf
  dsimp only
  split
  · exact h.procList_mem hlist
  next hzero => exact hnext.resolve_left hzero

theorem Consistent.runNext (h : s.Consistent) (hrun : s.halted = false) (cpu : ℕ) (ended : Bool) :
    ∃ t, procRunNext s cpu ended = some t ∧ t.Consistent := by
  have hfree := h.released hrun
  unfold procRunNext
  rw [lock_eq (hfree (.cpu cpu))]
  simp only [Option.bind_eq_bind, Option.bind_some]
  split
  · exact ⟨_, rfl, h.agree.same (sameTables_taking _ _), fun _ => lock_unlock hfree⟩
  next hsome =>
    obtain ⟨hlist, hcur⟩ := not_or.mp hsome
    have hmem := h.agree.nextOf_mem hlist hcur
    -- the state with the cursor moved on
    let u := unlock { s.taking (.cpu cpu) with
      procCurrent := Function.update s.procCurrent cpu (s.nextOf cpu) } (.cpu cpu)
    have hself : u.procCurrent cpu = s.nextOf cpu := Function.update_self _ _ _
    have hu : u.Consistent := by
      refine ⟨(h.agree.move hmem).same ?_, fun _ => lock_unlock hfree⟩
      exact ⟨rfl, rfl, rfl, rfl, rfl, rfl, rfl, rfl, fun _ _ => rfl, fun _ _ => rfl⟩
    have hlive : s.nextOf cpu ∈ u.live := (mem_onCpu.mp hmem).1
    change ∃ t, (if u.procCurrent cpu = 0 then some u
      else if ended = true then procKill u (u.procCurrent cpu) else some u) = some t ∧ t.Consistent
    rw [hself, if_neg (h.agree.ne_zero hlive)]
    split
    · exact hu.kill hrun hlive
    · exact ⟨u, rfl, hu⟩

end ProcTables

/-! ## Runs -/

inductive TableCall where
  | create (c : Creation)
  | kill (proc : ℕ)
  | killId (id : ℕ)
  | runNext (cpu : ℕ) (ended : Bool)

namespace ProcTables

variable {s t : ProcTables} {c : Creation} {d : TableCall}

def call (s : ProcTables) : TableCall → Option ProcTables
  | .create c => (procCreateCommon s c).map Prod.snd
  | .kill proc => procKill s proc
  | .killId id => (procKillId s id).map Prod.snd
  | .runNext cpu ended => procRunNext s cpu ended

theorem call_create (s : ProcTables) (c : Creation) :
    s.call (.create c) = (procCreateCommon s c).map Prod.snd := rfl

theorem call_killId (s : ProcTables) (id : ℕ) :
    s.call (.killId id) = (procKillId s id).map Prod.snd := rfl

def Allowed (s : ProcTables) (d : TableCall) : Prop :=
  s.halted = false ∧
    match d with
    | .create c => c.newproc ∉ s.live
    | .kill proc => proc ∈ s.live
    | .killId _ => True
    | .runNext _ _ => True

def FindsRoom (s : ProcTables) : TableCall → Prop
  | .create c => c.Complete →
      c.inserted = true ∧ (∀ p ∈ s.live, s.pid p ≠ s.nextid) ∧ s.live.length + 1 < 2 ^ 32
  | _ => True

def Keeps (s : ProcTables) (d : TableCall) : Prop :=
  ∃ t, s.call d = some t ∧ t.Consistent ∧
    ∀ c, d = .create c → procCreateCommon s c = some (0, t) → s.SameTables t

theorem Consistent.create_iff (h : s.Consistent) (hrun : s.halted = false)
    (hnew : c.newproc ∉ s.live) : s.Keeps (.create c) ↔ s.FindsRoom (.create c) := by
  have hfree := h.released hrun
  by_cases hc : c.Complete
  · have hcreate := procCreateCommon_complete hfree hc
    have hiff := entered_agree_iff h.agree hnew hc.newproc
    have hsame : (s.entered c).SameTables (((s.entered c).unlock .combined).unlock (.cpu c.cpu)) :=
      ⟨rfl, rfl, rfl, rfl, rfl, rfl, rfl, rfl, fun _ _ => rfl, fun _ _ => rfl⟩
    constructor
    · rintro ⟨t, hcall, ht, -⟩ -
      rw [call_create, hcreate] at hcall
      cases hin : c.inserted with
      | false =>
        rw [if_pos hin] at hcall
        cases hcall
      | true =>
        rw [if_neg (by simp [hin])] at hcall
        obtain rfl := Option.some.inj hcall
        refine ⟨rfl, hiff.mp (ht.agree.same ?_)⟩
        exact ⟨rfl, rfl, rfl, rfl, rfl, rfl, rfl, rfl, fun _ _ => rfl, fun _ _ => rfl⟩
    · intro hroom
      obtain ⟨hin, hfits⟩ := hroom hc
      rw [if_neg (by simp [hin])] at hcreate
      refine ⟨((s.entered c).unlock .combined).unlock (.cpu c.cpu), ?_, ?_, ?_⟩
      · rw [call_create, hcreate]
        rfl
      · exact ⟨(hiff.mpr hfits).same hsame,
          fun _ => unlock_unlock hfree (enterProcess_same _ _).2.2.1⟩
      · intro c' heq hzero
        obtain rfl := TableCall.create.inj heq
        rw [hcreate] at hzero
        exact absurd (Prod.mk.inj (Option.some.inj hzero)).1 hc.newproc
  · obtain ⟨t, hcreate, hsame, hlocked, hhalted⟩ := procCreateCommon_failed hc hnew
    refine ⟨fun _ hcomplete => absurd hcomplete hc, fun _ => ⟨t, ?_, ⟨h.agree.same hsame, ?_⟩, ?_⟩⟩
    · rw [call_create, hcreate]
      rfl
    · rw [hlocked, hhalted]
      exact h.released
    · exact fun _ _ _ => hsame

theorem Consistent.keeps_iff (h : s.Consistent) (hallowed : s.Allowed d) :
    s.Keeps d ↔ s.FindsRoom d := by
  obtain ⟨hrun, hallowed⟩ := hallowed
  cases d with
  | create c => exact h.create_iff hrun hallowed
  | kill proc =>
    obtain ⟨t, hcall, ht⟩ := h.kill hrun hallowed
    exact ⟨fun _ => trivial, fun _ => ⟨t, hcall, ht, nofun⟩⟩
  | killId id =>
    obtain ⟨b, t, hcall, ht⟩ := h.killId hrun id
    refine ⟨fun _ => trivial, fun _ => ⟨t, ?_, ht, nofun⟩⟩
    rw [call_killId, hcall]
    rfl
  | runNext cpu ended =>
    obtain ⟨t, hcall, ht⟩ := h.runNext hrun cpu ended
    exact ⟨fun _ => trivial, fun _ => ⟨t, hcall, ht, nofun⟩⟩

def init : ProcTables where
  pid := fun _ => 0
  cpu := fun _ => 0
  next := fun _ _ => 0
  prev := fun _ _ => 0
  procCurrent := fun _ => 0
  procList := fun _ => 0
  combinedProcList := 0
  processByPid := fun _ => none
  nextid := 1
  processCount := 0
  locked := fun _ => false
  halted := false
  live := []

theorem init_consistent : init.Consistent := by
  refine ⟨⟨⟨0, rfl, rfl⟩, fun cpu => ⟨0, rfl, rfl⟩, List.nodup_nil, fun pid p => ?_, rfl,
    Nat.two_pow_pos 32, fun cpu => .inr ⟨rfl, rfl⟩⟩, fun _ _ => rfl⟩
  simp [init]

/-- In a run whose creations all find room the tables are consistent, and they stay so in a further
call if and only if that finds room, too. -/
theorem run_consistent (hrun : Run call (fun s d => s.Allowed d ∧ s.FindsRoom d) init s) :
    s.Consistent ∧ ∀ d, s.Allowed d → (s.Keeps d ↔ s.FindsRoom d) := by
  have hs : s.Consistent := by
    refine hrun.invariant init_consistent fun {t d} ht hallowed => ?_
    obtain ⟨u, hcall, hu, -⟩ := (ht.keeps_iff hallowed.1).mpr hallowed.2
    exact ⟨u, hcall, hu⟩
  exact ⟨hs, fun d => hs.keeps_iff⟩

/-! ## Twelve processes, for which the map has to grow -/

def creation (n : ℕ) : Creation := ⟨true, 0, 4096 * (n + 1), true, true, true, true, true⟩

def afterCreations : ℕ → ProcTables
  | 0 => init
  | n + 1 => Run.next call (afterCreations n) (.create (creation n))

theorem creation_allowed : ∀ n < 12, (afterCreations n).halted = false ∧
    (creation n).newproc ∉ (afterCreations n).live ∧
    (∀ p ∈ (afterCreations n).live, (afterCreations n).pid p ≠ (afterCreations n).nextid) ∧
    (afterCreations n).live.length = n ∧
    ((afterCreations n).call (.create (creation n))).isSome = true := by
  decide +kernel

theorem run_afterCreations {n : ℕ} (hn : n ≤ 12) :
    Run call (fun s d => s.Allowed d ∧ s.FindsRoom d) init (afterCreations n) := by
  induction n with
  | zero => exact Run.refl
  | succ n ih =>
    obtain ⟨hhalted, hnew, hpid, hlength, hcall⟩ := creation_allowed n hn
    have hrun := ih (Nat.le_of_succ_le hn)
    refine Run.next_step hrun ⟨⟨hhalted, hnew⟩, fun _ => ⟨rfl, hpid, ?_⟩⟩ hcall
    rw [hlength]
    exact Nat.lt_of_le_of_lt hn (by decide)

def noRoom : Creation := { creation 12 with inserted := false }

/-- Where the map, which is full, has no memory to grow, the creation does not return. -/
theorem noRoom_not_keeps :
    Run call (fun s d => s.Allowed d ∧ s.FindsRoom d) init (afterCreations 12) ∧
    (afterCreations 12).live.length = 12 ∧ (afterCreations 12).Allowed (.create noRoom) ∧
    ¬ (afterCreations 12).Keeps (.create noRoom) := by
  have hnone : (afterCreations 12).halted = false ∧ (afterCreations 12).live.length = 12 ∧
      noRoom.newproc ∉ (afterCreations 12).live ∧
      ((afterCreations 12).call (.create noRoom)).isSome = false := by
    decide +kernel
  obtain ⟨hhalted, hlength, hnew, hcall⟩ := hnone
  refine ⟨run_afterCreations le_rfl, hlength, ⟨hhalted, hnew⟩, ?_⟩
  rintro ⟨t, hsome, -⟩
  rw [hsome] at hcall
  cases hcall

def afterKill : ProcTables := Run.next call (afterCreations 12) (.kill 8192)

theorem run_consistent_killed :
    afterKill.Consistent ∧ ∀ d, afterKill.Allowed d →
      (afterKill.Keeps d ↔ afterKill.FindsRoom d) := by
  have hkill : (afterCreations 12).halted = false ∧ 8192 ∈ (afterCreations 12).live ∧
      ((afterCreations 12).call (.kill 8192)).isSome = true := by
    decide +kernel
  exact run_consistent (Run.next_step (run_afterCreations le_rfl)
    ⟨⟨hkill.1, hkill.2.1⟩, trivial⟩ hkill.2.2)

end ProcTables

end RetroRocket
