import RetroRocket.MapRefinement
import RetroRocket.MapVectors

/-!
# Failing allocations of the ordered map

A call that gets no memory for the vector of the keys leaves the map as it was. If it gets none for
a later vector, the earlier ones stay longer by one, so the vectors are parallel no more.
-/

namespace RetroRocket

namespace Room

variable {v : Room} {memory : Bool}

def Fails (v : Room) (memory : Bool) : Prop := v.count = v.capacity ∧ memory = false

theorem reserveLoop_spec {wantCap fuel newCap : ℕ} (hfuel : wantCap + 1 ≤ newCap + fuel)
    (hpos : 0 < fuel) :
    ∃ cap, reserveLoop wantCap fuel newCap = some cap ∧ wantCap ≤ cap := by
  induction fuel generalizing newCap with
  | zero => exact absurd hpos (Nat.lt_irrefl 0)
  | succ fuel ih =>
    rw [reserveLoop]
    by_cases hless : newCap < wantCap
    · rw [if_pos hless]
      by_cases hnext : growFormula newCap ≤ newCap
      · exact ⟨wantCap, if_pos hnext, Nat.le_refl _⟩
      · have hfuel' : wantCap + 1 ≤ growFormula newCap + fuel := by omega
        obtain ⟨cap, hcap, hle⟩ := ih hfuel' (by omega)
        exact ⟨cap, (if_neg hnext).trans hcap, hle⟩
    · exact ⟨newCap, if_neg hless, Nat.le_of_not_lt hless⟩

theorem reserve_spec (hfull : v.count = v.capacity) (memory : Bool) :
    ∃ cap, v.count + 1 ≤ cap ∧
      v.reserve (v.count + 1) memory =
        some (if memory then some { v with capacity := cap } else none) := by
  have hfuel : v.count + 1 + 1 ≤ (if v.capacity = 0 then 8 else v.capacity) + (v.count + 1 + 1) :=
    Nat.le_add_left _ _
  obtain ⟨cap, hcap, hle⟩ := reserveLoop_spec hfuel (Nat.succ_pos _)
  refine ⟨cap, hle, ?_⟩
  rw [reserve, if_neg (by omega), hcap]
  rfl

theorem push_of_fails (h : v.Fails memory) : v.push memory = some none := by
  obtain ⟨cap, -, hreserve⟩ := reserve_spec h.1 memory
  rw [push, if_pos h.1, hreserve, h.2]
  rfl

theorem push_of_not_fails (hroom : v.count ≤ v.capacity) (h : ¬ v.Fails memory) :
    ∃ v', v.push memory = some (some v') ∧ v'.count = v.count + 1 ∧ v'.count ≤ v'.capacity := by
  rw [push]
  by_cases hfull : v.count = v.capacity
  · obtain ⟨cap, hle, hreserve⟩ := reserve_spec hfull memory
    cases memory with
    | true =>
      rw [if_pos hfull, hreserve]
      exact ⟨_, rfl, rfl, hle⟩
    | false => exact absurd ⟨hfull, rfl⟩ h
  · rw [if_neg hfull]
    exact ⟨_, rfl, rfl, by change v.count + 1 ≤ v.capacity; omega⟩

end Room

namespace Links

theorem eq_of_agree {s s' : Links ℕ} (hroot : s'.root = s.root) (h : ∀ j, s.Agree s' j) :
    s' = s := by
  obtain ⟨child, parent, red, root⟩ := s
  obtain ⟨child', parent', red', root'⟩ := s'
  obtain rfl : parent' = parent := funext fun j => (h j).1
  obtain rfl : red' = red := funext fun j => (h j).2.1
  obtain rfl : child' = child := funext fun d => funext fun j => (h j).2.2 d
  obtain rfl : root' = root := hroot
  rfl

theorem newNode_congr {s s' : Links ℕ} {n : ℕ} (hroot : s'.root = s.root)
    (hagree : ∀ j, j ≠ n → s.Agree s' j) (parent : Option ℕ) :
    s'.newNode n parent = s.newNode n parent := by
  have hroot' : (s'.newNode n parent).root = (s.newNode n parent).root := hroot
  apply eq_of_agree hroot'
  intro j
  by_cases hj : j = n
  · subst hj
    exact ⟨(if_pos rfl).trans (if_pos rfl).symm, (if_pos rfl).trans (if_pos rfl).symm,
      fun d => child_newNode.trans child_newNode.symm⟩
  · obtain ⟨hparent, hred, hchild⟩ := agree_newNode (s := s) (q := parent) hj
    obtain ⟨hparent', hred', hchild'⟩ := agree_newNode (s := s') (q := parent) hj
    obtain ⟨hp, hr, hc⟩ := hagree j hj
    exact ⟨hparent'.trans (hp.trans hparent.symm), hred'.trans (hr.trans hred.symm),
      fun d => (hchild' d).trans ((hc d).trans (hchild d).symm)⟩

end Links

namespace MapVectors

open Links

variable {κ ν : Type} {m m' : MapVectors κ ν} {memory : Column → Bool} {c : Column}
  {cs : List Column} {n i : ℕ} {cmp : κ → κ → Ordering} {key : κ} {value : ν} {parent : Option ℕ}

def Fails (m : MapVectors κ ν) (memory : Column → Bool) (c : Column) : Prop :=
  (m.rooms c).Fails (memory c)

structure Parallel (m : MapVectors κ ν) : Prop where
  lengths : ∀ c, (m.rooms c).count = (m.rooms .keys).count
  room : ∀ c, (m.rooms c).count ≤ (m.rooms c).capacity

/-! ## What a push leaves alone -/

structure SameBut (n : ℕ) (m m' : MapVectors κ ν) : Prop where
  keys : ∀ key, Function.update m'.keys n key = Function.update m.keys n key
  vals : ∀ val, Function.update m'.vals n val = Function.update m.vals n val
  links : ∀ parent, m'.links.newNode n parent = m.links.newNode n parent
  freeIx : m'.freeIx = m.freeIx
  count : m'.count = m.count

theorem SameBut.refl (n : ℕ) (m : MapVectors κ ν) : SameBut n m m :=
  ⟨fun _ => rfl, fun _ => rfl, fun _ => rfl, rfl, rfl⟩

theorem SameBut.trans {m'' : MapVectors κ ν} (h : SameBut n m m') (h' : SameBut n m' m'') :
    SameBut n m m'' where
  keys key := (h'.keys key).trans (h.keys key)
  vals val := (h'.vals val).trans (h.vals val)
  links parent := (h'.links parent).trans (h.links parent)
  freeIx := h'.freeIx.trans h.freeIx
  count := h'.count.trans h.count

theorem SameBut.rooms (h : SameBut n m m') (rooms : Column → Room) :
    SameBut n m { m' with rooms := rooms } :=
  ⟨h.keys, h.vals, h.links, h.freeIx, h.count⟩

variable [Zero κ] [Zero ν]

theorem blank_sameBut (m : MapVectors κ ν) (n : ℕ) (c : Column) : SameBut n m (m.blank n c) := by
  cases c with
  | keys => exact ⟨fun key => Function.update_idem _ _ _, fun _ => rfl, fun _ => rfl, rfl, rfl⟩
  | vals => exact ⟨fun _ => rfl, fun val => Function.update_idem _ _ _, fun _ => rfl, rfl, rfl⟩
  | left =>
    exact ⟨fun _ => rfl, fun _ => rfl, newNode_congr rfl fun j hj => agree_setChild hj, rfl, rfl⟩
  | right =>
    exact ⟨fun _ => rfl, fun _ => rfl, newNode_congr rfl fun j hj => agree_setChild hj, rfl, rfl⟩
  | parent =>
    exact ⟨fun _ => rfl, fun _ => rfl, newNode_congr rfl fun j hj => agree_setParent hj, rfl, rfl⟩
  | colour =>
    exact ⟨fun _ => rfl, fun _ => rfl, newNode_congr rfl fun j hj => agree_setRed hj, rfl, rfl⟩

/-! ## Pushes -/

theorem pushColumn_of_fails (h : m.Fails memory c) : m.pushColumn memory c = some (m, false) := by
  rw [pushColumn, Room.push_of_fails h]
  rfl

theorem pushColumn_of_not_fails (hroom : (m.rooms c).count ≤ (m.rooms c).capacity)
    (h : ¬ m.Fails memory c) :
    ∃ m', m.pushColumn memory c = some (m', true) ∧ SameBut (m.rooms c).count m m' ∧
      (m'.rooms c).count = (m.rooms c).count + 1 ∧ (m'.rooms c).count ≤ (m'.rooms c).capacity ∧
      ∀ e, e ≠ c → m'.rooms e = m.rooms e := by
  obtain ⟨room, hpush, hcount, hle⟩ := Room.push_of_not_fails hroom h
  rw [pushColumn, hpush]
  refine ⟨_, rfl, (blank_sameBut m _ c).rooms _, ?_, ?_, fun e he => Function.update_of_ne he _ _⟩
  · dsimp only
    rw [Function.update_self]
    exact hcount
  · dsimp only
    rw [Function.update_self]
    exact hle

theorem soaPushBlank_cons {m₁ : MapVectors κ ν} (hpush : m.pushColumn memory c = some (m₁, true)) :
    soaPushBlank memory (c :: cs) m = soaPushBlank memory cs m₁ := by
  rw [soaPushBlank, hpush]
  rfl

theorem soaPushBlank_cons_of_fails (h : m.Fails memory c) :
    soaPushBlank memory (c :: cs) m = some (m, false) := by
  rw [soaPushBlank, pushColumn_of_fails h]
  rfl

theorem soaPushBlank_of_ok (hcs : cs.Nodup) (hn : ∀ c ∈ cs, (m.rooms c).count = n)
    (hroom : ∀ c ∈ cs, (m.rooms c).count ≤ (m.rooms c).capacity)
    (hok : ∀ c ∈ cs, ¬ m.Fails memory c) :
    ∃ m', soaPushBlank memory cs m = some (m', true) ∧ SameBut n m m' ∧
      (∀ c ∈ cs, (m'.rooms c).count = n + 1 ∧ n + 1 ≤ (m'.rooms c).capacity) ∧
      ∀ c, c ∉ cs → m'.rooms c = m.rooms c := by
  induction cs generalizing m with
  | nil => exact ⟨m, rfl, SameBut.refl n m, fun c hc => absurd hc List.not_mem_nil, fun _ _ => rfl⟩
  | cons e cs ih =>
    obtain ⟨hnot, hcs'⟩ := List.nodup_cons.mp hcs
    obtain ⟨m₁, hpush, hsame, hcount, hle, hothers⟩ :=
      pushColumn_of_not_fails (hroom e List.mem_cons_self) (hok e List.mem_cons_self)
    have hold : ∀ c ∈ cs, m₁.rooms c = m.rooms c := fun c hc => hothers c fun heq => hnot (heq ▸ hc)
    rw [hn e List.mem_cons_self] at hsame hcount
    obtain ⟨m', hrest, hsame', hpushed, hothers'⟩ := ih hcs'
      (fun c hc => by rw [hold c hc]; exact hn c (List.mem_cons_of_mem _ hc))
      (fun c hc => by rw [hold c hc]; exact hroom c (List.mem_cons_of_mem _ hc))
      (fun c hc => by rw [Fails, hold c hc]; exact hok c (List.mem_cons_of_mem _ hc))
    refine ⟨m', ?_, hsame.trans hsame', fun c hc => ?_, fun c hc => ?_⟩
    · exact (soaPushBlank_cons hpush).trans hrest
    · cases List.mem_cons.mp hc with
      | inl heq =>
        rw [heq, hothers' e hnot]
        exact ⟨hcount, hcount ▸ hle⟩
      | inr hc => exact hpushed c hc
    · rw [List.mem_cons, not_or] at hc
      rw [hothers' c hc.2, hothers c hc.1]

theorem soaPushBlank_of_fails (hcs : cs.Nodup)
    (hroom : ∀ c ∈ cs, (m.rooms c).count ≤ (m.rooms c).capacity)
    (hfail : ∃ c ∈ cs, m.Fails memory c) :
    ∃ m', soaPushBlank memory cs m = some (m', false) ∧ (∃ c ∈ cs, m'.rooms c = m.rooms c) ∧
      ∀ c, c ∉ cs → m'.rooms c = m.rooms c := by
  induction cs generalizing m with
  | nil =>
    obtain ⟨c, hc, -⟩ := hfail
    cases hc
  | cons e cs ih =>
    obtain ⟨hnot, hcs'⟩ := List.nodup_cons.mp hcs
    by_cases hfirst : m.Fails memory e
    · exact ⟨m, soaPushBlank_cons_of_fails hfirst, ⟨e, List.mem_cons_self, rfl⟩, fun _ _ => rfl⟩
    · obtain ⟨m₁, hpush, -, -, -, hothers⟩ :=
        pushColumn_of_not_fails (hroom e List.mem_cons_self) hfirst
      have hold : ∀ c ∈ cs, m₁.rooms c = m.rooms c :=
        fun c hc => hothers c fun heq => hnot (heq ▸ hc)
      have hfail' : ∃ c ∈ cs, m₁.Fails memory c := by
        obtain ⟨c, hc, hfail⟩ := hfail
        cases List.mem_cons.mp hc with
        | inl heq => exact absurd (heq ▸ hfail) hfirst
        | inr hc => exact ⟨c, hc, by rw [Fails, hold c hc]; exact hfail⟩
      obtain ⟨m', hrest, ⟨c, hc, hsame⟩, hothers'⟩ := ih hcs'
        (fun c hc => by rw [hold c hc]; exact hroom c (List.mem_cons_of_mem _ hc)) hfail'
      refine ⟨m', (soaPushBlank_cons hpush).trans hrest,
        ⟨c, List.mem_cons_of_mem _ hc, hsame.trans (hold c hc)⟩, fun c hc => ?_⟩
      rw [List.mem_cons, not_or] at hc
      rw [hothers' c hc.2, hothers c hc.1]

/-! ## Insertions -/

def NeedsSlot (cmp : κ → κ → Ordering) (m : MapVectors κ ν) (key : κ) : Prop :=
  m.freeIx = [] ∧ m.toMap.findIndex cmp key = some none

omit [Zero κ] [Zero ν] in
theorem Column.mem_all (c : Column) : c ∈ Column.all := by cases c <;> decide

omit [Zero κ] [Zero ν] in
theorem writeNode_eq (h : ∀ c, i < (m.rooms c).capacity) (key : κ) (value : ν) (parent : Option ℕ) :
    m.writeNode i key value parent = some { m with
      keys := Function.update m.keys i key
      vals := Function.update m.vals i value
      links := m.links.newNode i parent } :=
  if_pos fun c _ => h c

theorem nodeNew_of_ok (h : m.Parallel) (hfree : ∀ i ∈ m.freeIx, i < (m.rooms .keys).count)
    (hok : m.freeIx = [] → ∀ c, ¬ m.Fails memory c) (key : κ) (value : ν) (parent : Option ℕ) :
    ∃ z m', m.nodeNew key value parent memory = some (m', some z) ∧
      m.toMap.nodeNew key value parent = (z, m'.toMap) ∧ m'.Parallel := by
  cases hix : m.freeIx with
  | cons i rest =>
    have hmap : m.toMap.freeIx = i :: rest := hix
    have hroom : ∀ c, i < (m.rooms c).capacity := by
      intro c
      have hlt := hfree i (hix ▸ List.mem_cons_self)
      rw [← h.lengths c] at hlt
      exact Nat.lt_of_lt_of_le hlt (h.room c)
    rw [nodeNew, OrderedMap.nodeNew, hix, hmap]
    dsimp only
    rw [writeNode_eq (m := { m with freeIx := rest }) hroom]
    exact ⟨i, _, rfl, rfl, h.lengths, h.room⟩
  | nil =>
    have hmap : m.toMap.freeIx = [] := hix
    have hok' := hok hix
    have hlengths : ∀ c ∈ Column.all, (m.rooms c).count = (m.rooms .keys).count :=
      fun c _ => h.lengths c
    obtain ⟨m₁, hpush, hsame, hpushed, -⟩ :=
      soaPushBlank_of_ok (by decide) hlengths (fun c _ => h.room c) fun c _ => hok' c
    have hall : ∀ c, (m₁.rooms c).count = (m.rooms .keys).count + 1 ∧
        (m.rooms .keys).count + 1 ≤ (m₁.rooms c).capacity := fun c => hpushed c (Column.mem_all c)
    have hlast : (m₁.rooms .keys).count - 1 = (m.rooms .keys).count := by
      rw [(hall .keys).1]
      exact Nat.add_sub_cancel _ _
    rw [nodeNew, OrderedMap.nodeNew, hix, hmap]
    dsimp only
    rw [hpush, Option.bind_eq_bind, Option.bind_some]
    dsimp only
    rw [if_pos rfl, hlast, writeNode_eq fun c => (hall c).2]
    refine ⟨_, _, rfl, ?_, fun c => ?_, fun c => ?_⟩
    · simp only [toMap, hsame.keys, hsame.vals, hsame.links, hsame.freeIx, hsame.count,
        (hall .keys).1, hix]
    · exact (hall c).1.trans (hall .keys).1.symm
    · dsimp only
      rw [(hall c).1]
      exact (hall c).2

theorem insertWith_of_ok (h : m.Parallel) (hfree : ∀ i ∈ m.freeIx, i < (m.rooms .keys).count)
    (hok : m.NeedsSlot cmp key → ∀ c, ¬ m.Fails memory c) {assign : ν → ν → ν} {n : OrderedMap κ ν}
    {r : ℕ} (hmap : m.toMap.insertWith cmp assign key value = some (n, r)) :
    ∃ m', m.insertWith cmp assign key value memory = some (m', (r : ℤ)) ∧ m'.toMap = n ∧
      m'.Parallel := by
  obtain ⟨d, hdescend, hmap⟩ := Option.bind_eq_some_iff.mp hmap
  have hdescend' : descend (fun i => cmp key (m.keys i)) m.toMap.fuel m.links.root none m.links =
    some d := hdescend
  rw [insertWith, hdescend', Option.bind_eq_bind, Option.bind_some]
  cases d with
  | inl i =>
    cases hmap
    exact ⟨_, rfl, rfl, h.lengths, h.room⟩
  | inr link =>
    have hnone : m.toMap.findIndex cmp key = some none := by
      rw [OrderedMap.findIndex, Links.find, hdescend]
      rfl
    obtain ⟨z, m₁, hnew, hnew', hparallel⟩ :=
      nodeNew_of_ok h hfree (fun hnil => hok ⟨hnil, hnone⟩) key value (link.map (·.2))
    dsimp only at hmap ⊢
    rw [hnew'] at hmap
    obtain ⟨links, hfixup, hmap⟩ := Option.bind_eq_some_iff.mp hmap
    cases hmap
    dsimp only at hfixup
    rw [hnew, Option.bind_eq_bind, Option.bind_some]
    dsimp only
    rw [hfixup]
    exact ⟨_, rfl, rfl, hparallel.lengths, hparallel.room⟩

/-- An insertion that gets no memory for the first vector leaves everything as it was, and no other
one leaves the vectors parallel. -/
theorem insertWith_of_fails (h : m.Parallel) (hslot : m.NeedsSlot cmp key)
    (hfail : ∃ c, m.Fails memory c) (assign : ν → ν → ν) (value : ν) :
    ∃ m', m.insertWith cmp assign key value memory = some (m', -1) ∧
      (m.Fails memory .keys → m' = m) ∧ (¬ m.Fails memory .keys → ¬ m'.Parallel) := by
  obtain ⟨hnil, hnone⟩ := hslot
  obtain ⟨d, hdescend, hd⟩ := Option.map_eq_some_iff.mp hnone
  cases d with
  | inl i => cases hd
  | inr link =>
    have hdescend' : descend (fun i => cmp key (m.keys i)) m.toMap.fuel m.links.root none m.links =
      some (.inr link) := hdescend
    rw [insertWith, hdescend', Option.bind_eq_bind, Option.bind_some]
    dsimp only
    rw [nodeNew, hnil]
    dsimp only
    by_cases hkeys : m.Fails memory .keys
    · have hblank : soaPushBlank memory Column.all m = some (m, false) :=
        soaPushBlank_cons_of_fails hkeys
      rw [hblank]
      exact ⟨m, rfl, fun _ => rfl, fun hnot => absurd hkeys hnot⟩
    · obtain ⟨m₁, hpush, -, hcount, -, hold⟩ := pushColumn_of_not_fails (h.room .keys) hkeys
      have hfail' : ∃ c ∈ Column.all.tail, m₁.Fails memory c := by
        obtain ⟨c, hc⟩ := hfail
        have hne : c ≠ .keys := fun heq => hkeys (heq ▸ hc)
        refine ⟨c, List.mem_of_ne_of_mem hne (Column.mem_all c), ?_⟩
        rw [Fails, hold c hne]
        exact hc
      have hroom : ∀ c ∈ Column.all.tail, (m₁.rooms c).count ≤ (m₁.rooms c).capacity := by
        intro c hc
        rw [hold c fun heq => absurd (heq ▸ hc) (by decide)]
        exact h.room c
      obtain ⟨m', hrest, ⟨c, hc, hsame⟩, hothers⟩ := soaPushBlank_of_fails (by decide) hroom hfail'
      have hne : c ≠ .keys := fun heq => absurd (heq ▸ hc) (by decide)
      have hblank : soaPushBlank memory Column.all m = some (m', false) :=
        (soaPushBlank_cons hpush).trans hrest
      rw [hblank]
      refine ⟨m', rfl, fun hnot => absurd hnot hkeys, fun _ hparallel => ?_⟩
      have hlengths := hparallel.lengths c
      rw [hsame, hold c hne, hothers .keys (by decide), hcount, h.lengths c] at hlengths
      omega

/-! ## Calls -/

def Starves (cmp : κ → κ → Ordering) (m : MapVectors κ ν) (memory : Column → Bool) :
    OrderedMap.Call κ ν → Prop
  | .insert key _ | .insertOrAssign key _ => m.NeedsSlot cmp key ∧ ∃ c, m.Fails memory c
  | .erase _ => False
  | .clear => False

omit [Zero κ] [Zero ν] in
theorem erase_fields {n : OrderedMap κ ν} {r : ℕ} (h : m.toMap.erase cmp key = some (n, r)) :
    n.keys = m.keys ∧ n.vals = m.vals ∧ n.size = (m.rooms .keys).count := by
  obtain ⟨i, -, h⟩ := Option.bind_eq_some_iff.mp h
  cases i with
  | none =>
    cases h
    exact ⟨rfl, rfl, rfl⟩
  | some z =>
    obtain ⟨u, -, h⟩ := Option.bind_eq_some_iff.mp h
    obtain ⟨links, -, h⟩ := Option.bind_eq_some_iff.mp h
    cases h
    exact ⟨rfl, rfl, rfl⟩

theorem exec_of_ok (h : m.Parallel) (hfree : ∀ i ∈ m.freeIx, i < (m.rooms .keys).count)
    {call : OrderedMap.Call κ ν} (hok : ¬ m.Starves cmp memory call) {n : OrderedMap κ ν} {r : ℕ}
    (hmap : m.toMap.exec cmp call = some (n, r)) :
    ∃ m', m.exec cmp memory call = some (m', (r : ℤ)) ∧ m'.toMap = n ∧ m'.Parallel := by
  cases call with
  | insert key value =>
    change m.toMap.insertWith cmp (fun old _ => old) key value = some (n, r) at hmap
    exact insertWith_of_ok h hfree (fun hslot c hfails => hok ⟨hslot, c, hfails⟩) hmap
  | insertOrAssign key value =>
    change m.toMap.insertWith cmp (fun _ new => new) key value = some (n, r) at hmap
    exact insertWith_of_ok h hfree (fun hslot c hfails => hok ⟨hslot, c, hfails⟩) hmap
  | erase key =>
    change m.toMap.erase cmp key = some (n, r) at hmap
    obtain ⟨hkeys, hvals, hsize⟩ := erase_fields hmap
    refine ⟨{ m with links := n.links, freeIx := n.freeIx, count := n.count }, ?_, ?_, h.lengths,
      h.room⟩
    · rw [exec, erase, hmap]
      rfl
    · rw [toMap, ← hkeys, ← hvals, ← hsize]
  | clear =>
    cases hmap
    exact ⟨_, rfl, rfl, fun _ => rfl, fun _ => Nat.zero_le _⟩

/-- A call that gets no memory fails, and leaves everything as it was if it gets none for the first
vector. -/
theorem exec_of_starves (h : m.Parallel) {call : OrderedMap.Call κ ν}
    (hstarves : m.Starves cmp memory call) :
    ∃ m', m.exec cmp memory call = some (m', -1) ∧ (m.Fails memory .keys → m' = m) ∧
      (¬ m.Fails memory .keys → ¬ m'.Parallel) := by
  cases call with
  | insert key value => exact insertWith_of_fails h hstarves.1 hstarves.2 (fun old _ => old) value
  | insertOrAssign key value =>
    exact insertWith_of_fails h hstarves.1 hstarves.2 (fun _ new => new) value
  | erase key => exact hstarves.elim
  | clear => exact hstarves.elim

/-! ## Runs -/

/-- The vectors are parallel, the map has the entries that it is to have, and every call that does
not run out of memory returns what it has to. -/
structure Intact (cmp : κ → κ → Ordering) (s : MapVectors κ ν × List (κ × ν)) : Prop where
  parallel : s.1.Parallel
  entries : ∃ l, s.1.toMap.Holds cmp l ∧ l.map s.1.toMap.entry = s.2
  answers : ∀ memory call, ∃ m' r, s.1.exec cmp memory call = some (m', r) ∧
    (r = (Entries.exec cmp s.2 call).2 ∨ r = -1 ∧ s.1.Starves cmp memory call)

def call (cmp : κ → κ → Ordering) (s : MapVectors κ ν × List (κ × ν))
    (x : (Column → Bool) × OrderedMap.Call κ ν) : Option (MapVectors κ ν × List (κ × ν)) :=
  (s.1.exec cmp x.1 x.2).map fun r => (r.1, if r.2 = -1 then s.2 else (Entries.exec cmp s.2 x.2).1)

def FailsAtKeys (cmp : κ → κ → Ordering) (s : MapVectors κ ν × List (κ × ν))
    (x : (Column → Bool) × OrderedMap.Call κ ν) : Prop :=
  s.1.Starves cmp x.1 x.2 → s.1.Fails x.1 .keys

variable [Std.TransCmp cmp] {l : List ℕ}

omit [Zero κ] [Zero ν] [Std.TransCmp cmp] in
theorem free_lt (h : m.toMap.Holds cmp l) : ∀ i ∈ m.freeIx, i < (m.rooms .keys).count := by
  intro i hi
  have hmem := h.slots.mem_iff.mp (List.mem_append_right l hi)
  exact List.mem_range.mp hmem

theorem intact_of (hparallel : m.Parallel) (h : m.toMap.Holds cmp l) :
    Intact cmp (m, l.map m.toMap.entry) := by
  refine ⟨hparallel, ⟨l, h, rfl⟩, fun memory call => ?_⟩
  by_cases hstarves : m.Starves cmp memory call
  · obtain ⟨m', hexec, -⟩ := exec_of_starves hparallel hstarves
    exact ⟨m', -1, hexec, Or.inr ⟨rfl, hstarves⟩⟩
  · obtain ⟨n, l', hmap, -⟩ := OrderedMap.exec_spec h call
    obtain ⟨m', hexec, -⟩ := exec_of_ok hparallel (free_lt h) hstarves hmap
    exact ⟨m', _, hexec, Or.inl rfl⟩

theorem call_intact_iff {s t : MapVectors κ ν × List (κ × ν)}
    {x : (Column → Bool) × OrderedMap.Call κ ν} (hs : Intact cmp s)
    (hcall : call cmp s x = some t) :
    Intact cmp t ↔ FailsAtKeys cmp s x := by
  obtain ⟨m, L⟩ := s
  obtain ⟨l, hl, hentries⟩ := hs.entries
  change l.map m.toMap.entry = L at hentries
  obtain ⟨⟨m', r⟩, hexec, rfl⟩ := Option.map_eq_some_iff.mp hcall
  change m.exec cmp x.1 x.2 = some (m', r) at hexec
  by_cases hstarves : m.Starves cmp x.1 x.2
  · obtain ⟨m₁, hexec', hsame, hbroken⟩ := exec_of_starves hs.parallel hstarves
    cases hexec.symm.trans hexec'
    constructor
    · intro hintact _
      by_contra hkeys
      exact hbroken hkeys hintact.parallel
    · intro hfails
      rw [hsame (hfails hstarves)]
      exact hs
  · obtain ⟨n, l', hmap, hn, hl'⟩ := OrderedMap.exec_spec hl x.2
    obtain ⟨m₁, hexec', hm₁, hparallel⟩ := exec_of_ok hs.parallel (free_lt hl) hstarves hmap
    cases hexec.symm.trans hexec'
    refine ⟨fun _ hstarves' => absurd hstarves' hstarves, fun _ => ?_⟩
    dsimp only
    rw [if_neg (by omega), ← hentries, ← hl']
    subst hm₁
    exact intact_of hparallel hn

theorem intact_create (keys : ℕ → κ) (vals : ℕ → ν) (capacity : Column → ℕ) :
    Intact cmp (create keys vals capacity, []) := by
  have hparallel : (create keys vals capacity).Parallel := ⟨fun _ => rfl, fun _ => Nat.zero_le _⟩
  exact intact_of hparallel (OrderedMap.holds_create keys vals)

/-- In every run of calls the map stays intact, exactly if every insertion that fails does so at the
vector of the keys. -/
theorem intact_iff_failsAtKeys (keys : ℕ → κ) (vals : ℕ → ν) (capacity : Column → ℕ)
    (calls : List ((Column → Bool) × OrderedMap.Call κ ν)) :
    AllStates (call cmp) (Intact cmp) (create keys vals capacity, []) calls ↔
      AllSteps (call cmp) (FailsAtKeys cmp) (create keys vals capacity, []) calls := by
  have hstep : ∀ {s t : MapVectors κ ν × List (κ × ν)} {x}, True → Intact cmp s →
      call cmp s x = some t → True ∧ (Intact cmp t ↔ FailsAtKeys cmp s x) :=
    fun _ hs hcall => ⟨trivial, call_intact_iff hs hcall⟩
  exact allStates_iff_allSteps hstep trivial (intact_create keys vals capacity) calls

/-- An insertion without any memory fails, and the next one works. -/
theorem intact_iff_failsAtKeys_twice :
    AllStates (call compare) (Intact compare)
      (create (fun _ => (0 : ℕ)) (fun _ => (0 : ℕ)) fun _ => 0, [])
      [(fun _ => false, .insert 7 1), (fun _ => true, .insert 7 1)] := by
  rw [intact_iff_failsAtKeys]
  refine fun _ _ => ⟨fun _ => ⟨rfl, rfl⟩, fun _ _ => ⟨?_, trivial⟩⟩
  rintro ⟨-, c, -, hmemory⟩
  cases hmemory

/-- With memory for the keys only, an insertion fails and leaves vectors of two lengths. -/
theorem not_intact_keysOnly : ¬ ∀ (capacity : Column → ℕ)
    (calls : List ((Column → Bool) × OrderedMap.Call ℕ ℕ)),
    AllStates (call compare) (Intact compare)
      (create (fun _ => 0) (fun _ => 0) capacity, []) calls := by
  intro h
  have hstart : Intact compare (create (fun _ => (0 : ℕ)) (fun _ => (0 : ℕ)) fun _ => 0, []) :=
    intact_create _ _ _
  obtain ⟨m, r, hexec, -⟩ := hstart.answers (fun c => decide (c = .keys)) (.insert 7 1)
  have hcall : call compare (create (fun _ => 0) (fun _ => 0) fun _ => 0, [])
      (fun c => decide (c = .keys), .insert 7 1) = some (m, if r = -1 then [] else [(7, 1)]) := by
    rw [call, hexec]
    rfl
  have hintact := (h (fun _ => 0) [(fun c => decide (c = .keys), .insert 7 1)]).2 _ hcall
  have hkeys := (call_intact_iff hstart hcall).mp hintact ⟨⟨rfl, rfl⟩, .vals, rfl, rfl⟩
  exact absurd hkeys.2 (by decide)

end MapVectors

end RetroRocket
