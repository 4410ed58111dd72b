import RetroRocket.BasicMemory
import RetroRocket.BuddyShare
import RetroRocket.GrantRanges

/-!
# Grants and blocks

The blocks that a program has allocated and not released, against the tree of its grants. They are
the same as long as no handle but that of a grant is reallocated, none to size 0 or to a size whose
order is not a shift below 64, and the node of each new grant is allocated.
-/

namespace RetroRocket

/-- The memory of a program with the blocks that it holds, and the blocks that other parts of the
interpreter hold in the same heap. -/
structure TrackedMemory where
  memory : BasicMemory
  blocks : List (ℕ × ℕ)
  others : List (ℕ × ℕ)

namespace BasicMemory

variable {m : BasicMemory} {blocks others : List (ℕ × ℕ)} {p n base : ℕ} {pools : List ℕ}

def nodeBlocks (m : BasicMemory) : List (ℕ × ℕ) := m.grants.nodes.map fun node => (node, nodeSize)

def session (m : BasicMemory) (blocks others : List (ℕ × ℕ)) : BuddySession :=
  ⟨m.heap, blocks ++ (m.nodeBlocks ++ others)⟩

def granted (block : ℕ × ℕ) : ℕ × ℕ := (block.1, block.1 + block.2 - 1)

def Grants (m : BasicMemory) (blocks : List (ℕ × ℕ)) : Prop :=
  ∃ l, m.grants.Holds l ∧ (l.map m.grants.range).Perm (blocks.map granted)

def Served (m : BasicMemory) (pools : List ℕ) : Prop :=
  ∃ node heap, buddyMalloc m.heap nodeSize pools = some (node, heap) ∧ node ≠ 0

/-! ## The tree and its nodes -/

theorem validBase_iff (h : m.Grants blocks) :
    ∃ b, m.grants.validBase base = some b ∧ (b = true ↔ ∃ n, (base, n) ∈ blocks) := by
  obtain ⟨l, hl, hperm⟩ := h
  obtain ⟨b, hb, hiff⟩ := MemoryGrants.validBase_spec hl base
  refine ⟨b, hb, hiff.trans ⟨?_, ?_⟩⟩
  · rintro ⟨r, hr, rfl⟩
    obtain ⟨block, hblock, rfl⟩ := List.mem_map.mp (hperm.mem_iff.mp hr)
    exact ⟨block.2, hblock⟩
  · rintro ⟨n, hn⟩
    exact ⟨_, hperm.mem_iff.mpr (List.mem_map_of_mem hn), rfl⟩

theorem add_nodes {g g' : MemoryGrants} {length node : ℕ}
    (h : g.add base length (some node) = some (g', true)) : g'.nodes = node :: g.nodes := by
  unfold MemoryGrants.add at h
  split at h
  · cases h
  · obtain ⟨r, -, h⟩ := Option.bind_eq_some_iff.mp h
    cases r with
    | inl i => cases h
    | inr link =>
      obtain ⟨links, -, h⟩ := Option.bind_eq_some_iff.mp h
      cases h
      rfl

theorem grantsAdd_spec (h : (m.session ((p, n) :: blocks) others).Inv) (hgrants : m.Grants blocks)
    (hn : 0 < n) (hpos : ∀ block ∈ blocks, 0 < block.2) (hpools : m.heap.FreshPools pools)
    (hserved : m.Served pools) :
    ∃ m', m.grantsAdd p n pools = some m' ∧ (m'.session ((p, n) :: blocks) others).Inv ∧
      m'.Grants ((p, n) :: blocks) := by
  have hmem : (p, n) ∈ (m.session ((p, n) :: blocks) others).live := List.mem_cons_self
  have hp : 24 ≤ p := (h.large _ hmem).1
  have hend : p + n ≤ 2 ^ 64 := (h.payload_le hmem).trans (h.finish_le hmem)
  obtain ⟨node, heap, hmalloc, hnew, hinv⟩ := h.malloc (n := nodeSize) hpools
  obtain ⟨node', heap', hmalloc', hnode⟩ := hserved
  obtain ⟨rfl, rfl⟩ : node = node' ∧ heap = heap' := by
    simpa using hmalloc.symm.trans hmalloc'
  rw [if_neg hnode] at hinv
  have hfresh : node ∉ m.grants.nodes := by
    intro hin
    apply hnew.resolve_left hnode (node, nodeSize) _ rfl
    exact List.mem_append_right _ (List.mem_append_left _ (List.mem_map_of_mem hin))
  obtain ⟨l, hl, hperm⟩ := hgrants
  have hdisjoint : ∀ i ∈ l, p + n ≤ m.grants.base i ∨ m.grants.last i < p := by
    intro i hi
    obtain ⟨block, hblock, heq⟩ := List.mem_map.mp (hperm.mem_iff.mp (List.mem_map_of_mem hi))
    have hap := List.rel_of_pairwise_cons h.apart (List.mem_append_left _ hblock)
    have hsize := hpos block hblock
    have hbase : block.1 = m.grants.base i := congrArg Prod.fst heq
    have hlast : block.1 + block.2 - 1 = m.grants.last i := congrArg Prod.snd heq
    dsimp only at hap
    omega
  obtain ⟨g, l', hadd, hholds, hranges⟩ :=
    MemoryGrants.add_spec hl hfresh (by omega) hn hend hdisjoint
  refine ⟨⟨heap, g⟩, ?_, ?_, l', hholds, hranges.trans (hperm.cons _)⟩
  · unfold grantsAdd
    rw [if_neg (by omega), hmalloc', Option.bind_eq_bind, Option.bind_some]
    dsimp only
    rw [if_neg hnode, hadd]
    rfl
  · unfold session nodeBlocks
    dsimp only
    rw [add_nodes hadd]
    exact hinv.perm List.perm_middle.symm

theorem grantsRemove_spec {blocks' : List (ℕ × ℕ)} (h : (m.session blocks others).Inv)
    (hgrants : m.Grants blocks') (base : ℕ) :
    ∃ m', m.grantsRemove base = some m' ∧ m.heap.SameRegions m'.heap ∧
      (m'.session blocks others).Inv ∧ m'.Grants (blocks'.filter (·.1 ≠ base)) := by
  obtain ⟨l, hl, hperm⟩ := hgrants
  obtain ⟨g, b, l', hremove, hholds, hmap⟩ := MemoryGrants.remove_spec hl base
  have hranges : (l'.map g.range).Perm ((blocks'.filter (·.1 ≠ base)).map granted) := by
    rw [hmap]
    have hfilter := hperm.filter fun r => decide (r.1 ≠ base)
    rw [List.filter_map (f := granted)] at hfilter
    exact hfilter
  have hcode := hremove
  unfold grantsRemove
  by_cases hzero : base = 0
  · rw [if_pos hzero]
    unfold MemoryGrants.remove at hcode
    rw [if_pos hzero] at hcode
    cases hcode
    exact ⟨m, rfl, BuddyAllocator.SameRegions.refl m.heap, h, l', hholds, hranges⟩
  · obtain ⟨t, ht, -⟩ := hl.tree.shape
    unfold MemoryGrants.remove at hcode
    rw [if_neg hzero, Links.find_spec ht (hl.graded base) hl.length_lt, Option.bind_eq_bind,
      Option.bind_some] at hcode
    rw [if_neg hzero, Links.find_spec ht (hl.graded base) hl.length_lt, Option.bind_eq_bind,
      Option.bind_some]
    cases hfind : l.find? fun i => m.grants.compareBase base i == .eq with
    | none =>
      rw [hfind] at hcode
      cases hcode
      exact ⟨m, rfl, BuddyAllocator.SameRegions.refl m.heap, h, l', hholds, hranges⟩
    | some z =>
      rw [hfind] at hcode
      obtain ⟨r, -, hcode⟩ := Option.bind_eq_some_iff.mp hcode
      obtain ⟨links, -, hcode⟩ := Option.bind_eq_some_iff.mp hcode
      have hnodes : m.grants.nodes.erase z = g.nodes := by
        cases hcode
        rfl
      have hz : z ∈ m.grants.nodes := hl.nodes.mem_iff.mpr (List.mem_of_find?_eq_some hfind)
      have hown : (z, nodeSize) ∈ m.nodeBlocks := List.mem_map_of_mem hz
      obtain ⟨heap, hfree, hinv⟩ :=
        (h.perm (List.perm_append_comm_assoc _ _ _)).free_own (Or.inr ⟨nodeSize, hown⟩)
      refine ⟨⟨heap, g⟩, ?_, BuddyAllocator.buddyFree_sameRegions hfree, ?_, l', hholds, hranges⟩
      · dsimp only
        rw [hremove, Option.bind_eq_bind, Option.bind_some, hfree]
        rfl
      · have hkept : m.nodeBlocks.filter (·.1 ≠ z) = nodeBlocks ⟨heap, g⟩ := by
          have hnodup : m.grants.nodes.Nodup := hl.nodes.nodup_iff.mpr hl.tree.nodup
          unfold nodeBlocks
          dsimp only
          rw [← hnodes, hnodup.erase_eq_filter, List.filter_map]
          congr 1
          apply List.filter_congr
          intro i _
          exact (bne_iff_ne.trans decide_eq_true_iff.symm |> Bool.eq_iff_iff.mpr).symm
        rw [hkept] at hinv
        exact hinv.perm (List.perm_append_comm_assoc _ _ _)

/-! ## Statements -/

def blocksAfter (blocks : List (ℕ × ℕ)) : Statement → Except String ℕ → List (ℕ × ℕ)
  | .memalloc size .., .ok p => (p, size) :: blocks
  | .memrealloc handle size .., .ok p => (p, size) :: blocks.filter (·.1 ≠ handle)
  | .memrealloc handle size .., .error _ =>
    if size = 0 then blocks.filter (·.1 ≠ handle) else blocks
  | .memrelease ptr, .ok _ => blocks.filter (·.1 ≠ ptr)
  | _, .error _ => blocks

structure Mirrored (m : BasicMemory) (blocks others : List (ℕ × ℕ)) : Prop where
  session : (m.session blocks others).Inv
  grants : m.Grants blocks
  pos : ∀ block ∈ blocks, 0 < block.2

variable {nodePools : List ℕ} {handle ptr : ℕ}

theorem pos_filter (h : ∀ block ∈ blocks, 0 < block.2) (handle : ℕ) :
    ∀ block ∈ blocks.filter (·.1 ≠ handle), 0 < block.2 :=
  fun block hblock => h block (List.mem_of_mem_filter hblock)

theorem Grants.filter_eq_self (h : m.Grants blocks) : blocks.filter (·.1 ≠ 0) = blocks := by
  obtain ⟨l, hl, hperm⟩ := h
  rw [List.filter_eq_self]
  intro block hblock
  obtain ⟨i, hi, heq⟩ := List.mem_map.mp (hperm.mem_iff.mpr (List.mem_map_of_mem hblock))
  have hbase : m.grants.base i = block.1 := congrArg Prod.fst heq
  have hvalid := (hl.valid i hi).1
  exact decide_eq_true (by omega)

theorem memalloc_spec (h : m.Mirrored blocks others)
    (hpools : m.heap.FreshPools (pools ++ nodePools))
    (hserved : ∀ p heap, buddyMalloc m.heap n pools = some (p, heap) → p ≠ 0 →
      Served ⟨heap, m.grants⟩ nodePools) :
    ∃ m' r, m.memalloc n pools nodePools = some (m', r) ∧
      m'.Mirrored (blocksAfter blocks (.memalloc n pools nodePools) r) others := by
  obtain ⟨p, heap, hmalloc, -, hinv⟩ := h.session.malloc (n := n) hpools.left
  have hrest := BuddyAllocator.buddyMalloc_freshPools hpools hmalloc
  unfold memalloc
  change ∃ m' r, ((buddyMalloc m.heap n pools).bind fun _ => _) = _ ∧ _
  have hmalloc' : buddyMalloc m.heap n pools = some (p, heap) := hmalloc
  rw [hmalloc', Option.bind_some]
  dsimp only
  by_cases hp : p = 0
  · rw [if_pos hp] at hinv ⊢
    exact ⟨_, _, rfl, hinv, h.grants, h.pos⟩
  · rw [if_neg hp] at hinv ⊢
    have hn : 0 < n := by
      apply Nat.pos_of_ne_zero
      rintro rfl
      cases hmalloc
      exact hp rfl
    have hserved := hserved p heap hmalloc' hp
    obtain ⟨m', hadd, hsession, hgrants⟩ := grantsAdd_spec (m := ⟨heap, m.grants⟩) hinv h.grants hn
      h.pos hrest hserved
    rw [hadd]
    exact ⟨m', .ok p, rfl, hsession, hgrants, List.forall_mem_cons.mpr ⟨hn, h.pos⟩⟩

theorem memrealloc_spec (h : m.Mirrored blocks others)
    (hpools : m.heap.FreshPools (pools ++ nodePools))
    (hhandle : handle ≠ 0 → m.grants.validBase handle = some true ∧ n ≠ 0 ∧ n + 24 ≤ 2 ^ 63)
    (hserved : ∀ p heap, buddyRealloc m.heap handle n pools = some (p, heap) → p ≠ 0 →
      ∀ m', grantsRemove ⟨heap, m.grants⟩ handle = some m' → m'.Served nodePools) :
    ∃ m' r, m.memrealloc handle n pools nodePools = some (m', r) ∧
      m'.Mirrored (blocksAfter blocks (.memrealloc handle n pools nodePools) r) others := by
  have hreal : ∃ p heap, buddyRealloc m.heap handle n pools = some (p, heap) ∧
      (p ≠ 0 → 0 < n) ∧
      (session ⟨heap, m.grants⟩ (if p ≠ 0 then (p, n) :: blocks.filter (·.1 ≠ handle) else
        if n = 0 then blocks.filter (·.1 ≠ handle) else blocks) others).Inv := by
    by_cases hzero : handle = 0
    · subst hzero
      obtain ⟨p, heap, hmalloc, -, hinv⟩ := h.session.malloc (n := n) hpools.left
      refine ⟨p, heap, (if_pos rfl).trans hmalloc, fun hp => ?_, ?_⟩
      · apply Nat.pos_of_ne_zero
        rintro rfl
        cases hmalloc
        exact hp rfl
      · rw [h.grants.filter_eq_self, ite_self, ite_not]
        split at hinv
        · next hp =>
          rw [if_pos hp]
          exact hinv
        · next hp =>
          rw [if_neg hp]
          exact hinv
    · obtain ⟨hvalid, hn, hbound⟩ := hhandle hzero
      obtain ⟨b, hb, hiff⟩ := @validBase_iff _ _ handle h.grants
      cases hvalid.symm.trans hb
      have hown := hiff.mp rfl
      obtain ⟨p, heap, hrealloc, hinv⟩ := h.session.realloc_own (Or.inr hown) hbound hpools.left
      exact ⟨p, heap, hrealloc, fun _ => Nat.pos_of_ne_zero hn, hinv⟩
  obtain ⟨p, heap, hrealloc, hn, hinv⟩ := hreal
  have hrest := BuddyAllocator.buddyRealloc_freshPools hpools hrealloc
  unfold memrealloc
  change ∃ m' r, ((buddyRealloc m.heap handle n pools).bind fun _ => _) = _ ∧ _
  rw [hrealloc, Option.bind_some]
  dsimp only
  by_cases hp : p = 0
  · have hsame : (if n = 0 then blocks.filter (·.1 ≠ handle) else blocks) = blocks := by
      split
      · next hzero =>
        have hnull : handle = 0 := by
          by_contra hne
          exact (hhandle hne).2.1 hzero
        rw [hnull]
        exact h.grants.filter_eq_self
      · rfl
    rw [if_neg (not_not.mpr hp), hsame] at hinv
    rw [if_pos hp]
    refine ⟨_, _, rfl, ?_⟩
    change Mirrored _ (if n = 0 then blocks.filter (·.1 ≠ handle) else blocks) others
    rw [hsame]
    exact ⟨hinv, h.grants, h.pos⟩
  · rw [if_pos hp] at hinv
    rw [if_neg hp]
    obtain ⟨m', hremove, hregions, hsession, hgrants⟩ :=
      grantsRemove_spec (m := ⟨heap, m.grants⟩) hinv h.grants handle
    obtain ⟨m'', hadd, hsession', hgrants'⟩ := grantsAdd_spec hsession hgrants (hn hp)
      (pos_filter h.pos handle) (hregions.freshPools hrest) (hserved p heap hrealloc hp m' hremove)
    rw [hremove, Option.bind_eq_bind, Option.bind_some, hadd]
    exact ⟨m'', .ok p, rfl, hsession', hgrants',
      List.forall_mem_cons.mpr ⟨hn hp, pos_filter h.pos handle⟩⟩

theorem memrelease_spec (h : m.Mirrored blocks others) (ptr : ℕ) :
    ∃ m' r, m.memrelease ptr = some (m', r) ∧
      m'.Mirrored (blocksAfter blocks (.memrelease ptr) r) others := by
  obtain ⟨b, hb, hiff⟩ := @validBase_iff _ _ ptr h.grants
  unfold memrelease
  rw [hb, Option.bind_eq_bind, Option.bind_some]
  cases b with
  | false => exact ⟨m, _, rfl, h⟩
  | true =>
    obtain ⟨heap, hfree, hinv⟩ := h.session.free_own (Or.inr (hiff.mp rfl))
    obtain ⟨m', hremove, -, hsession, hgrants⟩ :=
      grantsRemove_spec (m := ⟨heap, m.grants⟩) hinv h.grants ptr
    have hfree' : buddyFree m.heap ptr = some heap := hfree
    refine ⟨m', .ok 0, ?_, hsession, hgrants, pos_filter h.pos ptr⟩
    rw [if_pos rfl, hfree', Option.bind_eq_bind, Option.bind_some, hremove]
    rfl

end BasicMemory

namespace TrackedMemory

/-! ## Runs -/

inductive Event where
  | statement (c : BasicMemory.Statement)
  | other (c : BuddyCall)

def call (t : TrackedMemory) : Event → Option TrackedMemory
  | .statement c => do
    let (m, r) ← t.memory.exec c
    some ⟨m, BasicMemory.blocksAfter t.blocks c r, t.others⟩
  | .other c => do
    let u ← BuddySession.call ⟨t.memory.heap, t.others⟩ c
    some ⟨⟨u.heap, t.memory.grants⟩, t.blocks, u.live⟩

/-- A program may pass any 64-bit words. What `kmalloc_aligned` hands out is not in use, and the
other parts of the interpreter free and reallocate only what they hold. -/
def Possible (t : TrackedMemory) : Event → Prop
  | .statement (.memalloc size pools nodePools) =>
    size < 2 ^ 64 ∧ t.memory.heap.FreshPools (pools ++ nodePools)
  | .statement (.memrealloc handle size pools nodePools) =>
    handle < 2 ^ 64 ∧ size < 2 ^ 64 ∧ t.memory.heap.FreshPools (pools ++ nodePools)
  | .statement (.memrelease ptr) => ptr < 2 ^ 64
  | .other c => BuddySession.Allowed ⟨t.memory.heap, t.others⟩ c ∧ c.Bounded

/-- A handle is null or that of a grant, a handle that is not null gets a size whose order is a
shift below 64, and when there is memory for a block there is memory for the node of its grant. -/
def Meets (t : TrackedMemory) : Event → Prop
  | .statement (.memalloc size pools nodePools) =>
    ∀ p heap, buddyMalloc t.memory.heap size pools = some (p, heap) → p ≠ 0 →
      BasicMemory.Served ⟨heap, t.memory.grants⟩ nodePools
  | .statement (.memrealloc handle size pools nodePools) =>
    (handle ≠ 0 → t.memory.grants.validBase handle = some true ∧ size ≠ 0 ∧ size + 24 ≤ 2 ^ 63) ∧
      ∀ p heap, buddyRealloc t.memory.heap handle size pools = some (p, heap) → p ≠ 0 →
        ∀ m, BasicMemory.grantsRemove ⟨heap, t.memory.grants⟩ handle = some m → m.Served nodePools
  | .statement (.memrelease _) => True
  | .other _ => True

/-- The tree holds one grant for each block, the blocks are live in the heap, and each has room for
what was requested last. -/
structure Mirrors (t : TrackedMemory) : Prop where
  grants : t.memory.Grants t.blocks
  live : (t.memory.session t.blocks t.others).Partition
  inside : ∀ block ∈ t.blocks, 0 < block.2 ∧ (t.memory.heap.cell block.1).start < block.1 ∧
    block.1 + block.2 ≤ (t.memory.heap.cell block.1).finish

def start (s : BuddyAllocator) (minOrder maxOrder growOrder : ℕ) : TrackedMemory :=
  ⟨⟨buddyInit s minOrder maxOrder growOrder, MemoryGrants.init⟩, [], []⟩

variable {t u : TrackedMemory}

theorem mirrors_of_mirrored (h : t.memory.Mirrored t.blocks t.others) : t.Mirrors where
  grants := h.grants
  live := h.session.partition
  inside block hblock := by
    have hmem : block ∈ (t.memory.session t.blocks t.others).live := List.mem_append_left _ hblock
    have hlarge := (h.session.large block hmem).1
    refine ⟨h.pos block hblock, ?_, h.session.payload_le hmem⟩
    change block.1 - 24 < block.1
    omega

theorem call_spec (h : t.memory.Mirrored t.blocks t.others) {e : Event} (hp : Possible t e)
    (hm : Meets t e) : ∃ u, call t e = some u ∧ u.memory.Mirrored u.blocks u.others := by
  cases e with
  | statement c =>
    have hexec : ∃ m r, t.memory.exec c = some (m, r) ∧
        m.Mirrored (BasicMemory.blocksAfter t.blocks c r) t.others := by
      cases c with
      | memalloc size pools nodePools => exact BasicMemory.memalloc_spec h hp.2 hm
      | memrealloc handle size pools nodePools =>
        exact BasicMemory.memrealloc_spec h hp.2.2 hm.1 hm.2
      | memrelease ptr => exact BasicMemory.memrelease_spec h ptr
    obtain ⟨m, r, hexec, hmirrored⟩ := hexec
    refine ⟨⟨m, BasicMemory.blocksAfter t.blocks c r, t.others⟩, ?_, hmirrored⟩
    unfold call
    dsimp only
    rw [hexec]
    rfl
  | other c =>
    have hperm : (t.blocks ++ (t.memory.nodeBlocks ++ t.others)).Perm
        (t.others ++ (t.blocks ++ t.memory.nodeBlocks)) := by
      rw [← List.append_assoc t.blocks]
      exact List.perm_append_comm
    obtain ⟨u, hcall, hinv⟩ := (h.session.perm hperm).call_own hp.1 hp.2
    refine ⟨⟨⟨u.heap, t.memory.grants⟩, t.blocks, u.live⟩, ?_, ?_, h.grants, h.pos⟩
    · have hcall' : BuddySession.call ⟨t.memory.heap, t.others⟩ c = some u := hcall
      unfold call
      dsimp only
      rw [hcall']
      rfl
    · have hperm' : (u.live ++ (t.blocks ++ t.memory.nodeBlocks)).Perm
          (t.blocks ++ (t.memory.nodeBlocks ++ u.live)) := by
        rw [← List.append_assoc t.blocks]
        exact List.perm_append_comm
      exact hinv.perm hperm'

/-- In every run whose steps meet the condition the grants are those of the blocks that the program
holds, and only such blocks are reallocated or freed. -/
theorem mirrors_of_run (s : BuddyAllocator) {minOrder maxOrder growOrder : ℕ}
    (hok : BuddyOrders minOrder maxOrder growOrder)
    (hrun : Run call (fun t e => Possible t e ∧ Meets t e)
      (start s minOrder maxOrder growOrder) t) :
    t.Mirrors ∧ ∀ e, Possible t e → Meets t e → (∃ u, call t e = some u ∧ u.Mirrors) ∧
      ∀ c, e = .statement c → ∀ p ∈ t.memory.handedOver c, ∃ n, (p, n) ∈ t.blocks := by
  have hmirrored : t.memory.Mirrored t.blocks t.others := by
    apply hrun.invariant (P := fun t => t.memory.Mirrored t.blocks t.others)
    · refine ⟨BuddySession.init_inv s hok, ⟨[], MemoryGrants.holds_init, List.Perm.refl _⟩, ?_⟩
      intro block hblock
      cases hblock
    · exact fun h he => call_spec h he.1 he.2
  refine ⟨mirrors_of_mirrored hmirrored, fun e hp hm => ⟨?_, ?_⟩⟩
  · obtain ⟨u, hcall, hu⟩ := call_spec hmirrored hp hm
    exact ⟨u, hcall, mirrors_of_mirrored hu⟩
  · rintro c rfl p hmem
    have hvalid : t.memory.grants.validBase p = some true := by
      cases c with
      | memalloc size pools nodePools => cases hmem
      | memrealloc handle size pools nodePools =>
        unfold BasicMemory.handedOver at hmem
        dsimp only at hmem
        split at hmem
        · cases hmem
        · next hne =>
          obtain rfl := List.mem_singleton.mp hmem
          exact (hm.1 hne).1
      | memrelease ptr =>
        unfold BasicMemory.handedOver at hmem
        dsimp only at hmem
        split at hmem
        · next hvalid =>
          obtain rfl := List.mem_singleton.mp hmem
          exact hvalid
        · cases hmem
    obtain ⟨b, hb, hiff⟩ := @BasicMemory.validBase_iff _ _ p hmirrored.grants
    cases hvalid.symm.trans hb
    exact hiff.mp rfl

def oneGrant : TrackedMemory :=
  Run.next call (start BuddySession.noAllocator 6 12 12) (.statement (.memalloc 100 [4096] []))

theorem oneGrant_possible :
    Possible (start BuddySession.noAllocator 6 12 12) (.statement (.memalloc 100 [4096] [])) := by
  refine ⟨by decide, ⟨fun p hp => ?_, List.pairwise_singleton _ _⟩⟩
  obtain rfl := List.mem_singleton.mp hp
  exact ⟨by decide, by decide, nofun⟩

theorem oneGrant_meets :
    Meets (start BuddySession.noAllocator 6 12 12) (.statement (.memalloc 100 [4096] [])) := by
  intro p heap hmalloc hp
  have hnode : ((buddyMalloc (start BuddySession.noAllocator 6 12 12).memory.heap 100 [4096]).bind
      fun r => (buddyMalloc r.2 BasicMemory.nodeSize []).map fun r => decide (r.1 ≠ 0)) =
        some true := by
    decide +kernel
  rw [hmalloc, Option.bind_some] at hnode
  obtain ⟨⟨node, heap'⟩, hmalloc', hne⟩ := Option.map_eq_some_iff.mp hnode
  exact ⟨node, heap', hmalloc', of_decide_eq_true hne⟩

theorem oneGrant_call :
    (call (start BuddySession.noAllocator 6 12 12)
      (.statement (.memalloc 100 [4096] []))).isSome := by
  decide +kernel

def oneReleased : TrackedMemory := Run.next call oneGrant (.statement (.memrelease 4120))

/-- A block is allocated, granted and released. -/
theorem mirrors_of_run_oneReleased : oneGrant.blocks = [(4120, 100)] ∧ oneReleased.Mirrors ∧
    oneReleased.blocks = [] := by
  have hrun : Run call (fun t e => Possible t e ∧ Meets t e) _ oneGrant :=
    Run.refl.next_step (And.intro oneGrant_possible oneGrant_meets) oneGrant_call
  have hreleased : Run call (fun t e => Possible t e ∧ Meets t e) _ oneReleased :=
    Run.next_step hrun ⟨(by decide : 4120 < 2 ^ 64), trivial⟩ (by decide +kernel)
  refine ⟨by decide +kernel, (mirrors_of_run BuddySession.noAllocator
    ⟨by decide, by decide, by decide, by decide⟩ hreleased).1, ?_⟩
  decide +kernel

/-- Reallocated to size 0, the block is freed and its grant stays. -/
theorem emptied_not_mirrors :
    ∃ t, Run call Possible (start BuddySession.noAllocator 6 12 12) t ∧ ¬ t.Mirrors := by
  have hrun : Run call Possible _ oneGrant := Run.refl.next_step oneGrant_possible oneGrant_call
  have hpossible : Possible oneGrant (.statement (.memrealloc 4120 0 [] [])) :=
    ⟨by decide, by decide, nofun, List.Pairwise.nil⟩
  have hrun' := hrun.next_step hpossible (by decide +kernel)
  refine ⟨_, hrun', fun h => ?_⟩
  obtain ⟨l, hl, hperm⟩ := h.grants
  have hnone := hl.nodes.length_eq.trans ((List.length_map _).symm.trans hperm.length_eq)
  revert hnone
  decide +kernel

end TrackedMemory

end RetroRocket
