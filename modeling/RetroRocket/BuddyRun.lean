import RetroRocket.BuddyBlocks

/-!
# Runs of the buddy allocator

A session is an allocator with the pointers it has handed out and the sizes requested for them. The
client may allocate, free and reallocate what is live, with any pools coming from `kmalloc_aligned`,
and write to its payloads. In every run the free blocks and the live blocks tile the regions.
-/

namespace RetroRocket

structure BuddySession where
  heap : BuddyAllocator
  live : List (ℕ × ℕ)

inductive BuddyCall where
  | malloc (size : ℕ) (pools : List ℕ)
  | free (ptr : ℕ)
  | realloc (ptr size : ℕ) (pools : List ℕ)
  | write (a : ℕ) (header : BuddyHeader)

def BuddyCall.Bounded : BuddyCall → Prop
  | .realloc _ size _ => size + 24 ≤ 2 ^ 63
  | _ => True

namespace BuddyAllocator

def cell (s : BuddyAllocator) (ptr : ℕ) : Cell where
  region := (s.mem (ptr - 24)).region
  start := ptr - 24
  order := (s.mem (ptr - 24)).order

end BuddyAllocator

namespace BuddySession

def Live (s : BuddySession) (ptr : ℕ) : Prop := ∃ n, (ptr, n) ∈ s.live

/-- What a client may call. It writes only where the header read at `a` reaches into a payload. -/
def Allowed (s : BuddySession) : BuddyCall → Prop
  | .malloc size pools => size < 2 ^ 63 ∧ s.heap.FreshPools pools
  | .free ptr => ptr = 0 ∨ s.Live ptr
  | .realloc ptr size pools => (ptr = 0 ∨ s.Live ptr) ∧ size < 2 ^ 63 ∧ s.heap.FreshPools pools
  | .write a _ => ∃ p ∈ s.live, p.1 < a + 24 ∧ a < p.1 + p.2

def call (s : BuddySession) : BuddyCall → Option BuddySession
  | .malloc size pools => do
    let (ptr, heap) ← buddyMalloc s.heap size pools
    some ⟨heap, if ptr = 0 then s.live else (ptr, size) :: s.live⟩
  | .free ptr => do
    let heap ← buddyFree s.heap ptr
    some ⟨heap, s.live.filter (·.1 ≠ ptr)⟩
  | .realloc ptr size pools => do
    let (new, heap) ← buddyRealloc s.heap ptr size pools
    let kept := s.live.filter (·.1 ≠ ptr)
    some ⟨heap, if new ≠ 0 then (new, size) :: kept else if size = 0 then kept else s.live⟩
  | .write a header => some ⟨s.heap.store a header, s.live⟩

/-- After `buddy_init`, on any memory. -/
def init (s : BuddyAllocator) (minOrder maxOrder growOrder : ℕ) : BuddySession :=
  ⟨buddyInit s minOrder maxOrder growOrder, []⟩

inductive Run (s : BuddySession) : BuddySession → Prop
  | refl : Run s s
  | step {t u : BuddySession} {c : BuddyCall} : Run s t → t.Allowed c → t.call c = some u → Run s u

/-- The blocks on the free lists, each on one list once, and the live blocks tile the regions, and
the payload of a live block is large enough. -/
structure Partition (s : BuddySession) : Prop where
  tiled : ∃ free : List Cell,
    (∀ i < s.heap.regions, ∀ k,
      Linked 0 s.heap.next ((s.heap.region i).freeLists k) (starts i k free) 0) ∧
    (free.map Cell.start).Nodup ∧
    Tiling s.heap.regions s.heap.pool s.heap.size (free ++ s.live.map fun p => s.heap.cell p.1)
  large : ∀ p ∈ s.live, 24 ≤ p.1 ∧ p.2 ≤ 2 ^ (s.heap.cell p.1).order - 24

/-! ## The invariant -/

structure Inv (s : BuddySession) : Prop where
  tiled : ∃ F, s.heap.Tiled F (s.live.map fun p => s.heap.cell p.1)
  large : ∀ p ∈ s.live, 24 ≤ p.1 ∧ p.2 + 24 ≤ 2 ^ (s.heap.cell p.1).order

variable {s t u : BuddySession} {heap : BuddyAllocator} {live : List (ℕ × ℕ)} {F : List Cell}
  {ptr n i b k : ℕ} {pools : List ℕ}

theorem Inv.partition (h : s.Inv) : s.Partition := by
  obtain ⟨F, htiled⟩ := h.tiled
  have hnodup := htiled.tiling.starts_nodup
  rw [List.map_append, List.nodup_append] at hnodup
  refine ⟨⟨F, htiled.linked, hnodup.1, htiled.tiling⟩, fun p hp => ?_⟩
  obtain ⟨hlow, hsize⟩ := h.large p hp
  exact ⟨hlow, Nat.le_sub_of_add_le hsize⟩

theorem perm_cons_filter {p : ℕ × ℕ} (hnodup : live.Pairwise fun p q => p.1 ≠ q.1) (hp : p ∈ live) :
    live.Perm (p :: live.filter (·.1 ≠ p.1)) := by
  induction live with
  | nil => cases hp
  | cons q live ih =>
    obtain ⟨hq, hrest⟩ := List.pairwise_cons.mp hnodup
    rcases List.mem_cons.mp hp with rfl | hp
    · have hall : live.filter (·.1 ≠ p.1) = live := by
        rw [List.filter_eq_self]
        intro q hmem
        exact decide_eq_true (hq q hmem).symm
      rw [List.filter_cons_of_neg (by simp), hall]
    · rw [List.filter_cons_of_pos (by simpa using hq p hp)]
      exact ((ih hrest hp).cons q).trans (List.Perm.swap _ _ _)

theorem Inv.distinct (h : s.Inv) : s.live.Pairwise fun p q => p.1 ≠ q.1 := by
  obtain ⟨F, htiled⟩ := h.tiled
  have hap := (List.pairwise_append.mp htiled.tiling.apart).2.1
  rw [List.pairwise_map] at hap
  refine hap.imp fun {p q} hpq heq => hpq.start_ne ?_
  rw [heq]

theorem Inv.focus (h : s.Inv) (hp : (ptr, n) ∈ s.live) :
    ∃ F, s.heap.Tiled F
      (s.heap.cell ptr :: (s.live.filter (·.1 ≠ ptr)).map fun p => s.heap.cell p.1) := by
  obtain ⟨F, htiled⟩ := h.tiled
  have hperm := (perm_cons_filter h.distinct hp).map fun p => s.heap.cell p.1
  exact ⟨F, htiled.retile (htiled.tiling.perm (hperm.append_left F))⟩

theorem inv_of_taken (htiled : heap.Tiled F (⟨i, b, k⟩ :: live.map fun p => s.heap.cell p.1))
    (htaken : s.heap.Taken heap i b k) (hsize : n + 24 ≤ 2 ^ k)
    (hlarge : ∀ p ∈ live, 24 ≤ p.1 ∧ p.2 + 24 ≤ 2 ^ (s.heap.cell p.1).order) :
    (⟨heap, (b + 24, n) :: live⟩ : BuddySession).Inv := by
  have hcell : heap.cell (b + 24) = ⟨i, b, k⟩ := by
    unfold BuddyAllocator.cell
    rw [Nat.add_sub_cancel, htaken.order, htaken.region]
  have hother : ∀ p ∈ live, heap.cell p.1 = s.heap.cell p.1 := by
    intro p hp
    have hap := (List.pairwise_append.mp htiled.tiling.apart).2.1
    have hne := (List.rel_of_pairwise_cons hap (List.mem_map_of_mem hp)).start_ne
    obtain ⟨horder, hregion⟩ := htaken.other (p.1 - 24) (Ne.symm hne)
    unfold BuddyAllocator.cell
    rw [horder, hregion]
  refine ⟨⟨F, ?_⟩, ?_⟩
  · rw [List.map_cons, hcell, List.map_congr_left hother]
    exact htiled
  · rw [List.forall_mem_cons, hcell]
    refine ⟨⟨Nat.le_add_left _ _, hsize⟩, fun p hp => ?_⟩
    dsimp only
    rw [hother p hp]
    exact hlarge p hp

theorem cells_congr (h : s.heap.SameOrders heap) (live : List (ℕ × ℕ)) :
    (live.map fun p => heap.cell p.1) = live.map fun p => s.heap.cell p.1 := by
  refine List.map_congr_left fun p _ => ?_
  unfold BuddyAllocator.cell
  rw [(h _).1, (h _).2]

theorem inv_of_sameOrders (htiled : heap.Tiled F (live.map fun p => s.heap.cell p.1))
    (hsame : s.heap.SameOrders heap)
    (hlarge : ∀ p ∈ live, 24 ≤ p.1 ∧ p.2 + 24 ≤ 2 ^ (s.heap.cell p.1).order) :
    (⟨heap, live⟩ : BuddySession).Inv := by
  refine ⟨⟨F, ?_⟩, fun p hp => ?_⟩
  · rw [cells_congr hsame]
    exact htiled
  · have hcell : heap.cell p.1 = s.heap.cell p.1 := by
      unfold BuddyAllocator.cell
      rw [(hsame _).1, (hsame _).2]
    dsimp only
    rw [hcell]
    exact hlarge p hp

theorem Inv.malloc (h : s.Inv) (hpools : s.heap.FreshPools pools) :
    ∃ ptr heap, buddyMalloc s.heap n pools = some (ptr, heap) ∧
      (ptr = 0 ∨ ∀ p ∈ s.live, p.1 ≠ ptr) ∧
      (⟨heap, if ptr = 0 then s.live else (ptr, n) :: s.live⟩ : BuddySession).Inv := by
  obtain ⟨F, htiled⟩ := h.tiled
  obtain ⟨ptr, heap, hrun, halloc⟩ := htiled.buddyMalloc n hpools
  refine ⟨ptr, heap, hrun, ?_⟩
  cases halloc with
  | failed hsame htiled => exact ⟨Or.inl rfl, inv_of_sameOrders htiled hsame h.large⟩
  | block hsize htaken htiled =>
    rw [if_neg (by omega)]
    have hinv := inv_of_taken htiled htaken hsize h.large
    refine ⟨Or.inr fun p hp => ?_, hinv⟩
    exact (List.rel_of_pairwise_cons hinv.distinct hp).symm

theorem Inv.filter_zero (h : s.Inv) : s.live.filter (·.1 ≠ 0) = s.live := by
  rw [List.filter_eq_self]
  intro p hp
  have := (h.large p hp).1
  exact decide_eq_true (by omega)

theorem Inv.free (h : s.Inv) (hptr : ptr = 0 ∨ s.Live ptr) :
    ∃ heap, buddyFree s.heap ptr = some heap ∧
      (⟨heap, s.live.filter (·.1 ≠ ptr)⟩ : BuddySession).Inv := by
  rcases hptr with rfl | ⟨n, hp⟩
  · exact ⟨s.heap, if_pos rfl, by rw [h.filter_zero]; exact h⟩
  · obtain ⟨hlow, hlarge⟩ := h.large _ hp
    obtain ⟨F, htiled⟩ := h.focus hp
    obtain ⟨heap, F', hrun, htiled', hsame⟩ := htiled.buddyFree rfl rfl
    rw [Nat.sub_add_cancel hlow] at hrun
    refine ⟨heap, hrun, inv_of_sameOrders htiled' hsame fun p hp => ?_⟩
    exact h.large p (List.mem_of_mem_filter hp)

theorem Inv.move (h : s.Inv) (hp : s.Live ptr) (hpools : s.heap.FreshPools pools) :
    ∃ new heap, buddyMalloc s.heap n pools = some (new, heap) ∧
      ((new = 0 ∧ (⟨heap, s.live⟩ : BuddySession).Inv) ∨
        (new ≠ 0 ∧ ∃ heap', buddyFree heap ptr = some heap' ∧
          (⟨heap', (new, n) :: s.live.filter (·.1 ≠ ptr)⟩ : BuddySession).Inv)) := by
  obtain ⟨new, heap, hmalloc, hnew, hinv⟩ := h.malloc (n := n) hpools
  refine ⟨new, heap, hmalloc, ?_⟩
  by_cases hzero : new = 0
  · rw [if_pos hzero] at hinv
    exact Or.inl ⟨hzero, hinv⟩
  · obtain ⟨m, hm⟩ := hp
    rw [if_neg hzero] at hinv
    obtain ⟨heap', hfree, hinv'⟩ := hinv.free (Or.inr ⟨m, List.mem_cons_of_mem _ hm⟩)
    have hne : new ≠ ptr := (hnew.resolve_left hzero _ hm).symm
    rw [List.filter_cons_of_pos (by simpa using hne)] at hinv'
    exact Or.inr ⟨hzero, heap', hfree, hinv'⟩

theorem Inv.shrink (h : s.Inv) {m o : ℕ} (hp : (ptr, m) ∈ s.live) (ho : o ≤ (s.heap.cell ptr).order)
    (hsize : n + 24 ≤ 2 ^ o) :
    let header := { s.heap.mem (ptr - 24) with order := o }
    let heap := splitDown (s.heap.cell ptr).region (ptr - 24) o (s.heap.cell ptr).order
      (s.heap.store (ptr - 24) header)
    (⟨heap, (ptr, n) :: s.live.filter (·.1 ≠ ptr)⟩ : BuddySession).Inv := by
  obtain ⟨F, htiled⟩ := h.focus hp
  have hset := htiled.setHeader (ptr - 24) { s.heap.mem (ptr - 24) with order := o } rfl
  obtain ⟨F', hdown, hsame⟩ := BuddyAllocator.Tiled.splitDown _ hset ho
  have hlarge : ∀ p ∈ s.live.filter (·.1 ≠ ptr),
      24 ≤ p.1 ∧ p.2 + 24 ≤ 2 ^ (s.heap.cell p.1).order :=
    fun p hp => h.large p (List.mem_of_mem_filter hp)
  have hinv := inv_of_taken (n := n) hdown ⟨?_, ?_, fun a ha => ?_⟩ hsize hlarge
  · rwa [Nat.sub_add_cancel (h.large _ hp).1] at hinv
  · rw [(hsame _).1, BuddyAllocator.store_mem_self]
  · rw [(hsame _).2, BuddyAllocator.store_mem_self]
  · rw [(hsame _).1, (hsame _).2, BuddyAllocator.store_mem_of_ne _ _ ha]
    exact ⟨rfl, rfl⟩

theorem Inv.realloc (h : s.Inv) (hptr : ptr = 0 ∨ s.Live ptr) (hn : n < 2 ^ 63)
    (hpools : s.heap.FreshPools pools) :
    (buddyRealloc s.heap ptr n pools = none ∧ ¬ n + 24 ≤ 2 ^ 63) ∨
      ∃ new heap, buddyRealloc s.heap ptr n pools = some (new, heap) ∧
        (⟨heap, if new ≠ 0 then (new, n) :: s.live.filter (·.1 ≠ ptr) else
          if n = 0 then s.live.filter (·.1 ≠ ptr) else s.live⟩ : BuddySession).Inv := by
  unfold buddyRealloc
  split
  · next hzero =>
    right
    subst hzero
    obtain ⟨new, heap, hmalloc, -, hinv⟩ := h.malloc (n := n) hpools
    refine ⟨new, heap, hmalloc, ?_⟩
    rw [h.filter_zero, ite_self, ite_not]
    exact hinv
  · next hne =>
    obtain ⟨m, hm⟩ := hptr.resolve_left hne
    have hlow := (h.large _ hm).1
    dsimp only at hlow
    split
    · next hzero =>
      right
      obtain ⟨heap, hfree, hinv⟩ := h.free hptr
      rw [hfree]
      refine ⟨0, heap, rfl, ?_⟩
      rwa [if_neg (not_not.mpr rfl)]
    · next hnz =>
      obtain ⟨F, htiled⟩ := h.focus hm
      have hheader := htiled.header_eq
      rw [Nat.sub_add_cancel hlow] at hheader
      have hregion := htiled.free_region (List.mem_append_right F List.mem_cons_self)
      have hmin : (s.heap.region (s.heap.mem (ptr - 24)).region).minOrder = s.heap.minOrder :=
        (htiled.uniform _ hregion).2.1
      have hle := htiled.orders.le
      have hmax := htiled.orders.max
      have hunit : 2 ^ s.heap.minOrder ≤ 2 ^ 29 := Nat.pow_le_pow_right (by omega) (by omega)
      rw [hheader, u64_of_lt (by omega)]
      dsimp only
      cases horder : sizeToOrder (s.heap.region (s.heap.mem (ptr - 24)).region) (n + 24) with
      | none =>
        left
        refine ⟨rfl, fun hbound => ?_⟩
        obtain ⟨o, hsome, -⟩ := sizeToOrder_spec _ _ (by rw [hmin]; omega) hbound
        rw [horder] at hsome
        cases hsome
      | some o =>
        have hfit : n + 24 ≤ 2 ^ o := sizeToOrder_fits (by rw [hmin]; omega) horder
        right
        simp only [Option.bind_eq_bind, Option.bind_some]
        split
        · next heq =>
          refine ⟨ptr, s.heap, rfl, ?_⟩
          rw [if_pos hne]
          have hinv := inv_of_taken (n := n) htiled ⟨rfl, rfl, fun _ _ => ⟨rfl, rfl⟩⟩ (heq ▸ hfit)
            fun p hp => h.large p (List.mem_of_mem_filter hp)
          rwa [Nat.sub_add_cancel hlow] at hinv
        · split
          · next hlt =>
            refine ⟨ptr, _, rfl, ?_⟩
            rw [if_pos hne]
            exact h.shrink hm hlt.le hfit
          · obtain ⟨new, heap, hmalloc, hmove⟩ := h.move (n := n) (hptr.resolve_left hne) hpools
            rw [hmalloc]
            simp only [Option.bind_some]
            rcases hmove with ⟨rfl, hinv⟩ | ⟨hnew, heap', hfree, hinv⟩
            · exact ⟨0, heap, rfl, by rwa [if_neg (not_not.mpr rfl)]⟩
            · rw [if_neg hnew, hfree]
              exact ⟨new, heap', rfl, by rwa [if_pos hnew]⟩

theorem Inv.start_ne (h : s.Inv) {a : ℕ} {header : BuddyHeader}
    (hmem : s.Allowed (.write a header)) :
    ∃ F, s.heap.Tiled F (s.live.map fun p => s.heap.cell p.1) ∧
      ∀ c ∈ F ++ s.live.map (fun p => s.heap.cell p.1), c.start ≠ a := by
  obtain ⟨p, hp, hlow, hhigh⟩ := hmem
  obtain ⟨hge, hlarge⟩ := h.large p hp
  obtain ⟨F, htiled⟩ := h.tiled
  have hcell : s.heap.cell p.1 ∈ F ++ s.live.map fun p => s.heap.cell p.1 :=
    List.mem_append_right F (List.mem_map_of_mem hp)
  have hinside : a ∈ s.heap.cell p.1 := by
    rw [Cell.mem_def]
    unfold Cell.finish
    change p.1 - 24 ≤ a ∧ a < p.1 - 24 + _
    omega
  refine ⟨F, htiled, ?_⟩
  rintro c hc rfl
  have heq := htiled.tiling.eq_of_mem hc hcell c.start_mem hinside
  rw [heq] at hlow
  change p.1 < p.1 - 24 + 24 at hlow
  omega

theorem Inv.write_cell (h : s.Inv) {a : ℕ} {header : BuddyHeader}
    (hmem : s.Allowed (.write a header))
    {p : ℕ × ℕ} (hp : p ∈ s.live) : (s.heap.store a header).cell p.1 = s.heap.cell p.1 := by
  obtain ⟨F, -, hstart⟩ := h.start_ne hmem
  have hne : p.1 - 24 ≠ a := hstart _ (List.mem_append_right F (List.mem_map_of_mem hp))
  unfold BuddyAllocator.cell
  rw [BuddyAllocator.store_mem_of_ne s.heap header hne]

theorem Inv.write (h : s.Inv) {a : ℕ} {header : BuddyHeader} (hmem : s.Allowed (.write a header)) :
    (⟨s.heap.store a header, s.live⟩ : BuddySession).Inv := by
  obtain ⟨F, htiled, hstart⟩ := h.start_ne hmem
  refine ⟨⟨F, ?_⟩, fun q hq => ?_⟩
  · rw [List.map_congr_left fun q hq => h.write_cell hmem hq]
    exact htiled.write header hstart
  · dsimp only
    rw [h.write_cell hmem hq]
    exact h.large q hq

theorem Inv.call (h : s.Inv) {c : BuddyCall} (hc : s.Allowed c) :
    (s.call c = none ∧ ¬ c.Bounded) ∨ ∃ u, s.call c = some u ∧ u.Inv := by
  cases c with
  | malloc size pools =>
    right
    obtain ⟨ptr, heap, hrun, -, hinv⟩ := h.malloc (n := size) hc.2
    exact ⟨_, by simp only [BuddySession.call, hrun]; rfl, hinv⟩
  | free ptr =>
    right
    obtain ⟨heap, hrun, hinv⟩ := h.free hc
    exact ⟨_, by simp only [BuddySession.call, hrun]; rfl, hinv⟩
  | realloc ptr size pools =>
    rcases h.realloc hc.1 hc.2.1 hc.2.2 with ⟨hrun, hbound⟩ | ⟨new, heap, hrun, hinv⟩
    · exact Or.inl ⟨by simp only [BuddySession.call, hrun]; rfl, hbound⟩
    · exact Or.inr ⟨_, by simp only [BuddySession.call, hrun]; rfl, hinv⟩
  | write a header => exact Or.inr ⟨_, rfl, h.write hc⟩

theorem buddyInit_eq (s : BuddyAllocator) {minOrder maxOrder growOrder : ℕ}
    (hok : BuddyOrders minOrder maxOrder growOrder) :
    buddyInit s minOrder maxOrder growOrder =
      { s with
        regions := 0
        activeRegion := none
        minOrder := minOrder
        maxOrder := maxOrder
        growOrder := growOrder
        currentBytes := 0
        peakBytes := 0 } := by
  obtain ⟨hmin, hmax, hgrow, hle⟩ := hok
  exact if_neg (by omega)

theorem init_inv (s : BuddyAllocator) {minOrder maxOrder growOrder : ℕ}
    (hok : BuddyOrders minOrder maxOrder growOrder) : (init s minOrder maxOrder growOrder).Inv := by
  unfold init
  rw [buddyInit_eq s hok]
  refine ⟨⟨[], hok, ?_, ?_, ?_, ?_, ?_, ?_, ?_, List.Pairwise.nil, ?_⟩, fun p hp => nomatch hp⟩
  all_goals intro i hi
  all_goals cases hi

theorem Inv.run (h : s.Inv) (hrun : s.Run t) : t.Inv := by
  induction hrun with
  | refl => exact h
  | step _ hallowed hcall ih =>
    rcases ih.call hallowed with ⟨hnone, -⟩ | ⟨u, hsome, hinv⟩
    · rw [hcall] at hnone
      cases hnone
    · obtain rfl := Option.some.inj (hsome.symm.trans hcall)
      exact hinv

/-- In every run the blocks tile the regions, and every call returns whose sizes have an order. -/
theorem run_partition (s : BuddyAllocator) {minOrder maxOrder growOrder : ℕ}
    (hok : BuddyOrders minOrder maxOrder growOrder)
    (hrun : (init s minOrder maxOrder growOrder).Run t) :
    t.Partition ∧ ∀ c, t.Allowed c → c.Bounded → (t.call c).isSome := by
  have hinv := (init_inv s hok).run hrun
  refine ⟨hinv.partition, fun c hallowed hbound => ?_⟩
  rcases hinv.call hallowed with ⟨-, hnot⟩ | ⟨u, hsome, -⟩
  · exact absurd hbound hnot
  · rw [hsome]
    rfl

def after (s : BuddySession) (c : BuddyCall) : BuddySession := (s.call c).getD s

theorem Run.after {c : BuddyCall} (h : s.Run t) (hallowed : t.Allowed c)
    (hcall : (t.call c).isSome) : s.Run (t.after c) := by
  refine h.step hallowed ?_
  obtain ⟨u, hu⟩ := Option.isSome_iff_exists.mp hcall
  unfold BuddySession.after
  rw [hu, Option.getD_some]

def noAllocator : BuddyAllocator :=
  ⟨0, fun _ => ⟨0, 0, fun _ => 0, 0, 0⟩, none, 0, 0, 0, 0, 0, fun _ => ⟨0, 0, 0⟩⟩

def oneBlock : BuddySession :=
  (((init noAllocator 5 12 12).after (.malloc 100 [4096])).after (.malloc 10 [])).after (.free 4120)

theorem run_partition_oneBlock :
    oneBlock.Partition ∧ ∀ c, oneBlock.Allowed c → c.Bounded → (oneBlock.call c).isSome := by
  have h₁ := Run.refl.after (t := init noAllocator 5 12 12) (c := .malloc 100 [4096])
    ⟨by decide, ⟨fun p hp => ?_, List.pairwise_singleton _ _⟩⟩ (by decide)
  · have h₂ := h₁.after (c := .malloc 10 []) ⟨by decide, ⟨nofun, List.Pairwise.nil⟩⟩ (by decide)
    have h₃ := h₂.after (c := .free 4120) (Or.inr ⟨100, by decide⟩) (by decide +kernel)
    exact run_partition noAllocator ⟨by decide, by decide, by decide, by decide⟩ h₃
  · obtain rfl := List.mem_singleton.mp hp
    exact ⟨by decide, by decide, nofun⟩

end BuddySession

end RetroRocket
