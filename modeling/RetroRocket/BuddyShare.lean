import RetroRocket.BuddyRun

/-!
# A heap with several owners

The live blocks of a heap belong to owners, each of which frees and reallocates its own. What one of
them does leaves the blocks of the others as they are. The pools that a call does not use stay
fresh.
-/

namespace RetroRocket

namespace BuddyAllocator

variable {s t : BuddyAllocator} {pools rest : List ℕ} {i b k n ptr fuel cur : ℕ}

/-! ## The regions -/

theorem SameRegions.refl (s : BuddyAllocator) : s.SameRegions s :=
  ⟨rfl, rfl, rfl, rfl, rfl, rfl, rfl, fun _ => ⟨rfl, rfl⟩⟩

theorem push_sameRegions (s : BuddyAllocator) (i k b : ℕ) : s.SameRegions (s.push i k b) :=
  (store_sameRegions s b _).trans (setHead_sameRegions _ i k b)

theorem splitDown_sameRegions (s : BuddyAllocator) (i b k cur : ℕ) :
    s.SameRegions (splitDown i b k cur s) := by
  induction cur generalizing s with
  | zero => exact SameRegions.refl s
  | succ cur ih =>
    rw [splitDown]
    split
    · exact (push_sameRegions s i cur _).trans (ih _)
    · exact SameRegions.refl s

theorem takeBlock_sameRegions (s : BuddyAllocator) (i k cur : ℕ) :
    s.SameRegions (takeBlock s i k cur).2 := by
  have hset := setHead_sameRegions s i cur (s.mem ((s.region i).freeLists cur)).next
  have hdown := hset.trans (splitDown_sameRegions _ i ((s.region i).freeLists cur) k cur)
  have hstore := hdown.trans (store_sameRegions _ ((s.region i).freeLists cur)
    { (splitDown i ((s.region i).freeLists cur) k cur (s.setHead i cur
      (s.mem ((s.region i).freeLists cur)).next)).mem ((s.region i).freeLists cur) with
      order := k, region := i })
  exact ⟨hstore.regions, hstore.active, hstore.growOrder, hstore.minOrder, hstore.maxOrder,
    hstore.pool, hstore.size, hstore.region⟩

theorem mergeLoop_sameRegions {r : BuddyAllocator × ℕ × ℕ} (h : mergeLoop i fuel s b k = some r) :
    s.SameRegions r.1 := by
  induction fuel generalizing s b k with
  | zero => cases h
  | succ fuel ih =>
    unfold mergeLoop at h
    dsimp only at h
    split at h
    · cases h
      exact SameRegions.refl s
    · split at h
      · cases h
        exact SameRegions.refl s
      · obtain ⟨found, -, h⟩ := Option.bind_eq_some_iff.mp h
        cases found with
        | none =>
          cases h
          exact SameRegions.refl s
        | some prev => exact (unlink_sameRegions s i k _ prev).trans (ih h)

theorem buddyFree_sameRegions (h : buddyFree s ptr = some t) : s.SameRegions t := by
  unfold buddyFree at h
  split at h
  · cases h
    exact SameRegions.refl s
  · obtain ⟨r, hmerge, h⟩ := Option.bind_eq_some_iff.mp h
    cases h
    have hmerge := mergeLoop_sameRegions hmerge
    have hpush := push_sameRegions r.1 (s.mem (sub64 ptr 24)).region r.2.2 r.2.1
    exact SameRegions.trans ⟨hmerge.regions, hmerge.active, hmerge.growOrder, hmerge.minOrder,
      hmerge.maxOrder, hmerge.pool, hmerge.size, hmerge.region⟩ hpush

theorem SameRegions.freshPools (h : s.SameRegions t) (hpools : s.FreshPools pools) :
    t.FreshPools pools := by
  constructor
  · intro p hp
    obtain ⟨hpos, hend, hapart⟩ := hpools.fresh p hp
    constructor
    · exact hpos
    · rw [h.growOrder]
      exact hend
    · rw [h.regions, h.growOrder, h.pool]
      exact hapart
  · rw [h.growOrder]
    exact hpools.apart

/-! ### Rules for an allocation -/

section Rule

variable {P : BuddyAllocator → ℕ → List ℕ → Prop} {Q : BuddyAllocator → List ℕ → Prop}
  {r : ℕ × BuddyAllocator}
  (hnext : ∀ s i pools, P s i pools → i + 1 < s.regions → P s (i + 1) pools)
  (hgrow : ∀ s i pool pools, P s i (pool :: pools) → P (buddyGrow s pool) s.regions pools)
  (htake : ∀ s i k cur pools, P s i pools → findOrder (s.region i) k = some cur →
    Q (takeBlock s i k cur).2 pools)
  (hfail : ∀ s i pools, P s i pools → Q s pools)

include hnext hgrow htake hfail

theorem mallocLoop_rule (h : mallocLoop n fuel s i pools = some r) (hs : P s i pools) :
    ∃ left, Q r.2 left := by
  induction fuel generalizing s i pools with
  | zero => cases h
  | succ fuel ih =>
    unfold mallocLoop at h
    obtain ⟨k, -, h⟩ := Option.bind_eq_some_iff.mp h
    split at h
    · split at h
      · next hlt => exact ih h (hnext s i pools hs hlt)
      · cases h
        exact ⟨pools, hfail s i pools hs⟩
    · cases hfind : findOrder (s.region i) k with
      | some cur =>
        rw [hfind] at h
        cases h
        exact ⟨pools, htake s i k cur pools hs hfind⟩
      | none =>
        rw [hfind] at h
        dsimp only at h
        split at h
        · next hlt => exact ih h (hnext s i pools hs hlt)
        · cases pools with
          | nil =>
            cases h
            exact ⟨[], hfail s i [] hs⟩
          | cons pool pools => exact ih h (hgrow s i pool pools hs)

theorem buddyMalloc_rule (h : buddyMalloc s n pools = some r)
    (hactive : ∀ i, s.activeRegion = some i → P s i pools)
    (hfirst : ∀ pool rest, pools = pool :: rest → P (buddyGrow s pool) s.regions rest)
    (hnone : Q s pools) : ∃ left, Q r.2 left := by
  unfold buddyMalloc at h
  split at h
  · cases h
    exact ⟨pools, hnone⟩
  · split at h
    · cases h
      exact ⟨pools, hnone⟩
    · dsimp only at h
      cases hregion : s.activeRegion with
      | some i =>
        rw [hregion] at h
        exact mallocLoop_rule hnext hgrow htake hfail h (hactive i hregion)
      | none =>
        rw [hregion] at h
        cases pools with
        | nil =>
          cases h
          exact ⟨[], hnone⟩
        | cons pool pools =>
          exact mallocLoop_rule hnext hgrow htake hfail h (hfirst pool pools rfl)

end Rule

section Keeps

variable {P : BuddyAllocator → List ℕ → Prop} {r : ℕ × BuddyAllocator}
  (hsame : ∀ {s t : BuddyAllocator} {pools : List ℕ}, s.SameRegions t → P s pools → P t pools)
  (hgrow : ∀ {s : BuddyAllocator} {pool : ℕ} {pools : List ℕ}, P s (pool :: pools) →
    P (buddyGrow s pool) pools)

include hsame hgrow

theorem buddyMalloc_keeps (h : buddyMalloc s n pools = some r) (hs : P s pools) :
    ∃ left, P r.2 left := by
  refine buddyMalloc_rule (P := fun s _ pools => P s pools) (Q := P) (fun s i pools hs _ => hs)
    (fun s i pool pools hs => hgrow hs) (fun s i k cur pools hs _ => ?_) (fun s i pools hs => hs) h
    (fun _ _ => hs) (fun pool rest hpools => ?_) hs
  · exact hsame (takeBlock_sameRegions s i k cur) hs
  · rw [hpools] at hs
    exact hgrow hs

theorem buddyRealloc_keeps (h : buddyRealloc s ptr n pools = some r) (hs : P s pools) :
    ∃ left, P r.2 left := by
  unfold buddyRealloc at h
  split at h
  · exact buddyMalloc_keeps hsame hgrow h hs
  · split at h
    · obtain ⟨t, hfree, h⟩ := Option.bind_eq_some_iff.mp h
      cases h
      exact ⟨pools, hsame (buddyFree_sameRegions hfree) hs⟩
    · obtain ⟨order, -, h⟩ := Option.bind_eq_some_iff.mp h
      split at h
      · cases h
        exact ⟨pools, hs⟩
      · split at h
        · cases h
          have hstore := store_sameRegions s (sub64 ptr 24)
            { s.mem (sub64 ptr 24) with order := order }
          exact ⟨pools, hsame (hstore.trans (splitDown_sameRegions _ _ _ _ _)) hs⟩
        · obtain ⟨r', hmalloc, h⟩ := Option.bind_eq_some_iff.mp h
          obtain ⟨left, hleft⟩ := buddyMalloc_keeps (P := P) hsame hgrow hmalloc hs
          dsimp only at h
          split at h
          · cases h
            exact ⟨left, hleft⟩
          · obtain ⟨t, hfree, h⟩ := Option.bind_eq_some_iff.mp h
            cases h
            exact ⟨left, hsame (buddyFree_sameRegions hfree) hleft⟩

end Keeps

/-! ### The pools -/

theorem FreshPools.left (h : s.FreshPools (pools ++ rest)) : s.FreshPools pools :=
  ⟨fun p hp => h.fresh p (List.mem_append_left rest hp), (List.pairwise_append.mp h.apart).1⟩

theorem FreshPools.right (h : s.FreshPools (pools ++ rest)) : s.FreshPools rest :=
  ⟨fun p hp => h.fresh p (List.mem_append_right pools hp), (List.pairwise_append.mp h.apart).2.1⟩

theorem buddyMalloc_freshPools {r : ℕ × BuddyAllocator} (hpools : s.FreshPools (pools ++ rest))
    (h : buddyMalloc s n pools = some r) : r.2.FreshPools rest := by
  obtain ⟨left, hleft⟩ := buddyMalloc_keeps (P := fun s left => s.FreshPools (left ++ rest))
    SameRegions.freshPools FreshPools.grow h hpools
  exact hleft.right

theorem buddyRealloc_freshPools {r : ℕ × BuddyAllocator} (hpools : s.FreshPools (pools ++ rest))
    (h : buddyRealloc s ptr n pools = some r) : r.2.FreshPools rest := by
  obtain ⟨left, hleft⟩ := buddyRealloc_keeps (P := fun s left => s.FreshPools (left ++ rest))
    SameRegions.freshPools FreshPools.grow h hpools
  exact hleft.right

end BuddyAllocator

namespace BuddySession

variable {heap heap' : BuddyAllocator} {live live' own kept : List (ℕ × ℕ)} {ptr n : ℕ}
  {pools : List ℕ}

/-! ## Owners -/

theorem Inv.perm (h : (⟨heap, live⟩ : BuddySession).Inv) (hp : live.Perm live') :
    (⟨heap, live'⟩ : BuddySession).Inv := by
  obtain ⟨F, htiled⟩ := h.tiled
  have hcells : (live.map fun p => heap.cell p.1).Perm (live'.map fun p => heap.cell p.1) :=
    hp.map _
  have htiled' : heap.Tiled F (live'.map fun p => heap.cell p.1) :=
    htiled.retile (htiled.tiling.perm (hcells.append_left F))
  constructor
  · exact ⟨F, htiled'⟩
  · intro p hmem
    exact h.large p (hp.mem_iff.mpr hmem)

theorem Inv.apart (h : (⟨heap, live⟩ : BuddySession).Inv) :
    live.Pairwise fun p q => p.1 + p.2 ≤ q.1 ∨ q.1 + q.2 ≤ p.1 := by
  obtain ⟨F, htiled⟩ := h.tiled
  have hap := (List.pairwise_append.mp htiled.tiling.apart).2.1
  rw [List.pairwise_map] at hap
  apply hap.imp_of_mem
  intro p q hp hq hpq
  have hlarge := h.large p hp
  have hlarge' := h.large q hq
  unfold Cell.Apart Cell.finish BuddyAllocator.cell at hpq
  unfold BuddyAllocator.cell at hlarge hlarge'
  dsimp only at hpq hlarge hlarge'
  omega

theorem Inv.finish_le (h : (⟨heap, live⟩ : BuddySession).Inv) (hp : (ptr, n) ∈ live) :
    (heap.cell ptr).finish ≤ 2 ^ 64 := by
  obtain ⟨F, htiled⟩ := h.tiled
  have hcell : heap.cell ptr ∈ live.map fun p => heap.cell p.1 := by
    rw [List.mem_map]
    exact ⟨_, hp, rfl⟩
  exact htiled.finish_le (List.mem_append_right F hcell)

theorem Inv.payload_le (h : (⟨heap, live⟩ : BuddySession).Inv) (hp : (ptr, n) ∈ live) :
    ptr + n ≤ (heap.cell ptr).finish := by
  have hlarge := h.large _ hp
  unfold BuddyAllocator.cell at hlarge
  unfold Cell.finish BuddyAllocator.cell
  dsimp only at hlarge ⊢
  omega

theorem Inv.filter_own (h : (⟨heap, own ++ kept⟩ : BuddySession).Inv)
    (hptr : ptr = 0 ∨ ∃ n, (ptr, n) ∈ own) :
    (own ++ kept).filter (·.1 ≠ ptr) = own.filter (·.1 ≠ ptr) ++ kept := by
  rw [List.filter_append]
  congr 1
  rw [List.filter_eq_self]
  intro q hq
  rw [decide_eq_true_eq]
  rcases hptr with rfl | ⟨n, hp⟩
  · have hlarge := (h.large q (List.mem_append_right own hq)).1
    omega
  · exact ((List.pairwise_append.mp h.distinct).2.2 _ hp q hq).symm

theorem Inv.free_own (h : (⟨heap, own ++ kept⟩ : BuddySession).Inv)
    (hptr : ptr = 0 ∨ ∃ n, (ptr, n) ∈ own) :
    ∃ heap', buddyFree heap ptr = some heap' ∧
      (⟨heap', own.filter (·.1 ≠ ptr) ++ kept⟩ : BuddySession).Inv := by
  have hlive : ptr = 0 ∨ (⟨heap, own ++ kept⟩ : BuddySession).Live ptr :=
    hptr.imp_right fun ⟨n, hp⟩ => ⟨n, List.mem_append_left kept hp⟩
  obtain ⟨heap', hfree, hinv⟩ := h.free hlive
  refine ⟨heap', hfree, ?_⟩
  dsimp only at hinv
  rwa [h.filter_own hptr] at hinv

theorem Inv.realloc_own (h : (⟨heap, own ++ kept⟩ : BuddySession).Inv)
    (hptr : ptr = 0 ∨ ∃ n, (ptr, n) ∈ own) (hn : n + 24 ≤ 2 ^ 63)
    (hpools : heap.FreshPools pools) :
    ∃ new heap', buddyRealloc heap ptr n pools = some (new, heap') ∧
      (⟨heap', (if new ≠ 0 then (new, n) :: own.filter (·.1 ≠ ptr) else
        if n = 0 then own.filter (·.1 ≠ ptr) else own) ++ kept⟩ : BuddySession).Inv := by
  have hlive : ptr = 0 ∨ (⟨heap, own ++ kept⟩ : BuddySession).Live ptr :=
    hptr.imp_right fun ⟨n, hp⟩ => ⟨n, List.mem_append_left kept hp⟩
  have hn' : n < 2 ^ 63 := by omega
  rcases h.realloc hlive hn' hpools with ⟨-, hnot⟩ | ⟨new, heap', hrealloc, hinv⟩
  · exact absurd hn hnot
  · refine ⟨new, heap', hrealloc, ?_⟩
    dsimp only at hinv
    rw [h.filter_own hptr] at hinv
    by_cases hnew : new ≠ 0
    · rw [if_pos hnew] at hinv ⊢
      exact hinv
    · rw [if_neg hnew] at hinv ⊢
      by_cases hzero : n = 0
      · rw [if_pos hzero] at hinv ⊢
        exact hinv
      · rw [if_neg hzero] at hinv ⊢
        exact hinv

theorem Inv.call_own {c : BuddyCall} (h : (⟨heap, own ++ kept⟩ : BuddySession).Inv)
    (hc : (⟨heap, own⟩ : BuddySession).Allowed c) (hbound : c.Bounded) :
    ∃ t, (⟨heap, own⟩ : BuddySession).call c = some t ∧
      (⟨t.heap, t.live ++ kept⟩ : BuddySession).Inv := by
  cases c with
  | malloc size pools =>
    obtain ⟨ptr, heap', hmalloc, -, hinv⟩ := h.malloc (n := size) hc.2
    dsimp only at hmalloc
    refine ⟨_, by unfold BuddySession.call; dsimp only; rw [hmalloc]; rfl, ?_⟩
    dsimp only at hinv ⊢
    split at hinv
    · next hzero =>
      rw [if_pos hzero]
      exact hinv
    · next hzero =>
      rw [if_neg hzero]
      exact hinv
  | free ptr =>
    obtain ⟨heap', hfree, hinv⟩ := h.free_own hc
    exact ⟨_, by unfold BuddySession.call; dsimp only; rw [hfree]; rfl, hinv⟩
  | realloc ptr size pools =>
    obtain ⟨new, heap', hrealloc, hinv⟩ := h.realloc_own hc.1 hbound hc.2.2
    exact ⟨_, by unfold BuddySession.call; dsimp only; rw [hrealloc]; rfl, hinv⟩
  | write a header =>
    obtain ⟨p, hp, hinside⟩ := hc
    exact ⟨_, rfl, h.write ⟨p, List.mem_append_left kept hp, hinside⟩⟩

end BuddySession

end RetroRocket
