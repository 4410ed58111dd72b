import RetroRocket.BuddyAccounts

/-!
# Buddies that are free become one block

A free merges its block as long as the buddy is on the list of its order, and the upper halves that
a split puts on the lists have the block that is in use for their buddy. So no two buddies are free
at the same time, and a region in which nothing is in use is one free block. This is for the regions
that end below 2 ^ 64: the end that a free computes for any other is 0, and it merges nothing there.
-/

namespace RetroRocket

namespace BuddyAllocator

variable {s t : BuddyAllocator} {F F' L L' : List Cell} {c d : Cell} {pools : List ℕ}
  {a b b' i j k k' n p cur fuel : ℕ}

/-! ## Free blocks -/

def FreeAt (s : BuddyAllocator) (i k a : ℕ) : Prop :=
  ∃ xs, Linked 0 s.next ((s.region i).freeLists k) xs 0 ∧ a ∈ xs

theorem Tiled.freeAt_iff (h : s.Tiled F L) (hi : i < s.regions) :
    s.FreeAt i k a ↔ (⟨i, a, k⟩ : Cell) ∈ F := by
  rw [← mem_starts]
  constructor
  · rintro ⟨xs, hlinked, hmem⟩
    rw [(h.linked i hi k).unique hlinked]
    exact hmem
  · intro hmem
    exact ⟨starts i k F, h.linked i hi k, hmem⟩

theorem Tiled.mem_iff (h : s.Tiled F L) (h' : s.Tiled F' L') : c ∈ F ↔ c ∈ F' := by
  constructor
  · intro hc
    have hi := h.free_region (List.mem_append_left L hc)
    exact (h'.freeAt_iff hi).mp ((h.freeAt_iff hi).mpr hc)
  · intro hc
    have hi := h'.free_region (List.mem_append_left L' hc)
    exact (h.freeAt_iff hi).mp ((h'.freeAt_iff hi).mpr hc)

/-! ## Buddies -/

theorem Tiled.buddyOf_of_buddies (h : s.Tiled F L) (hc : (⟨i, a, k⟩ : Cell) ∈ F ++ L)
    (hd : (⟨i, b, k⟩ : Cell) ∈ F ++ L) (hb : Cell.Buddies (s.pool i) ⟨i, a, k⟩ ⟨i, b, k⟩) :
    buddyOf (s.region i) a k = b := by
  have hk : k < s.growOrder := by
    refine lt_of_le_of_ne (h.order_le hc) fun hk => hb.start_ne ?_
    exact (h.eq_pool hc hk).trans (h.eq_pool hd hk).symm
  obtain ⟨q, hq, hbuddy⟩ := h.buddyOf_eq hc hk
  obtain ⟨q', hq', hd'⟩ := hb.offset
  dsimp only at hq' hd'
  obtain rfl := Nat.eq_of_mul_eq_mul_left (Nat.two_pow_pos k)
    (Nat.add_left_cancel (hq.symm.trans hq'))
  rw [hbuddy, hd']

theorem Tiled.buddies_of_buddyOf (h : s.Tiled F L) (hc : (⟨i, a, k⟩ : Cell) ∈ F ++ L)
    (hd : (⟨i, b, k⟩ : Cell) ∈ F ++ L) (hne : a ≠ b) (hb : buddyOf (s.region i) a k = b) :
    Cell.Buddies (s.pool i) ⟨i, a, k⟩ ⟨i, b, k⟩ := by
  have hk : k < s.growOrder := by
    refine lt_of_le_of_ne (h.order_le hc) fun hk => hne ?_
    exact (h.eq_pool hc hk).trans (h.eq_pool hd hk).symm
  obtain ⟨q, hq, hbuddy⟩ := h.buddyOf_eq hc hk
  exact ⟨rfl, rfl, q, hq, hb.symm.trans hbuddy⟩

/-! ## No two buddies are free -/

def Ends (s : BuddyAllocator) (i : ℕ) : Prop := s.pool i + s.size i < 2 ^ 64

def Unpaired (s : BuddyAllocator) (F : List Cell) : Prop :=
  ∀ i, s.Ends i → ∀ c ∈ F, ∀ d ∈ F, c.region = i → ¬ c.Buddies (s.pool i) d

def Merged (s : BuddyAllocator) : Prop := ∀ F L, s.Tiled F L → s.Unpaired F

theorem Tiled.merged (h : s.Tiled F L) (hun : s.Unpaired F) : s.Merged := by
  intro F' L' h' i hend c hc d hd
  exact hun i hend c ((h.mem_iff h').mpr hc) d ((h.mem_iff h').mpr hd)

theorem Tiled.merged_of_subset (h : s.Tiled F L) (hm : s.Merged) (ht : t.Tiled F' L')
    (hsame : s.SameRegions t) (hsub : F' ⊆ F) : t.Merged := by
  refine ht.merged fun i hend c hc d hd => ?_
  unfold Ends at hend
  rw [hsame.pool, hsame.size] at hend
  rw [hsame.pool]
  exact hm F L h i hend c (hsub hc) d (hsub hd)

theorem Merged.counters (hm : s.Merged) (current peak : ℕ) :
    ({ s with currentBytes := current, peakBytes := peak } : BuddyAllocator).Merged :=
  fun F L h => hm F L (h.counters s.currentBytes s.peakBytes)

theorem Tiled.push_merged (h : s.Tiled F (⟨i, b, k⟩ :: L)) (hm : s.Merged)
    (hnone : s.Ends i → ∀ d ∈ F, ¬ Cell.Buddies (s.pool i) ⟨i, b, k⟩ d) :
    (s.push i k b).Merged := by
  refine h.push.merged fun j hend c hc d hd hj hb => ?_
  obtain ⟨-, -, -, -, -, hpool, hsize, -⟩ := push_sameRegions s i k b
  unfold Ends at hend
  rw [hpool, hsize] at hend
  rw [hpool] at hb
  rcases List.mem_cons.mp hc with rfl | hc
  · obtain rfl : i = j := hj
    rcases List.mem_cons.mp hd with rfl | hd
    · exact hb.start_ne rfl
    · exact hnone hend d hd hb
  · rcases List.mem_cons.mp hd with rfl | hd
    · obtain rfl : i = j := hb.region.symm.trans hj
      exact hnone hend c hc hb.symm
    · exact hm F _ h j hend c hc d hd hj hb

/-! ### Splitting -/

theorem Tiled.no_buddy_of_half (h : s.Tiled F (⟨i, b, k + 1⟩ :: L)) (hd : d ∈ F) :
    ¬ Cell.Buddies (s.pool i) ⟨i, b + 2 ^ k, k⟩ d := by
  intro hb
  have hmem : (⟨i, b, k + 1⟩ : Cell) ∈ F ++ ⟨i, b, k + 1⟩ :: L :=
    List.mem_append_right F List.mem_cons_self
  obtain ⟨q, hq, -⟩ := h.tiling.offset hmem
  have hstart := hb.start_eq hq
  refine h.not_mem_starts List.mem_cons_self d.region d.order ?_
  rw [mem_starts]
  dsimp only
  rw [← hstart]
  exact hd

theorem Tiled.splitDown_merged (cur : ℕ) (h : s.Tiled F (⟨i, b, cur⟩ :: L)) (hm : s.Merged) :
    (RetroRocket.splitDown i b k cur s).Merged := by
  induction cur generalizing s F with
  | zero => exact hm
  | succ cur ih =>
    rw [RetroRocket.splitDown]
    split
    · exact ih h.halves.push (h.halves.push_merged hm fun _ _ hd => h.no_buddy_of_half hd)
    · exact hm

theorem Tiled.takeBlock_merged (h : s.Tiled F L) (hm : s.Merged) (hi : i < s.regions) (hk : k ≤ cur)
    (hfree : (s.region i).freeLists cur ≠ 0) : (RetroRocket.takeBlock s i k cur).2.Merged := by
  obtain ⟨r, hsplit⟩ := h.exists_starts hi hfree
  have hhead : LeadsFrom [] .head := rfl
  obtain ⟨rest, hsub, hpop⟩ := h.unlink hi (l := []) hsplit hhead
  have hpopped := h.merged_of_subset hm hpop (unlink_sameRegions s i cur _ _) hsub
  obtain ⟨F', hdown, -⟩ := Tiled.splitDown cur hpop hk
  have hmdown := Tiled.splitDown_merged (k := k) cur hpop hpopped
  have hset : ∀ {u : BuddyAllocator} {b : ℕ}, u.Tiled F' (⟨i, b, k⟩ :: L) → u.Merged →
      (u.store b { u.mem b with order := k, region := i }).Merged := by
    intro u b hu hmu
    exact hu.merged_of_subset hmu (hu.setHeader _ _ rfl) (store_sameRegions u b _)
      (List.Subset.refl F')
  exact (hset hdown hmdown).counters _ _

/-! ### Merging -/

theorem Tiled.no_buddy_of_end (h : s.Tiled F (⟨i, b, k⟩ :: L)) (hend : s.Ends i)
    (hlast : (s.region i).maxOrder ≤ k ∨
      (buddyOf (s.region i) b k < s.pool i ∨
        u64 (s.pool i + s.size i) ≤ buddyOf (s.region i) b k) ∨
      buddyOf (s.region i) b k ∉ starts i k F) (hd : d ∈ F) :
    ¬ Cell.Buddies (s.pool i) ⟨i, b, k⟩ d := by
  intro hb
  obtain ⟨j, e, m⟩ := d
  obtain rfl : i = j := hb.region
  obtain rfl : k = m := hb.order
  have hblock : (⟨i, b, k⟩ : Cell) ∈ F ++ ⟨i, b, k⟩ :: L :=
    List.mem_append_right F List.mem_cons_self
  have hbuddy := List.mem_append_left (⟨i, b, k⟩ :: L) hd
  have heq := h.buddyOf_of_buddies hblock hbuddy hb
  rcases hlast with hmax | hout | hnot
  · have hk : k = s.growOrder := by
      have hle := h.order_le hblock
      have hgrow := h.orders.grow
      rw [(h.uniform i (h.free_region hblock)).2.2] at hmax
      dsimp only at hle
      omega
    exact hb.start_ne ((h.eq_pool hblock hk).trans (h.eq_pool hbuddy hk).symm)
  · obtain ⟨hlow, hhigh⟩ := h.tiling.inside _ hbuddy
    have hfinish := Cell.start_lt_finish ⟨i, e, k⟩
    rw [heq, u64_of_lt hend] at hout
    dsimp only at hlow hhigh hfinish
    omega
  · rw [heq, mem_starts] at hnot
    exact hnot hd

theorem Tiled.mergeLoop_merged (h : s.Tiled F (⟨i, b, k⟩ :: L)) (hm : s.Merged)
    (hrun : RetroRocket.mergeLoop i fuel s b k = some (t, b', k')) :
    t.Merged ∧ ∃ F', t.Tiled F' (⟨i, b', k'⟩ :: L) ∧
      (t.Ends i → ∀ d ∈ F', ¬ Cell.Buddies (t.pool i) ⟨i, b', k'⟩ d) := by
  induction fuel generalizing s F b k with
  | zero => cases hrun
  | succ fuel ih =>
    rcases h.mergeLoop_succ fuel with ⟨hloop, hlast⟩ | ⟨l, r, link, hsplit, hlink, hloop⟩
    · rw [hloop] at hrun
      cases hrun
      exact ⟨hm, F, h, fun hend d hd => h.no_buddy_of_end hend hlast hd⟩
    · rw [hloop] at hrun
      obtain ⟨F', hstep⟩ := h.mergeStep hsplit hlink
      have hi : i < s.regions := h.free_region (List.mem_append_right F List.mem_cons_self)
      obtain ⟨rest, hsub, hunlinked⟩ := h.unlink hi hsplit hlink
      have hm' := h.merged_of_subset hm hunlinked (unlink_sameRegions s i k _ link) hsub
      exact ih hstep hm' hrun

theorem Tiled.buddyFree_merged (h : s.Tiled F (⟨i, b, k⟩ :: L)) (hm : s.Merged)
    (horder : (s.mem b).order = k) (hregion : (s.mem b).region = i)
    (hrun : RetroRocket.buddyFree s (b + 24) = some t) : t.Merged := by
  unfold RetroRocket.buddyFree at hrun
  rw [if_neg (Nat.succ_ne_zero _), h.header_eq] at hrun
  dsimp only at hrun
  rw [horder, hregion] at hrun
  obtain ⟨⟨u, b', k'⟩, hloop, ht⟩ := Option.bind_eq_some_iff.mp hrun
  obtain rfl := Option.some.inj ht
  have hcounters := h.counters (if 2 ^ k ≤ s.currentBytes then s.currentBytes - 2 ^ k else 0)
    s.peakBytes
  obtain ⟨hmu, F', htiled, hnone⟩ := hcounters.mergeLoop_merged (hm.counters _ _) hloop
  exact htiled.push_merged hmu hnone

/-! ### Allocation -/

theorem Tiled.grow_merged (h : s.Tiled F L) (hm : s.Merged) (hp : s.Fresh p) :
    (buddyGrow s p).Merged := by
  refine (h.grow hp).merged fun j hend c hc d hd hj hb => ?_
  have hregion : ∀ e ∈ F, e.region < s.regions :=
    fun e he => h.free_region (List.mem_append_left L he)
  rcases List.mem_cons.mp hc with rfl | hc
  · rcases List.mem_cons.mp hd with rfl | hd
    · exact hb.start_ne rfl
    · exact (hregion d hd).ne hb.region.symm
  · rcases List.mem_cons.mp hd with rfl | hd
    · exact (hregion c hc).ne hb.region
    · have hlt : j < s.regions := by
        rw [← hj]
        exact hregion c hc
      have hsize : (buddyGrow s p).size j = s.size j :=
        congrArg BuddyRegion.size (grow_region s p j hlt.ne)
      unfold Ends at hend
      rw [grow_pool_of_lt s p hlt, hsize] at hend
      rw [grow_pool_of_lt s p hlt] at hb
      exact hm F L h j hend c hc d hd hj hb

theorem Tiled.buddyMalloc_merged {r : ℕ × BuddyAllocator} (h : s.Tiled F L) (hm : s.Merged)
    (hpools : s.FreshPools pools) (hrun : RetroRocket.buddyMalloc s n pools = some r) :
    r.2.Merged := by
  let P : BuddyAllocator → ℕ → List ℕ → Prop := fun s i pools =>
    i < s.regions ∧ (∃ F L, s.Tiled F L) ∧ s.FreshPools pools ∧ s.Merged
  have hgrow : ∀ s pool pools, (∃ F L, s.Tiled F L) ∧ s.FreshPools (pool :: pools) ∧ s.Merged →
      P (buddyGrow s pool) s.regions pools := by
    rintro s pool pools ⟨⟨F, L, h⟩, hpools, hm⟩
    have hp := hpools.fresh pool List.mem_cons_self
    exact ⟨Nat.lt_succ_self s.regions, ⟨_, _, h.grow hp⟩, hpools.grow, h.grow_merged hm hp⟩
  obtain ⟨-, hmerged⟩ := buddyMalloc_rule (P := P) (Q := fun s _ => s.Merged)
    (fun s i pools hs hnext => ⟨hnext, hs.2⟩) (fun s i pool pools hs => hgrow s pool pools hs.2)
    (fun s i k cur pools ⟨hi, ⟨F, L, h⟩, hpools, hm⟩ hfind =>
      h.takeBlock_merged hm hi (findOrder_eq_some hfind).1 (findOrder_eq_some hfind).2.2)
    (fun s i pools hs => hs.2.2.2) hrun
    (fun i hactive => ⟨h.active i hactive, ⟨F, L, h⟩, hpools, hm⟩)
    (fun pool rest heq => hgrow s pool rest ⟨⟨F, L, h⟩, heq ▸ hpools, hm⟩) hm
  exact hmerged

end BuddyAllocator

/-! ## Runs -/

namespace BuddyLedger

open BuddyAllocator

variable {s t u : BuddyLedger} {heap : BuddyAllocator} {c : BuddyCall} {ptr n i : ℕ}
  {pools : List ℕ} {steps : List (BuddyLedger × BuddyCall)}

/-- What a region looks like with no buddies on its lists. When no block of it is in use it is one
free block. -/
structure Coalesced (s : BuddyLedger) (i : ℕ) : Prop where
  lists : ∀ k, ∃ xs, Linked 0 s.heap.next ((s.heap.region i).freeLists k) xs 0
  unpaired : ∀ k a b, s.heap.FreeAt i k a → s.heap.FreeAt i k b → a ≠ b →
    buddyOf (s.heap.region i) a k ≠ b
  whole : (∀ ptr ∈ s.live, (s.heap.cell ptr).region ≠ i) →
    s.heap.size i = 2 ^ s.heap.growOrder ∧
      ∀ k, Linked 0 s.heap.next ((s.heap.region i).freeLists k)
        (if k = s.heap.growOrder then [s.heap.pool i] else []) 0

theorem Inv.tiled (h : s.Inv) : ∃ F, s.heap.Tiled F (s.live.map s.heap.cell) := by
  obtain ⟨F, htiled⟩ := h.session.tiled
  rw [session_cells] at htiled
  exact ⟨F, htiled⟩

theorem Inv.coalesced (h : s.Inv) (hm : s.heap.Merged) (hi : i < s.heap.regions)
    (hend : s.heap.Ends i) : s.Coalesced i := by
  obtain ⟨F, htiled⟩ := h.tiled
  have hnone := hm F _ htiled i hend
  refine ⟨fun k => ⟨_, htiled.linked i hi k⟩, fun k a b ha hb hne hbuddy => ?_, fun hlive => ?_⟩
  · rw [htiled.freeAt_iff hi] at ha hb
    exact hnone _ ha _ hb rfl (htiled.buddies_of_buddyOf (List.mem_append_left _ ha)
      (List.mem_append_left _ hb) hne hbuddy)
  · have hfree : ∀ c ∈ F ++ s.live.map s.heap.cell, c.region = i → c ∈ F := by
      intro c hc hregion
      refine (List.mem_append.mp hc).resolve_right fun hused => ?_
      obtain ⟨ptr, hptr, rfl⟩ := List.mem_map.mp hused
      exact hlive ptr hptr hregion
    have hsize := (htiled.uniform i hi).1
    refine ⟨hsize, fun k => ?_⟩
    have hwhole : ∀ c, c ∈ F ∧ c.region = i ↔ c = ⟨i, s.heap.pool i, s.heap.growOrder⟩ := by
      intro c
      rw [← htiled.tiling.eq_whole_of_no_buddies hi hsize]
      · constructor
        · exact fun hc => ⟨List.mem_append_left _ hc.1, hc.2⟩
        · exact fun hc => ⟨hfree c hc.1 hc.2, hc.2⟩
      · intro c hc d hd hregion hb
        have hregion' : d.region = i := hb.region.symm.trans hregion
        exact hnone c (hfree c hc hregion) d (hfree d hd hregion') hregion hb
    have hmem : ∀ a, a ∈ starts i k F ↔ a = s.heap.pool i ∧ k = s.heap.growOrder := by
      intro a
      rw [mem_starts]
      constructor
      · intro ha
        obtain ⟨-, hstart, horder⟩ := Cell.mk.inj ((hwhole _).mp ⟨ha, rfl⟩)
        exact ⟨hstart, horder⟩
      · rintro ⟨rfl, rfl⟩
        exact ((hwhole _).mpr rfl).1
    have hlist : starts i k F = if k = s.heap.growOrder then [s.heap.pool i] else [] := by
      split
      · next hk =>
        rw [← List.perm_singleton,
          List.perm_ext_iff_of_nodup (htiled.starts_nodup i k) (List.nodup_singleton _)]
        intro a
        rw [hmem, List.mem_singleton, and_iff_left hk]
      · next hk =>
        rw [List.eq_nil_iff_forall_not_mem]
        exact fun a ha => hk ((hmem a).mp ha).2
    rw [← hlist]
    exact htiled.linked i hi k

theorem Inv.malloc_merged (h : s.Inv) (hm : s.heap.Merged) (hpools : s.heap.FreshPools pools)
    (hrun : buddyMalloc s.heap n pools = some (ptr, heap)) : heap.Merged := by
  obtain ⟨F, htiled⟩ := h.tiled
  exact htiled.buddyMalloc_merged hm hpools hrun

theorem Inv.free_merged (h : s.Inv) (hm : s.heap.Merged) (hptr : ptr = 0 ∨ ptr ∈ s.live)
    (hrun : buddyFree s.heap ptr = some heap) : heap.Merged := by
  rcases hptr with rfl | hptr
  · obtain rfl := Option.some.inj hrun
    exact hm
  · have hmem := mem_session hptr
    obtain ⟨F, htiled⟩ := h.session.focus hmem
    have hlow := (h.session.large _ hmem).1
    dsimp only at hlow
    refine htiled.buddyFree_merged hm rfl rfl ?_
    rw [Nat.sub_add_cancel hlow]
    exact hrun

theorem Inv.realloc_merged (h : s.Inv) (hm : s.heap.Merged) (hptr : ptr = 0 ∨ ptr ∈ s.live)
    (hpools : s.heap.FreshPools pools) {new : ℕ}
    (hrun : buddyRealloc s.heap ptr n pools = some (new, heap)) : heap.Merged := by
  unfold buddyRealloc at hrun
  split at hrun
  · exact h.malloc_merged hm hpools hrun
  · next hne =>
    split at hrun
    · obtain ⟨heap', hfree, hrun⟩ := Option.bind_eq_some_iff.mp hrun
      obtain ⟨-, rfl⟩ := Prod.mk.inj (Option.some.inj hrun)
      exact h.free_merged hm hptr hfree
    · have hptr := hptr.resolve_left hne
      dsimp only at hrun
      rw [h.header hptr] at hrun
      obtain ⟨o, -, hrun⟩ := Option.bind_eq_some_iff.mp hrun
      split at hrun
      · obtain ⟨-, rfl⟩ := Prod.mk.inj (Option.some.inj hrun)
        exact hm
      · split at hrun
        · obtain ⟨-, rfl⟩ := Prod.mk.inj (Option.some.inj hrun)
          obtain ⟨F, htiled⟩ := h.session.focus (mem_session hptr)
          have hset := htiled.setHeader (ptr - 24)
            { s.heap.mem (ptr - 24) with order := o } rfl
          have hmset := htiled.merged_of_subset hm hset (store_sameRegions s.heap _ _)
            (List.Subset.refl F)
          exact Tiled.splitDown_merged _ hset hmset
        · obtain ⟨⟨new', heap'⟩, hmalloc, hrun⟩ := Option.bind_eq_some_iff.mp hrun
          obtain ⟨ptr', heap'', hmalloc', -, hkeeps⟩ := h.malloc n hpools
          obtain ⟨rfl, rfl⟩ := Prod.mk.inj (Option.some.inj (hmalloc.symm.trans hmalloc'))
          have hmerged := h.malloc_merged hm hpools hmalloc
          dsimp only at hrun
          split at hrun
          · obtain ⟨-, rfl⟩ := Prod.mk.inj (Option.some.inj hrun)
            exact hmerged
          · next hnew =>
            obtain ⟨heap'', hfree, hrun⟩ := Option.bind_eq_some_iff.mp hrun
            obtain ⟨-, rfl⟩ := Prod.mk.inj (Option.some.inj hrun)
            rw [if_neg hnew] at hkeeps
            exact hkeeps.inv.free_merged hmerged (Or.inr (List.mem_cons_of_mem _ hptr)) hfree

theorem Inv.call_merged (h : s.Inv) (hm : s.heap.Merged) (hallowed : s.Allowed c)
    (hcall : s.call c = some u) : u.heap.Merged := by
  cases c with
  | malloc size pools =>
    obtain ⟨⟨ptr, heap⟩, hrun, hu⟩ := Option.bind_eq_some_iff.mp hcall
    obtain rfl := Option.some.inj hu
    exact h.malloc_merged hm hallowed hrun
  | free ptr =>
    obtain ⟨heap, hrun, hu⟩ := Option.bind_eq_some_iff.mp hcall
    obtain rfl := Option.some.inj hu
    exact h.free_merged hm hallowed hrun
  | realloc ptr size pools =>
    obtain ⟨⟨new, heap⟩, hrun, hu⟩ := Option.bind_eq_some_iff.mp hcall
    obtain rfl := Option.some.inj hu
    exact h.realloc_merged hm hallowed.1 hallowed.2 hrun
  | write a header =>
    obtain rfl := Option.some.inj hcall
    obtain ⟨F, htiled, hstart⟩ := BuddySession.Inv.start_ne h.session (h.session_allowed hallowed)
    exact htiled.merged_of_subset hm (htiled.write header hstart)
      (store_sameRegions s.heap a header)
      (List.Subset.refl F)

theorem init_merged (s : BuddyAllocator) {minOrder maxOrder growOrder : ℕ}
    (hok : BuddyOrders minOrder maxOrder growOrder) :
    (init s minOrder maxOrder growOrder).heap.Merged := by
  obtain ⟨F, htiled⟩ := (init_inv s hok).tiled
  refine htiled.merged fun i hend c hc => ?_
  have hregion := htiled.free_region (List.mem_append_left _ hc)
  have hnone : (init s minOrder maxOrder growOrder).heap.regions = 0 :=
    congrArg BuddyAllocator.regions (BuddySession.buddyInit_eq s hok)
  omega

theorem Run.merged (h : s.Run steps t) (hs : s.Inv) (hm : s.heap.Merged) : t.heap.Merged := by
  induction h with
  | refl => exact hm
  | step hrun hallowed hcall ih => exact (hrun.inv hs).call_merged ih hallowed hcall

/-- In every state of a run no region has two buddies that are both free, and a region with no block
in use is one free block. -/
theorem run_coalesced (s : BuddyAllocator) {minOrder maxOrder growOrder : ℕ}
    (hok : BuddyOrders minOrder maxOrder growOrder)
    (hrun : (init s minOrder maxOrder growOrder).Run steps t) (hi : i < t.heap.regions)
    (hend : t.heap.pool i + t.heap.size i < 2 ^ 64) : t.Coalesced i :=
  (hrun.inv (init_inv s hok)).coalesced (hrun.merged (init_inv s hok) (init_merged s hok)) hi hend

/-- The 4 KiB of the only region, after its only block of 128 bytes is freed. -/
theorem run_coalesced_freed : (oneBlock.after (.free 4120)).Coalesced 0 := by
  have hrun := run_oneBlock.after (c := .free 4120) (Or.inr (by decide)) (by decide +kernel)
  exact run_coalesced BuddySession.noAllocator ⟨by decide, by decide, by decide, by decide⟩ hrun
    (by decide +kernel) (by decide +kernel)

end BuddyLedger

end RetroRocket
