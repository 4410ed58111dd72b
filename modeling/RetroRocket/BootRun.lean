import RetroRocket.BootLayout
import RetroRocket.HeapRun

/-!
# The heap from boot on

`init_heap` gives the allocator a list of regions, and the sessions that follow start from what it
leaves. When no region ends at the cursor as it is added, each of them keeps the integrity of the
heap, in the memory that the map lends to it.
-/

namespace RetroRocket

/-- The allocator is given these regions in order. -/
def addAll (heap : Allocator) : List (ℕ × ℕ) → Option Allocator
  | [] => some heap
  | r :: rest => do
    let (_, heap) ← allocatorAddRegion heap r.1 r.2
    addAll heap rest

/-- No region ends at the block of the cursor as it is added. -/
def SparesCursor (heap : Allocator) : List (ℕ × ℕ) → Prop
  | [] => True
  | r :: rest => heap.cursor ≠ r.1 + r.2 ∧
      ∀ ok heap', allocatorAddRegion heap r.1 r.2 = some (ok, heap') → SparesCursor heap' rest

theorem addAll_append {heap heap' heap'' : Allocator} {l l' : List (ℕ × ℕ)}
    (h : addAll heap l = some heap') (h' : addAll heap' l' = some heap'') :
    addAll heap (l ++ l') = some heap'' := by
  induction l generalizing heap with
  | nil =>
    obtain rfl := Option.some.inj h
    exact h'
  | cons r l ih =>
    obtain ⟨p, hp, hrest⟩ := Option.bind_eq_some_iff.mp h
    exact Option.bind_eq_some_iff.mpr ⟨p, hp, ih hrest⟩

namespace KernelHeap

variable {s t : KernelHeap} {e : MemmapEntry} {entries : List MemmapEntry} {ptrs : List ℕ}
  {mem : ℕ → Header}

theorem addRegion_addAll {base length : ℕ} (h : s.addRegion base length = some t) :
    addAll s.heap (longRange (base, length)) = some t.heap := by
  unfold addRegion at h
  unfold longRange
  split_ifs at h ⊢ with hlong
  · obtain ⟨p, hp, ht⟩ := Option.bind_eq_some_iff.mp h
    obtain rfl := Option.some.inj ht
    exact Option.bind_eq_some_iff.mpr ⟨p, hp, rfl⟩
  · obtain rfl := Option.some.inj h
    rfl

theorem addUsable_addAll (h : s.addUsable e = some t) :
    addAll s.heap (aroundLow s.lowHeapStart s.lowHeapMax e) = some t.heap := by
  simp only [addUsable, addBelow_eq, addAbove_eq, Option.bind_eq_bind] at h
  obtain ⟨u, hu, ht⟩ := Option.bind_eq_some_iff.mp h
  have hut := addRegion_addAll ht
  rw [(addRegion_extends hu).lowHeapMax] at hut
  exact addAll_append (addRegion_addAll hu) hut

theorem addUsableEntries_addAll {bestIdx : ℕ} (rest : List (MemmapEntry × ℕ))
    (h : addUsableEntries bestIdx s rest = some t) :
    addAll s.heap (rest.flatMap (otherRegions bestIdx s.lowHeapStart s.lowHeapMax)) =
      some t.heap := by
  induction rest generalizing s with
  | nil =>
    obtain rfl := Option.some.inj h
    rfl
  | cons p rest ih =>
    rw [List.flatMap_cons]
    simp only [addUsableEntries, Option.bind_eq_bind] at h
    unfold otherRegions
    split_ifs at h ⊢ with hskip
    · exact ih h
    · obtain ⟨u, hu, ht⟩ := Option.bind_eq_some_iff.mp h
      have hsu := addUsable_extends hu
      have hut := ih ht
      rw [hsu.lowHeapStart, hsu.lowHeapMax] at hut
      exact addAll_append (addUsable_addAll hu) hut

theorem reclaimEntries_addAll (rest : List MemmapEntry) (h : reclaimEntries ptrs s rest = some t) :
    addAll s.heap (rest.flatMap (reclaimedRegions ptrs)) = some t.heap := by
  induction rest generalizing s with
  | nil =>
    obtain rfl := Option.some.inj h
    rfl
  | cons e rest ih =>
    rw [List.flatMap_cons]
    simp only [reclaimEntries, Option.bind_eq_bind] at h
    unfold reclaimedRegions
    split_ifs at h ⊢ with hskip
    · exact ih h
    · obtain ⟨u, hu, ht⟩ := Option.bind_eq_some_iff.mp h
      exact addAll_append (addRegion_addAll hu) (ih ht)

theorem addAll_of_initHeap (h : initHeap mem entries ptrs = some s) :
    ∃ primary rest, s.regions = primary :: rest ∧ primary.1 ≠ 0 ∧ 24 < primary.2 ∧
      addAll (allocatorInit mem primary.1 primary.2 8) rest = some s.heap := by
  unfold initHeap at h
  rw [Option.bind_eq_bind, Option.bind_eq_some_iff] at h
  obtain ⟨start, -, h⟩ := h
  dsimp only at h
  rw [Option.bind_eq_some_iff] at h
  obtain ⟨bestIdx, -, h⟩ := h
  generalize hprimary : primaryRegion (u32 start) (u32 (start + lowHeapSize))
    (findBestEntry entries).addr
    (u64 ((findBestEntry entries).addr + (findBestEntry entries).len)) = primary at h
  split_ifs at h with hsmall hshort
  rw [Option.bind_eq_bind, Option.bind_eq_some_iff] at h
  obtain ⟨t, ht, hs⟩ := h
  have hregions := ((addUsableEntries_extends _ ht).trans (reclaimEntries_extends _ hs)).regions
  rw [List.singleton_append] at hregions
  rw [← hprimary, not_le] at hshort
  have hwithin := (primaryRegion_spec hshort).1.1
  rw [hprimary] at hshort hwithin
  exact ⟨primary, _, hregions, by omega, hshort,
    addAll_append (addUsableEntries_addAll _ ht) (reclaimEntries_addAll _ hs)⟩

end KernelHeap

namespace Session

variable {s t : Session} {xs : List ℕ}

theorem Inv.addAll (h : s.Inv xs) (l : List (ℕ × ℕ)) (hend : ∀ r ∈ l, r.1 + r.2 ≤ 2 ^ 64)
    (hpair : l.Pairwise RangesApart)
    (hapart : ∀ r ∈ l, ∀ q ∈ s.regions, RangesApart r (q.start, q.size))
    (hspares : SparesCursor s.heap l) {heap : Allocator}
    (hadd : RetroRocket.addAll s.heap l = some heap) :
    ∃ regions ys, (⟨heap, regions, s.live⟩ : Session).Inv ys ∧
      ∀ q ∈ regions, q ∈ s.regions ∨ (q.start, q.size) ∈ l := by
  induction l generalizing s xs with
  | nil =>
    obtain rfl := Option.some.inj hadd
    exact ⟨s.regions, xs, h, fun q hq => Or.inl hq⟩
  | cons r l ih =>
    rw [List.forall_mem_cons] at hend hapart
    obtain ⟨hfirst, hpair⟩ := List.pairwise_cons.mp hpair
    obtain ⟨hcursor, hrest⟩ := hspares
    have hreg : s.Safe (.addRegion ⟨r.1, r.2, hend.1⟩) := fun hbad => hcursor hbad.1
    obtain ⟨u, ys, hcall, hu⟩ := h.addRegion (fun q hq a ha => hapart.1 q hq a ha) hreg
    obtain ⟨⟨ok, added⟩, hadded, hu'⟩ := Option.bind_eq_some_iff.mp hcall
    obtain rfl := Option.some.inj hu'
    obtain ⟨p, hp, hadd⟩ := Option.bind_eq_some_iff.mp hadd
    obtain rfl := Option.some.inj (hadded.symm.trans hp)
    have hregions : ∀ q ∈ (if ok then (⟨r.1, r.2, hend.1⟩ : Region) :: s.regions else s.regions),
        q ∈ s.regions ∨ (q.start, q.size) = r := by
      intro q hq
      split at hq
      · rcases List.mem_cons.mp hq with rfl | hq
        · exact Or.inr rfl
        · exact Or.inl hq
      · exact Or.inl hq
    obtain ⟨regions, zs, hinv, hsub⟩ := ih hu hend.2 hpair (fun r' hr' q hq => by
      rcases hregions q hq with hq | heq
      · exact hapart.2 r' hr' q hq
      · rw [heq]
        exact (hfirst r' hr').symm) (hrest ok added hadded) hadd
    refine ⟨regions, zs, hinv, fun q hq => ?_⟩
    rcases hsub q hq with hq | hq
    · exact (hregions q hq).imp_right fun heq => List.mem_cons.mpr (Or.inl heq)
    · exact Or.inr (List.mem_cons_of_mem _ hq)

/-- The calls of `kmalloc` and `kfree` and the writes of a client. -/
def Serves (s : Session) (c : Call) : Prop := s.Safe c ∧ ∀ reg, c ≠ .addRegion reg

theorem regions_of_call {c : Call} (h : s.call c = some t) (hc : ∀ reg, c ≠ .addRegion reg) :
    t.regions = s.regions := by
  cases c with
  | addRegion reg => exact absurd rfl (hc reg)
  | write a header =>
    obtain rfl := Option.some.inj h
    rfl
  | alloc size | free ptr =>
    obtain ⟨p, -, ht⟩ := Option.bind_eq_some_iff.mp h
    obtain rfl := Option.some.inj ht
    rfl

theorem Inv.run_serves (h : s.Inv xs) (hrun : s.Run Serves t) :
    t.regions = s.regions ∧ ∃ ys, t.Inv ys := by
  induction hrun with
  | refl => exact ⟨rfl, xs, h⟩
  | step _ hallowed hserves hcall ih =>
    obtain ⟨hregions, ys, hinv⟩ := ih
    obtain ⟨u, zs, hrun, hu⟩ := hinv.call hallowed hserves.1
    obtain rfl := Option.some.inj (hrun.symm.trans hcall)
    exact ⟨(regions_of_call hcall hserves.2).trans hregions, zs, hu⟩

end Session

namespace KernelHeap

variable {s : KernelHeap} {entries : List MemmapEntry} {ptrs : List ℕ} {mem : ℕ → Header}

end KernelHeap

end RetroRocket
