import Mathlib.Data.List.Pairwise
import RetroRocket.KernelHeap

/-!
# The layout that `init_heap` leaves

The regions given to the allocator are a function of the memory map (`regions_of_initHeap`): the
primary region, what the other usable entries have on the two sides of the low heap, and the entries
reclaimed. They are apart and spare the low heap exactly when the low heap does not end at 4 GB,
where its 32-bit end is zero. `kmalloc_low` stays inside its window as long as its 32-bit sum does
not wrap.
-/

namespace RetroRocket

def Occupies (r : ℕ × ℕ) (a : ℕ) : Prop := r.1 ≤ a ∧ a < r.1 + r.2

def RangesApart (r r' : ℕ × ℕ) : Prop := ∀ a, Occupies r a → ¬ Occupies r' a

def RangeWithin (r r' : ℕ × ℕ) : Prop := r'.1 ≤ r.1 ∧ r.1 + r.2 ≤ r'.1 + r'.2

section Ranges

variable {q q' r r' : ℕ × ℕ}

theorem RangesApart.symm (h : RangesApart r r') : RangesApart r' r := fun a ha ha' => h a ha' ha

theorem RangesApart.within (h : RangesApart r r') (hq : RangeWithin q r) (hq' : RangeWithin q' r') :
    RangesApart q q' := by
  intro a ha ha'
  simp only [Occupies, RangeWithin] at *
  exact h a (by simp only [Occupies]; omega) (by simp only [Occupies]; omega)

theorem rangesApart_of_le (h : r.1 + r.2 ≤ r'.1) : RangesApart r r' := by
  intro a ha ha'
  simp only [Occupies] at ha ha'
  omega

end Ranges

namespace MemmapEntry

def range (e : MemmapEntry) : ℕ × ℕ := (e.base, e.length)

def Heapable (e : MemmapEntry) : Prop := e.type = .usable ∨ e.type = .bootloaderReclaimable

end MemmapEntry

def EntriesApart (entries : List MemmapEntry) : Prop :=
  entries.Pairwise fun e f => e.Heapable → f.Heapable → RangesApart e.range f.range

theorem EntriesApart.of_ne {entries : List MemmapEntry} (hmap : EntriesApart entries) {i j : ℕ}
    {e f : MemmapEntry} (hi : entries[i]? = some e) (hj : entries[j]? = some f) (hne : i ≠ j)
    (he : e.Heapable) (hf : f.Heapable) : RangesApart e.range f.range := by
  obtain ⟨hilt, rfl⟩ := List.getElem?_eq_some_iff.mp hi
  obtain ⟨hjlt, rfl⟩ := List.getElem?_eq_some_iff.mp hj
  have hpair := List.pairwise_iff_getElem.mp hmap
  rcases Nat.lt_or_gt_of_ne hne with hlt | hlt
  · exact hpair i j hilt hjlt hlt he hf
  · exact (hpair j i hjlt hilt hlt hf he).symm

/-! ## What the loops choose -/

theorem lowHeapIn_spec {e : MemmapEntry} {start : ℕ} (h : lowHeapIn e = some start) :
    e.type = .usable ∧ e.base ≤ start ∧ start + lowHeapSize ≤ 2 ^ 32 ∧
      start + lowHeapSize ≤ u64 (e.base + e.length) := by
  unfold lowHeapIn at h
  dsimp only at h
  by_cases hentry : e.type ≠ .usable ∨ fourGbBoundary ≤ e.base
  · rw [if_pos hentry] at h
    cases h
  rw [if_neg hentry] at h
  have hcut : ∀ stop, (if fourGbBoundary < stop then fourGbBoundary else stop) =
      min fourGbBoundary stop := by
    intro stop
    split_ifs <;> omega
  rw [hcut] at h
  generalize hstop : u64 (e.base + e.length) = stop at h ⊢
  by_cases hlong : e.base < min fourGbBoundary stop ∧
      lowHeapSize ≤ min fourGbBoundary stop - e.base
  · rw [if_pos hlong] at h
    obtain ⟨hrest, hstart⟩ := Option.ite_none_right_eq_some.mp h
    obtain rfl := Option.some.inj hstart
    simp only [lowHeapSize, fourGbBoundary, u64, sub64, not_or, not_not] at *
    exact ⟨hentry.1, by omega, by omega, by omega⟩
  · rw [if_neg hlong] at h
    cases h

theorem findLowHeap_spec {entries : List MemmapEntry} {start : ℕ}
    (h : findLowHeap entries = some start) : ∃ e ∈ entries, lowHeapIn e = some start :=
  List.exists_of_findSome?_eq_some h

theorem betterEntry_spec {entries : List MemmapEntry} (l : List (MemmapEntry × ℕ))
    (hl : ∀ p ∈ l, entries[p.2]? = some p.1) (best : BestEntry)
    (hbest : ∀ i, best.idx = some i → ∃ e, entries[i]? = some e ∧ e.type = .usable ∧
      best.addr = e.base ∧ best.len = e.length) :
    ∀ i, (l.foldl betterEntry best).idx = some i → ∃ e, entries[i]? = some e ∧ e.type = .usable ∧
      (l.foldl betterEntry best).addr = e.base ∧ (l.foldl betterEntry best).len = e.length := by
  induction l generalizing best with
  | nil => exact hbest
  | cons p l ih =>
    rw [List.foldl_cons]
    apply ih (fun q hq => hl q (List.mem_cons_of_mem _ hq))
    intro i hi
    unfold betterEntry at hi ⊢
    split_ifs at hi ⊢ with hp
    · obtain rfl := Option.some.inj hi
      exact ⟨p.1, hl p List.mem_cons_self, hp.1, rfl, rfl⟩
    · exact hbest i hi

theorem findBestEntry_spec {entries : List MemmapEntry} {i : ℕ}
    (h : (findBestEntry entries).idx = some i) :
    ∃ e, entries[i]? = some e ∧ e.type = .usable ∧ (findBestEntry entries).addr = e.base ∧
      (findBestEntry entries).len = e.length :=
  betterEntry_spec entries.zipIdx (fun _ hp => List.mem_zipIdx_iff_getElem?.mp hp) _
    (fun j hj => by cases hj) i h

/-! ## The regions as a function of the map -/

def longRange (r : ℕ × ℕ) : List (ℕ × ℕ) := if 24 < r.2 then [r] else []

theorem mem_longRange {r q : ℕ × ℕ} : q ∈ longRange r ↔ q = r ∧ 24 < r.2 := by
  unfold longRange
  split_ifs with h <;> simp [h]

def belowLow (lowHeapStart : ℕ) (e : MemmapEntry) : ℕ × ℕ :=
  (e.base, min (u64 (e.base + e.length)) lowHeapStart - e.base)

def aboveLow (lowHeapMax : ℕ) (e : MemmapEntry) : ℕ × ℕ :=
  (max lowHeapMax e.base, u64 (e.base + e.length) - max lowHeapMax e.base)

def aroundLow (lowHeapStart lowHeapMax : ℕ) (e : MemmapEntry) : List (ℕ × ℕ) :=
  longRange (belowLow lowHeapStart e) ++ longRange (aboveLow lowHeapMax e)

def otherRegions (bestIdx lowHeapStart lowHeapMax : ℕ) (p : MemmapEntry × ℕ) : List (ℕ × ℕ) :=
  if p.2 = bestIdx ∨ p.1.type ≠ .usable then [] else aroundLow lowHeapStart lowHeapMax p.1

def reclaimedRegions (ptrs : List ℕ) (e : MemmapEntry) : List (ℕ × ℕ) :=
  if e.type ≠ .bootloaderReclaimable ∨ e.length < blrMinReclaim ∨ KernelHeap.hits ptrs e then []
  else longRange e.range

namespace KernelHeap

variable {s t u : KernelHeap} {e : MemmapEntry} {entries : List MemmapEntry} {ptrs : List ℕ}
  {l l' : List (ℕ × ℕ)}

structure Extends (s t : KernelHeap) (added : List (ℕ × ℕ)) : Prop where
  regions : t.regions = s.regions ++ added
  lowHeapStart : t.lowHeapStart = s.lowHeapStart
  lowHeapMax : t.lowHeapMax = s.lowHeapMax
  lowMemCur : t.lowMemCur = s.lowMemCur

theorem Extends.refl (s : KernelHeap) : s.Extends s [] := ⟨by simp, rfl, rfl, rfl⟩

theorem Extends.trans (h : s.Extends t l) (h' : t.Extends u l') : s.Extends u (l ++ l') where
  regions := by rw [h'.regions, h.regions, List.append_assoc]
  lowHeapStart := h'.lowHeapStart.trans h.lowHeapStart
  lowHeapMax := h'.lowHeapMax.trans h.lowHeapMax
  lowMemCur := h'.lowMemCur.trans h.lowMemCur

theorem addRegion_extends {base length : ℕ} (h : s.addRegion base length = some t) :
    s.Extends t (longRange (base, length)) := by
  unfold addRegion at h
  unfold longRange
  split_ifs at h ⊢ with hlong
  · cases hadd : allocatorAddRegion s.heap base length with
    | none => simp [hadd] at h
    | some p =>
      simp only [hadd, Option.bind_eq_bind, Option.bind_some, Option.some.injEq] at h
      subst h
      exact ⟨rfl, rfl, rfl, rfl⟩
  · obtain rfl := Option.some.inj h
    exact Extends.refl s

theorem addRegion_zero (s : KernelHeap) (base : ℕ) : s.addRegion base 0 = some s := rfl

theorem addBelow_eq (s : KernelHeap) (base stop : ℕ) :
    s.addBelow base stop = s.addRegion base (min stop s.lowHeapStart - base) := by
  unfold addBelow
  dsimp only
  split_ifs with hlow hstop hseg
  · rw [min_eq_left hstop.le]
  · rw [Nat.sub_eq_zero_of_le (by omega), addRegion_zero]
  · rw [min_eq_right (by omega)]
  · rw [Nat.sub_eq_zero_of_le (by omega), addRegion_zero]

theorem addAbove_eq (s : KernelHeap) (base stop : ℕ) : s.addAbove base stop =
    s.addRegion (max s.lowHeapMax base) (stop - max s.lowHeapMax base) := by
  unfold addAbove
  dsimp only
  split_ifs with hstop hmax hseg
  · rw [max_eq_right hmax.le]
  · rw [Nat.sub_eq_zero_of_le (by omega), addRegion_zero]
  · rw [max_eq_left (by omega)]
  · rw [Nat.sub_eq_zero_of_le (by omega), addRegion_zero]

theorem addUsable_extends (h : s.addUsable e = some t) :
    s.Extends t (aroundLow s.lowHeapStart s.lowHeapMax e) := by
  simp only [addUsable, addBelow_eq, addAbove_eq, Option.bind_eq_bind] at h
  obtain ⟨u, hu, ht⟩ := Option.bind_eq_some_iff.mp h
  have hsu := addRegion_extends hu
  have hut := addRegion_extends ht
  rw [hsu.lowHeapMax] at hut
  exact hsu.trans hut

theorem addUsableEntries_extends {bestIdx : ℕ} (rest : List (MemmapEntry × ℕ))
    (h : addUsableEntries bestIdx s rest = some t) :
    s.Extends t (rest.flatMap (otherRegions bestIdx s.lowHeapStart s.lowHeapMax)) := by
  induction rest generalizing s with
  | nil =>
    obtain rfl := Option.some.inj h
    exact Extends.refl s
  | cons p rest ih =>
    rw [List.flatMap_cons]
    simp only [addUsableEntries, Option.bind_eq_bind] at h
    unfold otherRegions
    split_ifs at h ⊢ with hskip
    · exact ih h
    · obtain ⟨u, hu, ht⟩ := Option.bind_eq_some_iff.mp h
      have hsu := addUsable_extends hu
      have hut := ih ht
      rw [hsu.lowHeapStart, hsu.lowHeapMax] at hut
      exact hsu.trans hut

theorem reclaimEntries_extends (rest : List MemmapEntry) (h : reclaimEntries ptrs s rest = some t) :
    s.Extends t (rest.flatMap (reclaimedRegions ptrs)) := by
  induction rest generalizing s with
  | nil =>
    obtain rfl := Option.some.inj h
    exact Extends.refl s
  | cons e rest ih =>
    rw [List.flatMap_cons]
    simp only [reclaimEntries, Option.bind_eq_bind] at h
    unfold reclaimedRegions
    split_ifs at h ⊢ with hskip
    · exact ih h
    · obtain ⟨u, hu, ht⟩ := Option.bind_eq_some_iff.mp h
      exact (addRegion_extends hu).trans (ih ht)

theorem primaryRegion_spec {lo hi bbase bend : ℕ}
    (hlong : 24 < (primaryRegion lo hi bbase bend).2) :
    RangeWithin (primaryRegion lo hi bbase bend) (bbase, bend - bbase) ∧
      (lo ≤ hi → RangesApart (primaryRegion lo hi bbase bend) (lo, hi - lo)) ∧
      (hi = 0 → lo < bend → primaryRegion lo hi bbase bend = (bbase, bend - bbase)) := by
  generalize hr : primaryRegion lo hi bbase bend = r at hlong
  unfold primaryRegion at hr
  dsimp only at hr
  have hleft : (if bbase < (if bbase < lo then if lo < bend then lo else bend else bbase)
      then (if bbase < lo then if lo < bend then lo else bend else bbase) - bbase
      else 0) = min lo bend - bbase := by
    split_ifs <;> omega
  have hright : (if (if bbase < hi then if hi < bend then hi else bend else bbase) < bend
      then bend - (if bbase < hi then if hi < bend then hi else bend else bbase)
      else 0) = bend - max hi bbase := by
    split_ifs <;> omega
  rw [hleft, hright] at hr
  by_cases hside : bend - max hi bbase ≤ min lo bend - bbase
  · rw [if_pos hside] at hr
    subst hr
    simp only [RangeWithin, RangesApart, Occupies, Prod.mk.injEq] at hlong ⊢
    refine ⟨by omega, fun _ a _ => by omega, fun hhi hlo => ?_⟩
    rw [hhi, Nat.zero_max] at hside
    omega
  · rw [if_neg hside] at hr
    have hright :
        (if bbase < hi then if hi < bend then hi else bend else bbase) = max hi bbase := by
      split_ifs <;> omega
    rw [hright] at hr
    subst hr
    simp only [RangeWithin, RangesApart, Occupies, Prod.mk.injEq] at hlong ⊢
    refine ⟨by omega, fun _ a _ => by omega, fun hhi hlo => ?_⟩
    rw [hhi, Nat.zero_max]
    exact ⟨rfl, rfl⟩

/-- The state behind `init_heap`, with the entry of the low heap and the largest usable one. -/
structure BootedFrom (s : KernelHeap) (entries : List MemmapEntry) (ptrs : List ℕ)
    (low best : MemmapEntry) (bestIdx : ℕ) : Prop where
  low_mem : low ∈ entries
  low_in : lowHeapIn low = some s.lowHeapStart
  max_eq : s.lowHeapMax = u32 (s.lowHeapStart + lowHeapSize)
  cur_eq : s.lowMemCur = s.lowHeapStart
  best_at : entries[bestIdx]? = some best
  best_usable : best.type = .usable
  primary_long : 24 < (primaryRegion s.lowHeapStart s.lowHeapMax best.base
    (u64 (best.base + best.length))).2
  regions_eq : s.regions = primaryRegion s.lowHeapStart s.lowHeapMax best.base
      (u64 (best.base + best.length)) ::
    (entries.zipIdx.flatMap (otherRegions bestIdx s.lowHeapStart s.lowHeapMax) ++
      entries.flatMap (reclaimedRegions ptrs))

theorem bootedFrom_of_initHeap {mem : ℕ → Header} (h : initHeap mem entries ptrs = some s) :
    ∃ low best bestIdx, s.BootedFrom entries ptrs low best bestIdx := by
  unfold initHeap at h
  rw [Option.bind_eq_bind, Option.bind_eq_some_iff] at h
  obtain ⟨start, hstart, h⟩ := h
  dsimp only at h
  rw [Option.bind_eq_some_iff] at h
  obtain ⟨bestIdx, hidx, h⟩ := h
  obtain ⟨low, hlow, hlowIn⟩ := findLowHeap_spec hstart
  obtain ⟨best, hbest, husable, haddr, hlen⟩ := findBestEntry_spec hidx
  have hfits := (lowHeapIn_spec hlowIn).2.2.1
  have hstart32 : u32 start = start := u32_of_lt (by unfold lowHeapSize at hfits; omega)
  rw [haddr, hlen, hstart32] at h
  generalize hhi : u32 (start + lowHeapSize) = hi at h
  generalize hprimary : primaryRegion start hi best.base (u64 (best.base + best.length)) = r at h
  split_ifs at h with hsmall hshort
  rw [Option.bind_eq_bind, Option.bind_eq_some_iff] at h
  obtain ⟨t, ht, hs⟩ := h
  have hadded := (addUsableEntries_extends _ ht).trans (reclaimEntries_extends _ hs)
  refine ⟨low, best, bestIdx, hlow, ?_, ?_, ?_, hbest, husable, ?_, ?_⟩
  · rw [hadded.lowHeapStart, hlowIn]
  · rw [hadded.lowHeapMax, hadded.lowHeapStart, hhi]
  · rw [hadded.lowMemCur, hadded.lowHeapStart]
  · rw [hadded.lowHeapMax, hadded.lowHeapStart, hprimary]
    exact not_le.mp hshort
  · rw [hadded.regions, hadded.lowHeapMax, hadded.lowHeapStart, hprimary]
    rfl

/-! ## Apart and inside -/

/-- The window for `kmalloc_low`. -/
def lowWindow (s : KernelHeap) : ℕ × ℕ := (s.lowHeapStart, lowHeapSize)

structure LaidOut (s : KernelHeap) (entries : List MemmapEntry) : Prop where
  apart : s.regions.Pairwise RangesApart
  inside : ∀ r ∈ s.regions, ∃ e ∈ entries, e.Heapable ∧ RangeWithin r e.range
  low : ∀ r ∈ s.regions, RangesApart r s.lowWindow

theorem mem_otherRegions {bestIdx lo hi : ℕ} {p : MemmapEntry × ℕ} {r : ℕ × ℕ}
    (hr : r ∈ otherRegions bestIdx lo hi p) :
    p.2 ≠ bestIdx ∧ p.1.type = .usable ∧ r ∈ aroundLow lo hi p.1 := by
  unfold otherRegions at hr
  split_ifs at hr with hskip
  · cases hr
  · rw [not_or, not_not] at hskip
    exact ⟨hskip.1, hskip.2, hr⟩

theorem mem_reclaimedRegions {r : ℕ × ℕ} (hr : r ∈ reclaimedRegions ptrs e) :
    e.type = .bootloaderReclaimable ∧ r = e.range := by
  unfold reclaimedRegions at hr
  split_ifs at hr with hskip
  · cases hr
  · rw [not_or, not_not] at hskip
    exact ⟨hskip.1, (mem_longRange.mp hr).1⟩

theorem aroundLow_within {lo hi : ℕ} {r : ℕ × ℕ} (hr : r ∈ aroundLow lo hi e) :
    RangeWithin r e.range := by
  have hle : u64 (e.base + e.length) ≤ e.base + e.length := Nat.mod_le _ _
  rcases List.mem_append.mp hr with hr | hr
  all_goals
    obtain ⟨rfl, hlong⟩ := mem_longRange.mp hr
    simp only [RangeWithin, belowLow, aboveLow, MemmapEntry.range] at hlong ⊢
    omega

theorem aroundLow_apart {lo hi : ℕ} (hlohi : lo ≤ hi) :
    (aroundLow lo hi e).Pairwise RangesApart ∧
      ∀ r ∈ aroundLow lo hi e, RangesApart r (lo, hi - lo) := by
  have hbelow : ∀ r ∈ longRange (belowLow lo e), r.1 + r.2 ≤ lo := by
    intro r hr
    obtain ⟨rfl, hlong⟩ := mem_longRange.mp hr
    simp only [belowLow] at hlong ⊢
    omega
  have habove : ∀ r ∈ longRange (aboveLow hi e), hi ≤ r.1 := by
    intro r hr
    obtain ⟨rfl, -⟩ := mem_longRange.mp hr
    exact le_max_left _ _
  have hsingle : ∀ r, (longRange r).Pairwise RangesApart := by
    intro r
    unfold longRange
    split_ifs <;> simp
  refine ⟨List.pairwise_append.mpr ⟨hsingle _, hsingle _, fun r hr r' hr' => ?_⟩, fun r hr => ?_⟩
  · exact rangesApart_of_le ((hbelow r hr).trans (hlohi.trans (habove r' hr')))
  · rcases List.mem_append.mp hr with hr | hr
    · exact rangesApart_of_le (hbelow r hr)
    · refine (rangesApart_of_le ?_).symm
      have := habove r hr
      dsimp only
      omega

namespace BootedFrom

variable {low best : MemmapEntry} {bestIdx : ℕ}

theorem lowWindow_within (h : s.BootedFrom entries ptrs low best bestIdx) :
    low.Heapable ∧ RangeWithin s.lowWindow low.range := by
  obtain ⟨husable, hbase, -, hstop⟩ := lowHeapIn_spec h.low_in
  have hle : u64 (low.base + low.length) ≤ low.base + low.length := Nat.mod_le _ _
  refine ⟨Or.inl husable, ?_⟩
  simp only [RangeWithin, lowWindow, MemmapEntry.range]
  omega

theorem best_heapable (h : s.BootedFrom entries ptrs low best bestIdx) : best.Heapable :=
  Or.inl h.best_usable

theorem primary_within (h : s.BootedFrom entries ptrs low best bestIdx) :
    RangeWithin (primaryRegion s.lowHeapStart s.lowHeapMax best.base
      (u64 (best.base + best.length))) best.range := by
  have hle : u64 (best.base + best.length) ≤ best.base + best.length := Nat.mod_le _ _
  have hlong := h.primary_long
  have hwithin := (primaryRegion_spec hlong).1
  simp only [RangeWithin, MemmapEntry.range] at hwithin ⊢
  omega

theorem others_apart (hmap : EntriesApart entries) {lo hi : ℕ} (hlohi : lo ≤ hi) :
    (entries.zipIdx.flatMap (otherRegions bestIdx lo hi)).Pairwise RangesApart := by
  rw [List.pairwise_flatMap]
  constructor
  · intro p _
    unfold otherRegions
    split_ifs
    · exact List.Pairwise.nil
    · exact (aroundLow_apart hlohi).1
  · have hzip : entries.zipIdx.Pairwise fun p q =>
        p.1.Heapable → q.1.Heapable → RangesApart p.1.range q.1.range := by
      unfold EntriesApart at hmap
      rw [← List.zipIdx_map_fst 0 entries, List.pairwise_map] at hmap
      exact hmap
    apply hzip.imp
    intro p q hpq r hr r' hr'
    obtain ⟨-, hp, hr⟩ := mem_otherRegions hr
    obtain ⟨-, hq, hr'⟩ := mem_otherRegions hr'
    exact (hpq (Or.inl hp) (Or.inl hq)).within (aroundLow_within hr) (aroundLow_within hr')

theorem reclaimed_apart (hmap : EntriesApart entries) :
    (entries.flatMap (reclaimedRegions ptrs)).Pairwise RangesApart := by
  rw [List.pairwise_flatMap]
  constructor
  · intro e _
    unfold reclaimedRegions longRange
    split_ifs <;> simp
  · apply hmap.imp
    intro e f hef r hr r' hr'
    obtain ⟨he, rfl⟩ := mem_reclaimedRegions hr
    obtain ⟨hf, rfl⟩ := mem_reclaimedRegions hr'
    exact hef (Or.inr he) (Or.inr hf)

theorem mem_rest {lo hi : ℕ} {r : ℕ × ℕ}
    (hr : r ∈ entries.zipIdx.flatMap (otherRegions bestIdx lo hi) ++
      entries.flatMap (reclaimedRegions ptrs)) :
    ∃ i e, entries[i]? = some e ∧ i ≠ bestIdx ∧ e.type = .usable ∧ r ∈ aroundLow lo hi e ∨
      entries[i]? = some e ∧ e.type = .bootloaderReclaimable ∧ r = e.range := by
  rcases List.mem_append.mp hr with hr | hr
  · obtain ⟨p, hp, hr⟩ := List.mem_flatMap.mp hr
    obtain ⟨hne, husable, hr⟩ := mem_otherRegions hr
    exact ⟨p.2, p.1, Or.inl ⟨List.mem_zipIdx_iff_getElem?.mp hp, hne, husable, hr⟩⟩
  · obtain ⟨e, he, hr⟩ := List.mem_flatMap.mp hr
    obtain ⟨i, hi⟩ := List.mem_iff_getElem?.mp he
    obtain ⟨htype, rfl⟩ := mem_reclaimedRegions hr
    exact ⟨i, e, Or.inr ⟨hi, htype, rfl⟩⟩

theorem ne_of_type {i j : ℕ} {e f : MemmapEntry} (hi : entries[i]? = some e)
    (hj : entries[j]? = some f) (he : e.type = .usable) (hf : f.type = .bootloaderReclaimable) :
    i ≠ j := by
  rintro rfl
  obtain rfl := Option.some.inj (hi.symm.trans hj)
  rw [he] at hf
  cases hf

theorem laidOut (h : s.BootedFrom entries ptrs low best bestIdx) (hmap : EntriesApart entries)
    (hlow : s.lowHeapStart + lowHeapSize < 2 ^ 32) : s.LaidOut entries := by
  have hmax : s.lowHeapMax = s.lowHeapStart + lowHeapSize := by rw [h.max_eq, u32_of_lt hlow]
  have hlohi : s.lowHeapStart ≤ s.lowHeapMax := by omega
  have hwindow : s.lowWindow = (s.lowHeapStart, s.lowHeapMax - s.lowHeapStart) := by
    rw [hmax, Nat.add_sub_cancel_left]
    rfl
  obtain ⟨lowIdx, hlowIdx⟩ := List.mem_iff_getElem?.mp h.low_mem
  obtain ⟨hlowHeapable, hlowWithin⟩ := h.lowWindow_within
  have hlowUsable := (lowHeapIn_spec h.low_in).1
  have hprimary := h.primary_within
  refine ⟨?_, ?_, ?_⟩
  · rw [h.regions_eq, List.pairwise_cons, List.pairwise_append]
    refine ⟨fun r hr => ?_, others_apart hmap hlohi, reclaimed_apart hmap, fun r hr r' hr' => ?_⟩
    · obtain ⟨i, e, ⟨hi, hne, husable, hr⟩ | ⟨hi, htype, rfl⟩⟩ := mem_rest hr
      · exact (hmap.of_ne h.best_at hi hne.symm h.best_heapable (Or.inl husable)).within
          hprimary (aroundLow_within hr)
      · exact (hmap.of_ne h.best_at hi (ne_of_type h.best_at hi h.best_usable htype)
          h.best_heapable (Or.inr htype)).within hprimary ⟨le_rfl, le_rfl⟩
    · obtain ⟨p, hp, hr⟩ := List.mem_flatMap.mp hr
      obtain ⟨-, husable, hr⟩ := mem_otherRegions hr
      obtain ⟨f, hf, hr'⟩ := List.mem_flatMap.mp hr'
      obtain ⟨htype, rfl⟩ := mem_reclaimedRegions hr'
      obtain ⟨j, hj⟩ := List.mem_iff_getElem?.mp hf
      have hi := List.mem_zipIdx_iff_getElem?.mp hp
      exact (hmap.of_ne hi hj (ne_of_type hi hj husable htype) (Or.inl husable)
        (Or.inr htype)).within (aroundLow_within hr) ⟨le_rfl, le_rfl⟩
  · rw [h.regions_eq, List.forall_mem_cons]
    refine ⟨⟨best, List.mem_of_getElem? h.best_at, h.best_heapable, hprimary⟩, fun r hr => ?_⟩
    obtain ⟨i, e, ⟨hi, -, husable, hr⟩ | ⟨hi, htype, rfl⟩⟩ := mem_rest hr
    · exact ⟨e, List.mem_of_getElem? hi, Or.inl husable, aroundLow_within hr⟩
    · exact ⟨e, List.mem_of_getElem? hi, Or.inr htype, le_rfl, le_rfl⟩
  · rw [h.regions_eq, List.forall_mem_cons]
    refine ⟨?_, fun r hr => ?_⟩
    · rw [hwindow]
      exact (primaryRegion_spec h.primary_long).2.1 hlohi
    · obtain ⟨i, e, ⟨hi, -, husable, hr⟩ | ⟨hi, htype, rfl⟩⟩ := mem_rest hr
      · rw [hwindow]
        exact (aroundLow_apart hlohi).2 r hr
      · exact ((hmap.of_ne hlowIdx hi (ne_of_type hlowIdx hi hlowUsable htype) hlowHeapable
          (Or.inr htype)).within hlowWithin ⟨le_rfl, le_rfl⟩).symm

theorem exists_region_of_top (h : s.BootedFrom entries ptrs low best bestIdx)
    (htop : s.lowHeapStart + lowHeapSize = 2 ^ 32) :
    ∃ r ∈ s.regions, Occupies r s.lowHeapStart := by
  have hmax : s.lowHeapMax = 0 := by rw [h.max_eq, htop]; rfl
  obtain ⟨lowIdx, hlowIdx⟩ := List.mem_iff_getElem?.mp h.low_mem
  obtain ⟨husable, hbase, -, hstop⟩ := lowHeapIn_spec h.low_in
  have hle : u64 (low.base + low.length) ≤ low.base + low.length := Nat.mod_le _ _
  have hsize : lowHeapSize = 12582912 := rfl
  rw [h.regions_eq]
  by_cases hbest : lowIdx = bestIdx
  · obtain rfl : low = best := by
      rw [hbest, h.best_at] at hlowIdx
      exact (Option.some.inj hlowIdx).symm
    refine ⟨_, List.mem_cons_self, ?_⟩
    rw [(primaryRegion_spec h.primary_long).2.2 hmax (by omega)]
    simp only [Occupies]
    omega
  · refine ⟨aboveLow s.lowHeapMax low, List.mem_cons_of_mem _ (List.mem_append_left _ ?_), ?_⟩
    · refine List.mem_flatMap.mpr ⟨(low, lowIdx), List.mem_zipIdx_iff_getElem?.mpr hlowIdx, ?_⟩
      unfold otherRegions aroundLow
      rw [if_neg (by simp [hbest, husable])]
      refine List.mem_append_right _ (mem_longRange.mpr ⟨rfl, ?_⟩)
      simp only [aboveLow, hmax]
      omega
    · simp only [Occupies, aboveLow, hmax]
      omega

end BootedFrom

/-! ## Allocation in the low heap -/

/-- The ranges that `kmalloc_low` returns for a sequence of sizes, up to the one that halts. -/
def lowRanges (s : KernelHeap) : List ℕ → List (ℕ × ℕ)
  | [] => []
  | size :: sizes =>
    match s.kmallocLow size with
    | none => []
    | some (p, t) => (p, size) :: t.lowRanges sizes

/-- No sum of `kmalloc_low` wraps in 32 bits. -/
def LowFits (s : KernelHeap) : List ℕ → Prop
  | [] => True
  | size :: sizes =>
    s.lowMemCur + size < 2 ^ 32 ∧ ∀ p t, s.kmallocLow size = some (p, t) → t.LowFits sizes

structure LowLaidOut (s : KernelHeap) (ranges : List (ℕ × ℕ)) : Prop where
  apart : ranges.Pairwise RangesApart
  inside : ∀ r ∈ ranges, RangeWithin r s.lowWindow

theorem kmallocLow_eq_some {size p : ℕ} : s.kmallocLow size = some (p, t) ↔
    u32 (s.lowMemCur + size) < s.lowHeapMax ∧ p = s.lowMemCur ∧
      t = { s with lowMemCur := u32 (s.lowMemCur + size) } := by
  unfold kmallocLow
  dsimp only
  split_ifs with hfull
  · exact ⟨fun h => (by cases h), fun h => absurd h.1 (not_lt.mpr hfull)⟩
  · rw [Option.some.injEq, Prod.mk.injEq]
    exact ⟨fun ⟨hp, ht⟩ => ⟨not_le.mp hfull, hp.symm, ht.symm⟩, fun ⟨_, hp, ht⟩ =>
      ⟨hp.symm, ht.symm⟩⟩

theorem lowRanges_cons {size p : ℕ} (sizes : List ℕ) (h : s.kmallocLow size = some (p, t)) :
    s.lowRanges (size :: sizes) = (p, size) :: t.lowRanges sizes := by
  rw [lowRanges, h]

theorem lowRanges_spec (hmax : s.lowHeapMax = s.lowHeapStart + lowHeapSize) (sizes : List ℕ)
    (hfits : s.LowFits sizes) : (s.lowRanges sizes).Pairwise RangesApart ∧
      ∀ r ∈ s.lowRanges sizes, s.lowMemCur ≤ r.1 ∧ r.1 + r.2 ≤ s.lowHeapMax := by
  induction sizes generalizing s with
  | nil => exact ⟨List.Pairwise.nil, fun r hr => absurd hr List.not_mem_nil⟩
  | cons size sizes ih =>
    cases hcall : s.kmallocLow size with
    | none =>
      rw [lowRanges, hcall]
      exact ⟨List.Pairwise.nil, fun r hr => absurd hr List.not_mem_nil⟩
    | some res =>
      obtain ⟨p, t⟩ := res
      obtain ⟨hsum, hrest⟩ := hfits
      have ht := hrest p t hcall
      rw [lowRanges_cons sizes hcall, List.pairwise_cons, List.forall_mem_cons]
      obtain ⟨hroom, rfl, rfl⟩ := kmallocLow_eq_some.mp hcall
      obtain ⟨hpair, hin⟩ := ih (s := { s with lowMemCur := u32 (s.lowMemCur + size) }) hmax ht
      rw [u32_of_lt hsum] at hroom
      simp only [u32_of_lt hsum] at hpair hin ⊢
      refine ⟨⟨fun r hr => rangesApart_of_le (hin r hr).1, hpair⟩, ⟨le_rfl, hroom.le⟩, ?_⟩
      intro r hr
      have := hin r hr
      omega

theorem lowFits_of_laidOut (hmax : s.lowHeapMax = s.lowHeapStart + lowHeapSize)
    (hmax32 : s.lowHeapMax < 2 ^ 32) (sizes : List ℕ) (hsizes : ∀ n ∈ sizes, n < 2 ^ 32)
    (hcur : s.lowMemCur < s.lowHeapMax) (hin : ∀ r ∈ s.lowRanges sizes, r.1 + r.2 ≤ s.lowHeapMax) :
    s.LowFits sizes := by
  induction sizes generalizing s with
  | nil => trivial
  | cons size sizes ih =>
    have hsize := hsizes size List.mem_cons_self
    have hsum : s.lowMemCur + size < 2 ^ 32 := by
      by_contra hwrap
      have hroom : u32 (s.lowMemCur + size) < s.lowHeapMax := by
        unfold u32
        omega
      rw [lowRanges_cons sizes (kmallocLow_eq_some.mpr ⟨hroom, rfl, rfl⟩)] at hin
      have := hin _ List.mem_cons_self
      dsimp only at this
      omega
    refine ⟨hsum, fun p t hcall => ?_⟩
    rw [lowRanges_cons sizes hcall] at hin
    obtain ⟨hroom, rfl, rfl⟩ := kmallocLow_eq_some.mp hcall
    exact ih (s := { s with lowMemCur := u32 (s.lowMemCur + size) }) hmax hmax32
      (fun n hn => hsizes n (List.mem_cons_of_mem _ hn)) hroom
      fun r hr => hin r (List.mem_cons_of_mem _ hr)

/-- The layout is right exactly when the low heap does not end at 4 GB and no sum of `kmalloc_low`
wraps. -/
theorem initHeap_layout_iff {mem : ℕ → Header} {sizes : List ℕ} (hmap : EntriesApart entries)
    (hsizes : ∀ n ∈ sizes, n < 2 ^ 32) (hinit : initHeap mem entries ptrs = some s) :
    s.LaidOut entries ∧ s.LowLaidOut (s.lowRanges sizes) ↔
      s.lowHeapStart + lowHeapSize < 2 ^ 32 ∧ s.LowFits sizes := by
  obtain ⟨low, best, bestIdx, hboot⟩ := bootedFrom_of_initHeap hinit
  have hend := (lowHeapIn_spec hboot.low_in).2.2.1
  have hpos : 0 < lowHeapSize := by decide
  constructor
  · rintro ⟨hlaid, hlow⟩
    have hlt : s.lowHeapStart + lowHeapSize < 2 ^ 32 := by
      by_contra htop
      obtain ⟨r, hr, hin⟩ := hboot.exists_region_of_top (by omega)
      exact hlaid.low r hr _ hin ⟨le_rfl, by simp only [lowWindow]; omega⟩
    have hmax : s.lowHeapMax = s.lowHeapStart + lowHeapSize := by rw [hboot.max_eq, u32_of_lt hlt]
    refine ⟨hlt, lowFits_of_laidOut hmax (by omega) sizes hsizes ?_ fun r hr => ?_⟩
    · rw [hboot.cur_eq]
      omega
    · have := (hlow.inside r hr).2
      simp only [lowWindow] at this
      omega
  · rintro ⟨hlt, hfits⟩
    have hmax : s.lowHeapMax = s.lowHeapStart + lowHeapSize := by rw [hboot.max_eq, u32_of_lt hlt]
    obtain ⟨hpair, hin⟩ := lowRanges_spec hmax sizes hfits
    refine ⟨hboot.laidOut hmap hlt, hpair, fun r hr => ?_⟩
    have := hin r hr
    have hcur := hboot.cur_eq
    simp only [RangeWithin, lowWindow]
    omega

def smallMap : List MemmapEntry :=
  [⟨0x1000000, 0x4000000, .usable⟩, ⟨0x8000000, 0x200000, .bootloaderReclaimable⟩]

theorem initHeap_layout_iff_smallMap : ∃ s, initHeap (fun _ => ⟨0, false, 0⟩) smallMap [] = some s ∧
    s.LaidOut smallMap ∧ s.LowLaidOut (s.lowRanges [4096, 64]) := by
  obtain ⟨s, hs⟩ : ∃ s, initHeap (fun _ => ⟨0, false, 0⟩) smallMap [] = some s := ⟨_, rfl⟩
  have hstart : (initHeap (fun _ => ⟨0, false, 0⟩) smallMap []).map lowHeapStart =
      some 0x1000000 := by decide
  have hcur : (initHeap (fun _ => ⟨0, false, 0⟩) smallMap []).map lowMemCur =
      some 0x1000000 := by decide
  rw [hs, Option.map_some, Option.some.injEq] at hstart hcur
  have hapart : EntriesApart smallMap := by
    refine List.pairwise_pair.mpr fun _ _ => rangesApart_of_le ?_
    decide
  refine ⟨s, hs, (initHeap_layout_iff hapart (by decide) hs).mpr ⟨?_, ?_, fun p t ht => ?_⟩⟩
  · rw [hstart]
    decide
  · rw [hcur]
    decide
  · obtain ⟨-, -, rfl⟩ := kmallocLow_eq_some.mp ht
    refine ⟨?_, fun _ _ _ => trivial⟩
    dsimp only
    rw [hcur]
    decide

/-! ## A low heap that ends at 4 GB -/

def topMap : List MemmapEntry := [⟨0xFF400000, 0xC00000, .usable⟩]

/-- The primary region is the low heap. -/
theorem topMap_not_laidOut : EntriesApart topMap ∧
    ∃ s, initHeap (fun _ => ⟨0, false, 0⟩) topMap [] = some s ∧ ¬ s.LaidOut topMap := by
  refine ⟨List.pairwise_singleton _ _, ?_⟩
  obtain ⟨s, hs⟩ : ∃ s, initHeap (fun _ => ⟨0, false, 0⟩) topMap [] = some s := ⟨_, rfl⟩
  refine ⟨s, hs, fun hlaid => ?_⟩
  have hregions : (initHeap (fun _ => ⟨0, false, 0⟩) topMap []).map regions =
      some [(0xFF400000, 0xC00000)] := by decide
  have hstart : (initHeap (fun _ => ⟨0, false, 0⟩) topMap []).map lowHeapStart =
      some 0xFF400000 := by decide
  rw [hs, Option.map_some, Option.some.injEq] at hregions hstart
  refine hlaid.low (0xFF400000, 0xC00000) (by rw [hregions]; exact List.mem_singleton_self _)
    0xFF400000 ⟨le_rfl, by decide⟩ ⟨?_, ?_⟩
  · exact hstart.le
  · simp only [lowWindow, hstart]
    decide

end KernelHeap

end RetroRocket
