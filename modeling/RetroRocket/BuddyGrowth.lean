import RetroRocket.BuddyAccounts

/-!
# How the buddy allocator grows

An allocation searches the region that was added last, and adds another when that has no block. The
check of its size compares with the largest order, while a region has the order to grow by, and no
region before the last is searched. `MallocFits` says when an allocation ends, with one new region
at most and with none while a free block is large enough.
-/

namespace RetroRocket

namespace BuddyAllocator

variable {s t : BuddyAllocator} {F L : List Cell} {pools : List ℕ} {n o p fuel i : ℕ}

/-! ## What is asked of an allocation -/

def HasRoom (s : BuddyAllocator) (n : ℕ) : Prop :=
  ∃ i < s.regions, ∃ k ≤ s.maxOrder, n + 24 ≤ 2 ^ k ∧ (s.region i).freeLists k ≠ 0

/-- The call returns, and does not need all of the first `m` pools that it may ask for. -/
def ReturnsWith (s : BuddyAllocator) (n m : ℕ) (supply : ℕ → ℕ) : Prop :=
  ∃ ptr t, buddyMalloc s n ((List.range m).map supply) = some (ptr, t) ∧ t.regions < s.regions + m

structure MallocBounded (s : BuddyAllocator) (n : ℕ) : Prop where
  returns : ∀ supply : ℕ → ℕ, (∀ j, supply j ≠ 0) → ∃ m, s.ReturnsWith n m supply
  growsOnce : ∀ pools ptr t, 0 ∉ pools → buddyMalloc s n pools = some (ptr, t) →
    t.regions ≤ s.regions + 1
  usesRoom : s.HasRoom n → ∀ pools ptr t, 0 ∉ pools → buddyMalloc s n pools = some (ptr, t) →
    t.regions = s.regions

def LastHasRoom (s : BuddyAllocator) (n : ℕ) : Prop :=
  0 < s.regions ∧ ∃ k ≤ s.maxOrder, s.minOrder ≤ k ∧ n + 24 ≤ 2 ^ k ∧
    (s.region (s.regions - 1)).freeLists k ≠ 0

def MallocFits (s : BuddyAllocator) (n : ℕ) : Prop :=
  n = 0 ∨ 2 ^ s.maxOrder < n + 24 ∨
    (s.minOrder ≤ s.growOrder ∧ n + 24 ≤ 2 ^ s.growOrder ∧ (s.LastHasRoom n ∨ ¬ s.HasRoom n))

/-! ## The last region -/

def ActiveLast (s : BuddyAllocator) : Prop :=
  s.activeRegion = if s.regions = 0 then none else some (s.regions - 1)

theorem SameRegions.activeLast (h : s.SameRegions t) (hs : s.ActiveLast) : t.ActiveLast := by
  unfold ActiveLast
  rw [h.active, h.regions]
  exact hs

theorem grow_activeLast (s : BuddyAllocator) (p : ℕ) : (buddyGrow s p).ActiveLast := by
  change some s.regions = if s.regions + 1 = 0 then none else some (s.regions + 1 - 1)
  rw [if_neg (Nat.succ_ne_zero _), Nat.add_sub_cancel]

/-! ## Searching it -/

structure Searchable (s : BuddyAllocator) : Prop where
  orders : BuddyOrders s.minOrder s.maxOrder s.growOrder
  region : ∀ i < s.regions, (s.region i).minOrder = s.minOrder ∧ (s.region i).maxOrder = s.maxOrder
  free : ∀ i < s.regions, ∀ k, (s.region i).freeLists k ≠ 0 → k ≤ s.growOrder
  last : s.ActiveLast

theorem Tiled.searchable (h : s.Tiled F L) (hlast : s.ActiveLast) : s.Searchable := by
  refine ⟨h.orders, fun i hi => (h.uniform i hi).2, fun i hi k hfree => ?_, hlast⟩
  obtain ⟨r, hstarts⟩ := h.exists_starts hi hfree
  have hmem : (s.region i).freeLists k ∈ starts i k F := by
    rw [hstarts]
    exact List.mem_cons_self
  exact h.order_le (List.mem_append_left L (mem_starts.mp hmem))

theorem Searchable.grow_last (h : s.Searchable) (p : ℕ) :
    ((buddyGrow s p).region s.regions) =
      ⟨p, 2 ^ s.growOrder, Function.update (fun _ => 0) s.growOrder p, s.minOrder, s.maxOrder⟩ := by
  have hgrow : (if s.maxOrder < s.growOrder then s.maxOrder else s.growOrder) = s.growOrder :=
    if_neg (not_lt.mpr h.orders.grow)
  refine (Function.update_self _ _ _).trans ?_
  rw [hgrow]

theorem Searchable.grow (h : s.Searchable) (p : ℕ) : (buddyGrow s p).Searchable := by
  refine ⟨h.orders, fun i hi => ?_, fun i hi k hfree => ?_, grow_activeLast s p⟩
  · rcases Nat.lt_succ_iff_lt_or_eq.mp hi with hi | rfl
    · rw [grow_region s p i hi.ne]
      exact h.region i hi
    · rw [h.grow_last]
      exact ⟨rfl, rfl⟩
  · rcases Nat.lt_succ_iff_lt_or_eq.mp hi with hi | rfl
    · rw [grow_region s p i hi.ne] at hfree
      exact h.free i hi k hfree
    · rw [h.grow_last] at hfree
      change Function.update (fun _ => 0) s.growOrder p k ≠ 0 at hfree
      by_contra hk
      exact hfree (Function.update_of_ne (fun heq => hk heq.le) _ _)

structure OrderFor (s : BuddyAllocator) (n o : ℕ) : Prop where
  le : o ≤ s.maxOrder
  order : ∀ region : BuddyRegion, region.minOrder = s.minOrder →
    sizeToOrder region (u64 (n + 24)) = some o
  le_iff : ∀ k ≤ s.maxOrder, o ≤ k ↔ s.minOrder ≤ k ∧ n + 24 ≤ 2 ^ k

theorem OrderFor.grow (h : s.OrderFor n o) (p : ℕ) : (buddyGrow s p).OrderFor n o :=
  ⟨h.le, h.order, h.le_iff⟩

theorem Searchable.exists_order (h : s.Searchable) (hn : n + 24 ≤ 2 ^ s.maxOrder) :
    ∃ o, s.OrderFor n o := by
  have hle := h.orders.le
  have hmax := h.orders.max
  have hpow : 2 ^ s.maxOrder ≤ 2 ^ 29 := Nat.pow_le_pow_right (by omega) hmax
  have hunit : 2 ^ s.minOrder ≤ 2 ^ 29 := Nat.pow_le_pow_right (by omega) (by omega)
  let region : BuddyRegion := ⟨0, 0, fun _ => 0, s.minOrder, s.maxOrder⟩
  obtain ⟨o, horder, hleast⟩ :=
    sizeToOrder_spec region (n + 24) (show s.minOrder ≤ 63 by omega) (by omega)
  have hge : s.minOrder ≤ o := sizeToOrder_ge horder
  have hfit : n + 24 ≤ 2 ^ o :=
    sizeToOrder_fits (show n + 24 + (2 ^ s.minOrder - 1) < 2 ^ 64 by omega) horder
  refine ⟨o, hleast _ hle (by omega) hn, fun r hr => ?_, fun k hk => ?_⟩
  · rw [u64_of_lt (by omega), ← horder]
    unfold sizeToOrder
    rw [hr]
  · constructor
    · intro hok
      exact ⟨hge.trans hok, hfit.trans (Nat.pow_le_pow_right (by omega) hok)⟩
    · rintro ⟨hmin, hfits⟩
      exact hleast k hmin (by omega) hfits

theorem findOrder_eq_none_iff {region : BuddyRegion} {order : ℕ} :
    findOrder region order = none ↔
      ∀ k, order ≤ k → k ≤ region.maxOrder → region.freeLists k = 0 := by
  unfold findOrder
  rw [List.find?_eq_none]
  constructor
  · intro h k hlow hhigh
    have hmem : k ∈ List.range' order (region.maxOrder + 1 - order) := by
      rw [List.mem_range'_1]
      omega
    simpa using h k hmem
  · intro h k hmem
    rw [List.mem_range'_1] at hmem
    simpa using h k hmem.1 (by omega)

theorem Searchable.mallocLoop_last (h : s.Searchable) (ho : s.OrderFor n o) (hpos : 0 < s.regions) :
    mallocLoop n (fuel + 1) s (s.regions - 1) pools =
      match findOrder (s.region (s.regions - 1)) o with
      | some cur => some (takeBlock s (s.regions - 1) o cur)
      | none =>
        match pools with
        | [] => some (0, s)
        | pool :: pools => mallocLoop n fuel (buddyGrow s pool) s.regions pools := by
  obtain ⟨hmin, hmax⟩ := h.region (s.regions - 1) (Nat.sub_lt hpos Nat.one_pos)
  have hle := ho.le
  rw [mallocLoop.eq_def]
  dsimp only
  rw [ho.order _ hmin]
  simp only [Option.bind_eq_bind, Option.bind_some]
  rw [hmax, if_neg (by omega)]
  cases findOrder (s.region (s.regions - 1)) o with
  | some cur => rfl
  | none =>
    cases pools with
    | nil => exact if_neg (by omega)
    | cons pool pools => exact if_neg (by omega)

theorem Searchable.lastHasRoom_iff (h : s.Searchable) (ho : s.OrderFor n o) (hpos : 0 < s.regions) :
    s.LastHasRoom n ↔ findOrder (s.region (s.regions - 1)) o ≠ none := by
  obtain ⟨-, hmax⟩ := h.region (s.regions - 1) (Nat.sub_lt hpos Nat.one_pos)
  rw [Ne, findOrder_eq_none_iff, hmax]
  push Not
  constructor
  · rintro ⟨-, k, hk, hmin, hfit, hfree⟩
    exact ⟨k, (ho.le_iff k hk).mpr ⟨hmin, hfit⟩, hk, hfree⟩
  · rintro ⟨k, hok, hk, hfree⟩
    obtain ⟨hmin, hfit⟩ := (ho.le_iff k hk).mp hok
    exact ⟨hpos, k, hk, hmin, hfit, hfree⟩

theorem Searchable.mallocLoop_found (h : s.Searchable) (ho : s.OrderFor n o)
    (hroom : s.LastHasRoom n) :
    ∃ ptr t, mallocLoop n (fuel + 1) s (s.regions - 1) pools = some (ptr, t) ∧
      t.regions = s.regions := by
  have hpos := hroom.1
  obtain ⟨cur, hfind⟩ := Option.ne_none_iff_exists'.mp ((h.lastHasRoom_iff ho hpos).mp hroom)
  rw [h.mallocLoop_last ho hpos, hfind]
  exact ⟨_, _, rfl, (takeBlock_sameRegions s (s.regions - 1) o cur).regions⟩

theorem Searchable.mallocLoop_new (h : s.Searchable) (ho : s.OrderFor n o) (hle : o ≤ s.growOrder)
    (hp : p ≠ 0) :
    ∃ ptr t, mallocLoop n (fuel + 1) (buddyGrow s p) s.regions pools = some (ptr, t) ∧
      t.regions = s.regions + 1 := by
  have hgrow := h.orders.grow
  obtain ⟨hmin, hfit⟩ := (ho.le_iff s.growOrder hgrow).mp hle
  have hroom : (buddyGrow s p).LastHasRoom n := by
    refine ⟨Nat.succ_pos s.regions, s.growOrder, hgrow, hmin, hfit, ?_⟩
    change ((buddyGrow s p).region s.regions).freeLists s.growOrder ≠ 0
    rw [h.grow_last]
    change Function.update (fun _ => 0) s.growOrder p s.growOrder ≠ 0
    rw [Function.update_self]
    exact hp
  exact (h.grow p).mallocLoop_found (ho.grow p) hroom

theorem Searchable.not_lastHasRoom (h : s.Searchable) (ho : s.OrderFor n o)
    (hlarge : s.growOrder < o) : ¬ s.LastHasRoom n := by
  rintro ⟨hpos, k, hk, hmin, hfit, hfree⟩
  have hle := (ho.le_iff k hk).mpr ⟨hmin, hfit⟩
  have hfree := h.free _ (Nat.sub_lt hpos Nat.one_pos) k hfree
  omega

theorem Searchable.mallocLoop_exhausts (h : s.Searchable) (ho : s.OrderFor n o)
    (hlarge : s.growOrder < o) (hpos : 0 < s.regions) (hfuel : pools.length < fuel) :
    ∃ t, mallocLoop n fuel s (s.regions - 1) pools = some (0, t) ∧
      t.regions = s.regions + pools.length := by
  induction pools generalizing s fuel with
  | nil =>
    obtain ⟨fuel, rfl⟩ := Nat.exists_eq_add_of_lt hfuel
    have hnone := not_not.mp ((h.lastHasRoom_iff ho hpos).not.mp (h.not_lastHasRoom ho hlarge))
    rw [h.mallocLoop_last ho hpos, hnone]
    exact ⟨s, rfl, rfl⟩
  | cons pool pools ih =>
    cases fuel with
    | zero => cases hfuel
    | succ fuel =>
      have hnone := not_not.mp ((h.lastHasRoom_iff ho hpos).not.mp (h.not_lastHasRoom ho hlarge))
      obtain ⟨t, hrun, hregions⟩ := ih (h.grow pool) (ho.grow pool) hlarge
        (Nat.succ_pos s.regions) (Nat.lt_of_succ_lt_succ hfuel)
      rw [h.mallocLoop_last ho hpos, hnone]
      refine ⟨t, hrun, ?_⟩
      rw [hregions, List.length_cons]
      change s.regions + 1 + pools.length = s.regions + (pools.length + 1)
      omega

/-! ## An allocation -/

theorem Searchable.buddyMalloc_refused (h : s.Searchable) (hn : n = 0 ∨ 2 ^ s.maxOrder < n + 24) :
    buddyMalloc s n pools = some (0, s) := by
  have hmin : 2 ^ 5 ≤ 2 ^ s.maxOrder :=
    Nat.pow_le_pow_right (by omega) (h.orders.min.trans h.orders.le)
  have hmax : 2 ^ s.maxOrder ≤ 2 ^ 29 := Nat.pow_le_pow_right (by omega) h.orders.max
  unfold buddyMalloc
  split
  · rfl
  · next hzero =>
    rw [sub64_of_le (by omega) (by omega), if_pos (by omega)]

theorem Searchable.buddyMalloc_eq (h : s.Searchable) (hzero : n ≠ 0)
    (hn : n + 24 ≤ 2 ^ s.maxOrder) :
    buddyMalloc s n pools =
      if s.regions = 0 then
        match pools with
        | [] => some (0, s)
        | pool :: pools => mallocLoop n (pools.length + 2) (buddyGrow s pool) s.regions pools
      else mallocLoop n (s.regions + pools.length + 1) s (s.regions - 1) pools := by
  have hmin : 2 ^ 5 ≤ 2 ^ s.maxOrder :=
    Nat.pow_le_pow_right (by omega) (h.orders.min.trans h.orders.le)
  have hmax : 2 ^ s.maxOrder ≤ 2 ^ 29 := Nat.pow_le_pow_right (by omega) h.orders.max
  have hlast : s.activeRegion = if s.regions = 0 then none else some (s.regions - 1) := h.last
  unfold buddyMalloc
  rw [if_neg hzero, sub64_of_le (by omega) (by omega), if_neg (by omega), hlast]
  by_cases hnone : s.regions = 0
  · rw [if_pos hnone, if_pos hnone]
    cases pools with
    | nil => rfl
    | cons pool pools =>
      dsimp only
      rw [List.length_cons, hnone, Nat.zero_add]
  · rw [if_neg hnone, if_neg hnone]

theorem Searchable.buddyMalloc_exhausts (h : s.Searchable) (hzero : n ≠ 0)
    (hn : n + 24 ≤ 2 ^ s.maxOrder) (ho : s.OrderFor n o) (hlarge : s.growOrder < o)
    (pools : List ℕ) :
    ∃ t, buddyMalloc s n pools = some (0, t) ∧ t.regions = s.regions + pools.length := by
  rw [h.buddyMalloc_eq hzero hn]
  split
  · cases pools with
    | nil => exact ⟨s, rfl, rfl⟩
    | cons pool pools =>
      obtain ⟨t, hrun, hregions⟩ := (h.grow pool).mallocLoop_exhausts (ho.grow pool) hlarge
        (Nat.succ_pos s.regions) (Nat.lt_add_of_pos_right (n := pools.length) Nat.two_pos)
      refine ⟨t, hrun, ?_⟩
      rw [hregions, List.length_cons]
      change s.regions + 1 + pools.length = s.regions + (pools.length + 1)
      omega
  · exact h.mallocLoop_exhausts ho hlarge (by omega) (by omega)

theorem Searchable.buddyMalloc_found (h : s.Searchable) (hzero : n ≠ 0)
    (hn : n + 24 ≤ 2 ^ s.maxOrder) (ho : s.OrderFor n o) (hroom : s.LastHasRoom n) :
    ∃ ptr t, buddyMalloc s n pools = some (ptr, t) ∧ t.regions = s.regions := by
  rw [h.buddyMalloc_eq hzero hn, if_neg hroom.1.ne']
  exact h.mallocLoop_found ho hroom

theorem Searchable.buddyMalloc_none (h : s.Searchable) (hzero : n ≠ 0)
    (hn : n + 24 ≤ 2 ^ s.maxOrder) (ho : s.OrderFor n o) (hroom : ¬ s.LastHasRoom n) :
    buddyMalloc s n [] = some (0, s) := by
  rw [h.buddyMalloc_eq hzero hn]
  split
  · rfl
  · have hpos : 0 < s.regions := by omega
    rw [h.mallocLoop_last ho hpos, not_not.mp ((h.lastHasRoom_iff ho hpos).not.mp hroom)]

theorem Searchable.buddyMalloc_new (h : s.Searchable) (hzero : n ≠ 0)
    (hn : n + 24 ≤ 2 ^ s.maxOrder) (ho : s.OrderFor n o) (hle : o ≤ s.growOrder)
    (hroom : ¬ s.LastHasRoom n) (hp : p ≠ 0) (pools : List ℕ) :
    ∃ ptr t, buddyMalloc s n (p :: pools) = some (ptr, t) ∧ t.regions = s.regions + 1 := by
  rw [h.buddyMalloc_eq hzero hn]
  split
  · exact h.mallocLoop_new ho hle hp
  · have hpos : 0 < s.regions := by omega
    rw [h.mallocLoop_last ho hpos, not_not.mp ((h.lastHasRoom_iff ho hpos).not.mp hroom)]
    exact h.mallocLoop_new ho hle hp

/-! ## Bounded growth -/

theorem Searchable.fits_of_bounded (h : s.Searchable) (hbounded : s.MallocBounded n) :
    s.MallocFits n := by
  by_cases hrefused : n = 0 ∨ 2 ^ s.maxOrder < n + 24
  · exact hrefused.elim Or.inl fun hlarge => Or.inr (Or.inl hlarge)
  · obtain ⟨hzero, hn⟩ := not_or.mp hrefused
    rw [not_lt] at hn
    obtain ⟨o, ho⟩ := h.exists_order hn
    rcases Nat.lt_or_ge s.growOrder o with hlarge | hle
    · obtain ⟨m, ptr, t, hrun, hlt⟩ := hbounded.returns (fun _ => 1) fun _ => Nat.one_ne_zero
      obtain ⟨t', hrun', hregions⟩ :=
        h.buddyMalloc_exhausts hzero hn ho hlarge ((List.range m).map fun _ => 1)
      obtain ⟨-, rfl⟩ := Prod.mk.inj (Option.some.inj (hrun.symm.trans hrun'))
      rw [List.length_map, List.length_range] at hregions
      omega
    · obtain ⟨hmin, hfit⟩ := (ho.le_iff s.growOrder h.orders.grow).mp hle
      refine Or.inr (Or.inr ⟨hmin, hfit, ?_⟩)
      by_cases hlast : s.LastHasRoom n
      · exact Or.inl hlast
      · refine Or.inr fun hroom => ?_
        obtain ⟨ptr, t, hrun, hregions⟩ :=
          h.buddyMalloc_new hzero hn ho hle hlast Nat.one_ne_zero []
        have hsame := hbounded.usesRoom hroom [1] ptr t (by decide) hrun
        omega

theorem bounded_of_same (hsame : ∀ pools, ∃ ptr t, buddyMalloc s n pools = some (ptr, t) ∧
    t.regions = s.regions) : s.MallocBounded n := by
  have hregions : ∀ pools ptr t, buddyMalloc s n pools = some (ptr, t) → t.regions = s.regions := by
    intro pools ptr t hrun
    obtain ⟨ptr', t', hrun', hregions⟩ := hsame pools
    obtain ⟨-, rfl⟩ := Prod.mk.inj (Option.some.inj (hrun.symm.trans hrun'))
    exact hregions
  refine ⟨fun supply _ => ?_, fun pools ptr t _ hrun => ?_, fun _ pools ptr t _ hrun => ?_⟩
  · obtain ⟨ptr, t, hrun, hregions⟩ := hsame ((List.range 1).map supply)
    exact ⟨1, ptr, t, hrun, by omega⟩
  · have := hregions pools ptr t hrun
    omega
  · exact hregions pools ptr t hrun

theorem Searchable.bounded_of_fits (h : s.Searchable) (hfits : s.MallocFits n) :
    s.MallocBounded n := by
  by_cases hrefused : n = 0 ∨ 2 ^ s.maxOrder < n + 24
  · exact bounded_of_same fun pools => ⟨0, s, h.buddyMalloc_refused hrefused, rfl⟩
  · obtain ⟨hzero, hn⟩ := not_or.mp hrefused
    obtain ⟨hmin, hfit, hroom⟩ := (hfits.resolve_left hzero).resolve_left hn
    rw [not_lt] at hn
    obtain ⟨o, ho⟩ := h.exists_order hn
    have hle : o ≤ s.growOrder := (ho.le_iff s.growOrder h.orders.grow).mpr ⟨hmin, hfit⟩
    by_cases hlast : s.LastHasRoom n
    · exact bounded_of_same fun pools => h.buddyMalloc_found hzero hn ho hlast
    · refine ⟨fun supply hsupply => ?_, fun pools ptr t hpools hrun => ?_,
        fun hhas => absurd hhas (hroom.resolve_left hlast)⟩
      · obtain ⟨ptr, t, hrun, hregions⟩ :=
          h.buddyMalloc_new hzero hn ho hle hlast (hsupply 0) [supply 1]
        exact ⟨2, ptr, t, hrun, by omega⟩
      · cases pools with
        | nil =>
          rw [h.buddyMalloc_none hzero hn ho hlast] at hrun
          obtain ⟨-, rfl⟩ := Prod.mk.inj (Option.some.inj hrun)
          omega
        | cons pool pools =>
          obtain ⟨hne, -⟩ := not_or.mp (List.mem_cons.not.mp hpools)
          obtain ⟨ptr', t', hrun', hregions⟩ :=
            h.buddyMalloc_new hzero hn ho hle hlast (Ne.symm hne) pools
          obtain ⟨-, rfl⟩ := Prod.mk.inj (Option.some.inj (hrun.symm.trans hrun'))
          omega

end BuddyAllocator

/-! ## Runs -/

namespace BuddyLedger

open BuddyAllocator

variable {s t : BuddyLedger} {c : BuddyCall} {steps : List (BuddyLedger × BuddyCall)}

theorem call_activeLast (hcall : s.call c = some t) (h : s.heap.ActiveLast) :
    t.heap.ActiveLast := by
  cases c with
  | malloc size pools =>
    obtain ⟨⟨ptr, heap⟩, hrun, ht⟩ := Option.bind_eq_some_iff.mp hcall
    obtain rfl := Option.some.inj ht
    obtain ⟨-, hlast⟩ := buddyMalloc_keeps (P := fun s _ => s.ActiveLast) SameRegions.activeLast
      (fun _ => grow_activeLast _ _) hrun h
    exact hlast
  | free ptr =>
    obtain ⟨heap, hrun, ht⟩ := Option.bind_eq_some_iff.mp hcall
    obtain rfl := Option.some.inj ht
    exact (buddyFree_sameRegions hrun).activeLast h
  | realloc ptr size pools =>
    obtain ⟨⟨new, heap⟩, hrun, ht⟩ := Option.bind_eq_some_iff.mp hcall
    obtain rfl := Option.some.inj ht
    obtain ⟨-, hlast⟩ := buddyRealloc_keeps (P := fun s _ => s.ActiveLast) SameRegions.activeLast
      (fun _ => grow_activeLast _ _) hrun h
    exact hlast
  | write a header =>
    obtain rfl := Option.some.inj hcall
    exact (store_sameRegions s.heap a header).activeLast h

theorem Run.activeLast (h : s.Run steps t) (hs : s.heap.ActiveLast) : t.heap.ActiveLast := by
  induction h with
  | refl => exact hs
  | step _ _ hcall ih => exact call_activeLast hcall ih

theorem init_activeLast (s : BuddyAllocator) {minOrder maxOrder growOrder : ℕ}
    (hok : BuddyOrders minOrder maxOrder growOrder) :
    (init s minOrder maxOrder growOrder).heap.ActiveLast := by
  unfold init
  rw [BuddySession.buddyInit_eq s hok]
  rfl

theorem Run.searchable (s : BuddyAllocator) {minOrder maxOrder growOrder : ℕ}
    (hok : BuddyOrders minOrder maxOrder growOrder)
    (hrun : (init s minOrder maxOrder growOrder).Run steps t) : t.heap.Searchable := by
  obtain ⟨F, htiled⟩ := (hrun.inv (init_inv s hok)).session.tiled
  exact htiled.searchable (hrun.activeLast (init_activeLast s hok))

/-- In every state of a run, an allocation ends and grows no more than it should exactly when the
request fits. -/
theorem mallocBounded_iff (s : BuddyAllocator) {minOrder maxOrder growOrder : ℕ}
    (hok : BuddyOrders minOrder maxOrder growOrder)
    (hrun : (init s minOrder maxOrder growOrder).Run steps t) (n : ℕ) :
    t.heap.MallocBounded n ↔ t.heap.MallocFits n :=
  ⟨(Run.searchable s hok hrun).fits_of_bounded, (Run.searchable s hok hrun).bounded_of_fits⟩

/-- Another 100 bytes come from the region that has the first. -/
theorem mallocBounded_iff_oneBlock : oneBlock.heap.MallocBounded 100 := by
  refine (mallocBounded_iff BuddySession.noAllocator ⟨by decide, by decide, by decide, by decide⟩
    run_oneBlock 100).mpr (Or.inr (Or.inr ⟨by decide, by decide, Or.inl ⟨by decide, 7, ?_⟩⟩))
  exact ⟨by decide, by decide, by decide, by decide⟩

def firstFreed : BuddyLedger :=
  ((empty.after (.malloc 4000 [4096])).after (.malloc 4000 [8192])).after (.free 4120)

theorem run_firstFreed : ∃ steps, empty.Run steps firstFreed := by
  have h₁ := Run.refl.after (t := empty) (c := .malloc 4000 [4096])
    ⟨fun p hp => ?_, List.pairwise_singleton _ _⟩ (by decide)
  · have h₂ := h₁.after (c := .malloc 4000 [8192])
      ⟨fun p hp => ?_, List.pairwise_singleton _ _⟩ (by decide +kernel)
    · exact ⟨_, h₂.after (c := .free 4120) (Or.inr (by decide +kernel)) (by decide +kernel)⟩
    · obtain rfl := List.mem_singleton.mp hp
      exact ⟨by decide, by decide, by decide +kernel⟩
  · obtain rfl := List.mem_singleton.mp hp
    exact ⟨by decide, by decide, nofun⟩

/-- 2000 bytes with regions of 1 KiB, and 4000 bytes while only the first region has them. -/
theorem not_mallocBounded_smallRegions :
    ¬ (init BuddySession.noAllocator 5 12 10).heap.MallocBounded 2000 ∧
      (∃ steps, empty.Run steps firstFreed) ∧ ¬ firstFreed.heap.MallocBounded 4000 := by
  refine ⟨fun h => ?_, run_firstFreed, fun h => ?_⟩
  · have hsearch := Run.searchable BuddySession.noAllocator
      ⟨by decide, by decide, by decide, by decide⟩
        (Run.refl (s := init BuddySession.noAllocator 5 12 10))
    rcases hsearch.fits_of_bounded h with hzero | hlarge | ⟨-, hfit, -⟩
    · exact absurd hzero (by decide)
    · exact absurd hlarge (by decide)
    · exact absurd hfit (by decide)
  · have hroom : firstFreed.heap.HasRoom 4000 :=
      ⟨0, by decide +kernel, 12, by decide +kernel, by decide, by decide +kernel⟩
    have hregions : (buddyMalloc firstFreed.heap 4000 [16384]).map (·.2.regions) = some 3 := by
      decide +kernel
    obtain ⟨r, hrun, hthree⟩ := Option.map_eq_some_iff.mp hregions
    have hsame := h.usesRoom hroom [16384] r.1 r.2 (by decide) hrun
    rw [hthree] at hsame
    exact absurd hsame (by decide +kernel)

end BuddyLedger

end RetroRocket
