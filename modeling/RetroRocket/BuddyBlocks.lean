import RetroRocket.Buddy
import RetroRocket.LinkedList
import RetroRocket.Tiling

/-!
# The blocks of the buddy allocator

`Tiled s F L` says that the free lists of `s` hold exactly the cells `F`, and that these and the
cells `L`, which are on no list, tile the regions. Splitting, merging, taking a block and adding a
region move cells between `F` and `L`; none of them touches the order and region in a header, except
that of the block that is handed out.
-/

namespace RetroRocket

/-! ## Orders -/

theorem alignUp_eq_u64 {x m : ℕ} (hm : 2 ^ m ≤ 2 ^ 64) :
    alignUp x (2 ^ m) = 2 ^ m * (u64 (x + (2 ^ m - 1)) / 2 ^ m) := by
  have hpos := Nat.two_pow_pos m
  unfold alignUp
  dsimp only
  generalize hmask : BitVec.ofNat 64 (2 ^ m) - 1 = mask
  have hmask : mask.toNat = 2 ^ m - 1 := by
    have hone : (1 : BitVec 64).toNat = 1 := rfl
    rw [← hmask, BitVec.toNat_sub, BitVec.toNat_ofNat, hone]
    omega
  have hy : (BitVec.ofNat 64 x + mask).toNat = u64 (x + (2 ^ m - 1)) := by
    rw [BitVec.toNat_add, BitVec.toNat_ofNat, hmask, Nat.mod_add_mod]
    rfl
  generalize BitVec.ofNat 64 x + mask = y at hy
  have hadd := toNat_and_not_add y mask
  have hlow : (y &&& mask).toNat = y.toNat % 2 ^ m := by
    rw [BitVec.toNat_and, hmask, Nat.and_two_pow_sub_one_eq_mod]
  have hdiv := Nat.div_add_mod y.toNat (2 ^ m)
  rw [← hy]
  omega

theorem alignUp_eq {x m : ℕ} (hsum : x + (2 ^ m - 1) < 2 ^ 64) :
    alignUp x (2 ^ m) = 2 ^ m * ((x + (2 ^ m - 1)) / 2 ^ m) := by
  rw [alignUp_eq_u64 (by omega), u64_of_lt hsum]

theorem le_alignUp {x m : ℕ} (hsum : x + (2 ^ m - 1) < 2 ^ 64) : x ≤ alignUp x (2 ^ m) := by
  have hpos := Nat.two_pow_pos m
  have hdiv := Nat.div_add_mod (x + (2 ^ m - 1)) (2 ^ m)
  have hmod := Nat.mod_lt (x + (2 ^ m - 1)) hpos
  rw [alignUp_eq hsum]
  omega

theorem alignUp_le {x m k : ℕ} (hmk : m ≤ k) (hk : k ≤ 63) (hx : x ≤ 2 ^ k) :
    alignUp x (2 ^ m) ≤ 2 ^ k := by
  have hm : 2 ^ m ≤ 2 ^ k := Nat.pow_le_pow_right (by omega) hmk
  have hk : 2 ^ k ≤ 2 ^ 63 := Nat.pow_le_pow_right (by omega) hk
  have hpos := Nat.two_pow_pos m
  have hpow : 2 ^ k = 2 ^ m * 2 ^ (k - m) := by
    rw [← pow_add, Nat.add_sub_cancel' hmk]
  rw [alignUp_eq (by omega), hpow]
  refine Nat.mul_le_mul_left _ (Nat.lt_succ_iff.mp ((Nat.div_lt_iff_lt_mul hpos).mpr ?_))
  rw [Nat.succ_mul, mul_comm, ← hpow]
  omega

theorem sizeToOrderLoop_spec (size fuel order : ℕ) (hsize : size ≤ 2 ^ (order + fuel)) :
    ∃ o, sizeToOrderLoop size (fuel + 1) order = some o ∧ ∀ k, order ≤ k →
      size ≤ 2 ^ k → o ≤ k := by
  induction fuel generalizing order with
  | zero =>
    rw [add_zero] at hsize
    refine ⟨order, ?_, fun k hk _ => hk⟩
    rw [sizeToOrderLoop, if_neg (not_lt.mpr hsize)]
  | succ fuel ih =>
    rw [sizeToOrderLoop]
    split
    · next hlt =>
      obtain ⟨o, hloop, hleast⟩ := ih (order + 1) (by rwa [add_assoc, add_comm 1])
      refine ⟨o, hloop, fun k hk hsize => hleast k ?_ hsize⟩
      rcases Nat.eq_or_lt_of_le hk with rfl | hk
      · omega
      · exact hk
    · exact ⟨order, rfl, fun k hk _ => hk⟩

theorem sizeToOrderLoop_fits {size o : ℕ} (fuel order : ℕ)
    (h : sizeToOrderLoop size fuel order = some o) : size ≤ 2 ^ o := by
  induction fuel generalizing order with
  | zero => cases h
  | succ fuel ih =>
    rw [sizeToOrderLoop] at h
    split at h
    · exact ih (order + 1) h
    · next hge =>
      obtain rfl := Option.some.inj h
      exact not_lt.mp hge

theorem sizeToOrder_fits {region : BuddyRegion} {size o : ℕ}
    (hsum : size + (2 ^ region.minOrder - 1) < 2 ^ 64) (h : sizeToOrder region size = some o) :
    size ≤ 2 ^ o :=
  (le_alignUp hsum).trans (sizeToOrderLoop_fits _ _ h)

theorem sizeToOrderLoop_ge (h : sizeToOrderLoop n fuel order = some o) : order ≤ o := by
  induction fuel generalizing order with
  | zero => cases h
  | succ fuel ih =>
    rw [sizeToOrderLoop] at h
    split at h
    · exact (Nat.le_succ order).trans (ih h)
    · exact (Option.some.inj h).le

theorem sizeToOrder_ge {region : BuddyRegion} (h : sizeToOrder region n = some o) :
    region.minOrder ≤ o := sizeToOrderLoop_ge h

theorem sizeToOrder_spec (region : BuddyRegion) (size : ℕ) (hmin : region.minOrder ≤ 63)
    (hsize : size ≤ 2 ^ 63) :
    ∃ o, sizeToOrder region size = some o ∧
      ∀ k, region.minOrder ≤ k → k ≤ 63 → size ≤ 2 ^ k → o ≤ k := by
  have hle := alignUp_le hmin le_rfl hsize
  obtain ⟨fuel, hfuel⟩ : ∃ fuel, 64 - region.minOrder = fuel + 1 := ⟨63 - region.minOrder, by omega⟩
  obtain ⟨o, hloop, hleast⟩ :=
    sizeToOrderLoop_spec (alignUp size (2 ^ region.minOrder)) fuel region.minOrder
      (by rwa [show region.minOrder + fuel = 63 by omega])
  refine ⟨o, by rw [sizeToOrder, hfuel, hloop], fun k hk hk63 hsize => ?_⟩
  exact hleast k hk (alignUp_le hk hk63 hsize)

/-! ## Free lists as lists of cells -/

def starts (i k : ℕ) (cells : List Cell) : List ℕ :=
  (cells.filter fun c => c.region = i ∧ c.order = k).map Cell.start

variable {F L cells : List Cell} {c d : Cell} {i j k m a b : ℕ} {l r xs : List ℕ}

theorem mem_starts : a ∈ starts i k cells ↔ (⟨i, a, k⟩ : Cell) ∈ cells := by
  simp only [starts, List.mem_map, List.mem_filter, decide_eq_true_eq]
  constructor
  · rintro ⟨c, ⟨hc, rfl, rfl⟩, rfl⟩
    exact hc
  · exact fun hc => ⟨_, ⟨hc, rfl, rfl⟩, rfl⟩

@[simp] theorem starts_cons_self : starts i k (⟨i, a, k⟩ :: cells) = a :: starts i k cells := by
  simp [starts]

theorem starts_cons_of_ne (h : ¬ (i = j ∧ k = m)) :
    starts j m (⟨i, a, k⟩ :: cells) = starts j m cells := by
  simp [starts, h]

theorem exists_perm_of_starts (h : starts i k cells = l ++ b :: r) :
    ∃ rest, cells.Perm (⟨i, b, k⟩ :: rest) ∧ starts i k rest = l ++ r ∧
      ∀ j m, ¬ (i = j ∧ k = m) → starts j m rest = starts j m cells := by
  induction cells generalizing l with
  | nil => cases l <;> cases h
  | cons c cells ih =>
    obtain ⟨j, a, m⟩ := c
    by_cases hc : j = i ∧ m = k
    · obtain ⟨rfl, rfl⟩ := hc
      rw [starts_cons_self] at h
      cases l with
      | nil =>
        obtain ⟨rfl, rfl⟩ := List.cons.inj h
        exact ⟨cells, List.Perm.refl _, rfl, fun j m hne => (starts_cons_of_ne hne).symm⟩
      | cons x l =>
        obtain ⟨rfl, hrest⟩ := List.cons.inj h
        obtain ⟨rest, hperm, hsame, hother⟩ := ih hrest
        refine ⟨⟨j, a, m⟩ :: rest, (hperm.cons _).trans (List.Perm.swap _ _ _), ?_, ?_⟩
        · rw [starts_cons_self, hsame, List.cons_append]
        · intro j' m' hne
          rw [starts_cons_of_ne hne, starts_cons_of_ne hne, hother j' m' hne]
    · rw [starts_cons_of_ne hc] at h
      obtain ⟨rest, hperm, hsame, hother⟩ := ih h
      refine ⟨⟨j, a, m⟩ :: rest, (hperm.cons _).trans (List.Perm.swap _ _ _), ?_, ?_⟩
      · rw [starts_cons_of_ne hc, hsame]
      · intro j' m' hne
        by_cases hj : j = j' ∧ m = m'
        · obtain ⟨rfl, rfl⟩ := hj
          rw [starts_cons_self, starts_cons_self, hother _ _ hne]
        · rw [starts_cons_of_ne hj, starts_cons_of_ne hj, hother _ _ hne]

namespace BuddyAllocator

variable {s t u : BuddyAllocator}

def pool (s : BuddyAllocator) (i : ℕ) : ℕ := (s.region i).pool

def size (s : BuddyAllocator) (i : ℕ) : ℕ := (s.region i).size

def next (s : BuddyAllocator) (a : ℕ) : ℕ := (s.mem a).next

def SameOrders (s t : BuddyAllocator) : Prop :=
  ∀ a, (t.mem a).order = (s.mem a).order ∧ (t.mem a).region = (s.mem a).region

theorem SameOrders.refl (s : BuddyAllocator) : s.SameOrders s := fun _ => ⟨rfl, rfl⟩

theorem SameOrders.trans (h : s.SameOrders t) (h' : t.SameOrders u) : s.SameOrders u := fun a =>
  ⟨(h' a).1.trans (h a).1, (h' a).2.trans (h a).2⟩

structure SameRegions (s t : BuddyAllocator) : Prop where
  regions : t.regions = s.regions
  active : t.activeRegion = s.activeRegion
  growOrder : t.growOrder = s.growOrder
  minOrder : t.minOrder = s.minOrder
  maxOrder : t.maxOrder = s.maxOrder
  pool : t.pool = s.pool
  size : t.size = s.size
  region : ∀ i, (t.region i).minOrder = (s.region i).minOrder ∧
    (t.region i).maxOrder = (s.region i).maxOrder

theorem SameRegions.trans (h : s.SameRegions t) (h' : t.SameRegions u) : s.SameRegions u where
  regions := h'.regions.trans h.regions
  active := h'.active.trans h.active
  growOrder := h'.growOrder.trans h.growOrder
  minOrder := h'.minOrder.trans h.minOrder
  maxOrder := h'.maxOrder.trans h.maxOrder
  pool := h'.pool.trans h.pool
  size := h'.size.trans h.size
  region i := ⟨(h'.region i).1.trans (h.region i).1, (h'.region i).2.trans (h.region i).2⟩

theorem store_sameRegions (s : BuddyAllocator) (a : ℕ) (hd : BuddyHeader) :
    s.SameRegions (s.store a hd) :=
  ⟨rfl, rfl, rfl, rfl, rfl, rfl, rfl, fun _ => ⟨rfl, rfl⟩⟩

theorem setHead_region (s : BuddyAllocator) (i k a j : ℕ) :
    (s.setHead i k a).region j = if j = i then (s.region i).setHead k a else s.region j :=
  Function.update_apply _ _ _ _

theorem setHead_freeLists_self (s : BuddyAllocator) (i k a : ℕ) :
    ((s.setHead i k a).region i).freeLists k = a := by
  rw [setHead_region, if_pos rfl]
  exact Function.update_self _ _ _

theorem setHead_freeLists_of_ne (s : BuddyAllocator) {i k j m : ℕ} (a : ℕ) (h : ¬ (i = j ∧ k = m)) :
    ((s.setHead i k a).region j).freeLists m = (s.region j).freeLists m := by
  rw [setHead_region]
  split
  · next hj =>
    subst hj
    exact Function.update_of_ne (fun hm => h ⟨rfl, hm.symm⟩) _ _
  · rfl

theorem setHead_sameRegions (s : BuddyAllocator) (i k a : ℕ) : s.SameRegions (s.setHead i k a) := by
  have hregion : ∀ j, ((s.setHead i k a).region j).pool = (s.region j).pool ∧
      ((s.setHead i k a).region j).size = (s.region j).size ∧
      ((s.setHead i k a).region j).minOrder = (s.region j).minOrder ∧
      ((s.setHead i k a).region j).maxOrder = (s.region j).maxOrder := by
    intro j
    rw [setHead_region]
    split
    · next hj =>
      subst hj
      exact ⟨rfl, rfl, rfl, rfl⟩
    · exact ⟨rfl, rfl, rfl, rfl⟩
  exact ⟨rfl, rfl, rfl, rfl, rfl, funext fun j => (hregion j).1, funext fun j => (hregion j).2.1,
    fun j => (hregion j).2.2⟩

@[simp] theorem store_mem_self (s : BuddyAllocator) (a : ℕ) (hd : BuddyHeader) :
    (s.store a hd).mem a = hd := Function.update_self _ _ _

theorem store_mem_of_ne (s : BuddyAllocator) {a b : ℕ} (hd : BuddyHeader) (hb : b ≠ a) :
    (s.store a hd).mem b = s.mem b := Function.update_of_ne hb _ _

theorem store_next (s : BuddyAllocator) (a : ℕ) (hd : BuddyHeader) :
    (s.store a hd).next = Function.update s.next a hd.next := by
  funext b
  unfold next
  by_cases hb : b = a
  · rw [hb, store_mem_self, Function.update_self]
  · rw [store_mem_of_ne s hd hb, Function.update_of_ne hb]

theorem store_sameOrders (s : BuddyAllocator) (a n : ℕ) :
    s.SameOrders (s.store a { s.mem a with next := n }) := by
  intro b
  by_cases hb : b = a
  · rw [hb, store_mem_self]
    exact ⟨rfl, rfl⟩
  · rw [store_mem_of_ne s _ hb]
    exact ⟨rfl, rfl⟩

/-- The free lists hold the cells `F`, which tile the regions together with the cells `L`. -/
structure Tiled (s : BuddyAllocator) (F L : List Cell) : Prop where
  orders : BuddyOrders s.minOrder s.maxOrder s.growOrder
  uniform : ∀ i < s.regions, s.size i = 2 ^ s.growOrder ∧
    (s.region i).minOrder = s.minOrder ∧ (s.region i).maxOrder = s.maxOrder
  pools : ∀ i < s.regions, 0 < s.pool i ∧ s.pool i + 2 ^ s.growOrder ≤ 2 ^ 64
  active : ∀ i, s.activeRegion = some i → i < s.regions
  linked : ∀ i < s.regions, ∀ k, Linked 0 s.next ((s.region i).freeLists k) (starts i k F) 0
  tiling : Tiling s.regions s.pool s.size (F ++ L)

namespace Tiled

theorem retile (h : s.Tiled F L) {L' : List Cell}
    (htiling : Tiling s.regions s.pool s.size (F ++ L')) : s.Tiled F L' :=
  { h with tiling := htiling }

theorem relist (h : s.Tiled F L) (hsame : s.SameRegions t) {F' L' : List Cell}
    (hlinked : ∀ i < s.regions, ∀ k,
      Linked 0 t.next ((t.region i).freeLists k) (starts i k F') 0)
    (htiling : Tiling s.regions s.pool s.size (F' ++ L')) : t.Tiled F' L' := by
  obtain ⟨hregions, hactive, hgrow, hmin, hmax, hpool, hsize, hregion⟩ := hsame
  refine ⟨?_, fun i hi => ?_, fun i hi => ?_, fun i hi => ?_, fun i hi => ?_, ?_⟩
  · rw [hgrow, hmin, hmax]
    exact h.orders
  · rw [hregions] at hi
    rw [hsize, hgrow, hmin, hmax, (hregion i).1, (hregion i).2]
    exact h.uniform i hi
  · rw [hregions] at hi
    rw [hpool, hgrow]
    exact h.pools i hi
  · rw [hactive] at hi
    rw [hregions]
    exact h.active i hi
  · rw [hregions] at hi
    exact hlinked i hi
  · rw [hregions, hpool, hsize]
    exact htiling

theorem free_region (h : s.Tiled F L) (hc : c ∈ F ++ L) : c.region < s.regions :=
  h.tiling.region c hc

theorem start_pos (h : s.Tiled F L) (hc : c ∈ F ++ L) : 0 < c.start :=
  (h.pools _ (h.free_region hc)).1.trans_le (h.tiling.inside c hc).1

theorem finish_le (h : s.Tiled F L) (hc : c ∈ F ++ L) : c.finish ≤ 2 ^ 64 := by
  have hreg := h.free_region hc
  have hin := (h.tiling.inside c hc).2
  rw [(h.uniform _ hreg).1] at hin
  exact hin.trans (h.pools _ hreg).2

theorem order_le (h : s.Tiled F L) (hc : c ∈ F ++ L) : c.order ≤ s.growOrder := by
  have hreg := h.free_region hc
  have hin := h.tiling.inside c hc
  rw [(h.uniform _ hreg).1] at hin
  rw [← Nat.pow_le_pow_iff_right (show 1 < 2 by omega)]
  unfold Cell.finish at hin
  omega

theorem starts_nodup (h : s.Tiled F L) (i k : ℕ) : (starts i k F).Nodup := by
  have hnodup := h.tiling.starts_nodup
  rw [List.map_append, List.nodup_append] at hnodup
  exact hnodup.1.sublist (List.filter_sublist.map Cell.start)

theorem eq_of_mem_starts (h : s.Tiled F L) (hi : a ∈ starts i k F) (hj : a ∈ starts j m F) :
    i = j ∧ k = m := by
  rw [mem_starts] at hi hj
  have heq := h.tiling.eq_of_mem (List.mem_append_left L hi) (List.mem_append_left L hj)
    (Cell.start_mem _) (Cell.start_mem _)
  injection heq with hreg _ hord
  exact ⟨hreg, hord⟩

theorem not_mem_starts (h : s.Tiled F L) (hc : c ∈ L) (i k : ℕ) : c.start ∉ starts i k F := by
  intro hmem
  rw [mem_starts] at hmem
  have hap := (List.pairwise_append.mp h.tiling.apart).2.2 _ hmem _ hc
  exact hap.start_ne rfl

theorem push (h : s.Tiled F (⟨i, b, k⟩ :: L)) : (s.push i k b).Tiled (⟨i, b, k⟩ :: F) L := by
  have hmem : (⟨i, b, k⟩ : Cell) ∈ F ++ ⟨i, b, k⟩ :: L :=
    List.mem_append_right F List.mem_cons_self
  have hb : ∀ j m, b ∉ starts j m F := h.not_mem_starts List.mem_cons_self
  have hsame : s.SameRegions (s.push i k b) :=
    (store_sameRegions s b _).trans (setHead_sameRegions _ i k b)
  refine h.relist hsame (fun j hj m => ?_) (h.tiling.perm List.perm_middle)
  have hnext : (s.push i k b).next = Function.update s.next b ((s.region i).freeLists k) :=
    store_next s b _
  rw [hnext]
  by_cases hjm : i = j ∧ k = m
  · obtain ⟨rfl, rfl⟩ := hjm
    rw [starts_cons_self, BuddyAllocator.push, setHead_freeLists_self]
    exact (h.linked i hj k).push (hb i k) (h.start_pos hmem).ne'
  · rw [starts_cons_of_ne hjm, BuddyAllocator.push, setHead_freeLists_of_ne _ _ hjm]
    exact (h.linked j hj m).update_of_not_mem (hb j m)

theorem push_sameOrders (s : BuddyAllocator) (i k b : ℕ) : s.SameOrders (s.push i k b) :=
  store_sameOrders s b _

end Tiled

/-! ### Taking a block off its list -/

/-- The link that leads to the block behind `l`. -/
def LeadsFrom (l : List ℕ) : BuddyLink → Prop
  | .head => l = []
  | .next p => ∃ l', l = l' ++ [p]

theorem unlink_sameRegions (s : BuddyAllocator) (i k b : ℕ) (link : BuddyLink) :
    s.SameRegions (s.unlink i k b link) := by
  cases link with
  | head => exact setHead_sameRegions s i k _
  | next p => exact store_sameRegions s p _

theorem unlink_sameOrders (s : BuddyAllocator) (i k b : ℕ) (link : BuddyLink) :
    s.SameOrders (s.unlink i k b link) := by
  cases link with
  | head => exact SameOrders.refl s
  | next p => exact store_sameOrders s p _

theorem Tiled.unlink (h : s.Tiled F L) (hi : i < s.regions) (hsplit : starts i k F = l ++ b :: r)
    {link : BuddyLink} (hlink : LeadsFrom l link) :
    ∃ rest ⊆ F, (s.unlink i k b link).Tiled rest (⟨i, b, k⟩ :: L) := by
  obtain ⟨rest, hperm, hsame, hother⟩ := exists_perm_of_starts hsplit
  have htiling : Tiling s.regions s.pool s.size (rest ++ ⟨i, b, k⟩ :: L) :=
    h.tiling.perm ((hperm.append_right L).trans List.perm_middle.symm)
  have hsub : rest ⊆ F := fun c hc => hperm.mem_iff.mpr (List.mem_cons_of_mem _ hc)
  refine ⟨rest, hsub, h.relist (unlink_sameRegions s i k b link) (fun j hj m => ?_) htiling⟩
  have hlist := h.linked i hi k
  rw [hsplit] at hlist
  cases link with
  | head =>
    obtain rfl : l = [] := hlink
    obtain ⟨-, -, hrest⟩ := hlist
    change Linked 0 s.next ((s.setHead i k (s.next b)).region j |>.freeLists m) _ 0
    by_cases hjm : i = j ∧ k = m
    · obtain ⟨rfl, rfl⟩ := hjm
      rw [setHead_freeLists_self, hsame]
      exact hrest
    · rw [setHead_freeLists_of_ne _ _ hjm, hother j m hjm]
      exact h.linked j hj m
  | next p =>
    obtain ⟨l, rfl⟩ := hlink
    rw [List.append_assoc, List.singleton_append] at hsplit hlist
    have hp : p ∈ starts i k F := by
      rw [hsplit]
      exact List.mem_append_right l List.mem_cons_self
    change Linked 0 (s.store p { s.mem p with next := s.next b }).next _ _ 0
    rw [store_next]
    change Linked 0 (Function.update s.next p (s.next b)) ((s.region j).freeLists m) _ 0
    by_cases hjm : i = j ∧ k = m
    · obtain ⟨rfl, rfl⟩ := hjm
      rw [hsame, List.append_assoc, List.singleton_append]
      exact hlist.remove (hsplit ▸ h.starts_nodup i k)
    · rw [hother j m hjm]
      refine (h.linked j hj m).update_of_not_mem fun hmem => hjm (h.eq_of_mem_starts hp hmem)

/-! ### Splitting -/

theorem Tiled.halves (h : s.Tiled F (⟨i, b, k + 1⟩ :: L)) :
    s.Tiled F (⟨i, b + 2 ^ k, k⟩ :: ⟨i, b, k⟩ :: L) := by
  refine h.retile ((h.tiling.perm List.perm_middle).split.perm ?_)
  exact (List.Perm.swap _ _ _).trans ((List.perm_middle.symm.cons _).trans List.perm_middle.symm)

theorem Tiled.splitDown (cur : ℕ) (h : s.Tiled F (⟨i, b, cur⟩ :: L)) (hk : k ≤ cur) :
    ∃ F', (splitDown i b k cur s).Tiled F' (⟨i, b, k⟩ :: L) ∧
      s.SameOrders (RetroRocket.splitDown i b k cur s) := by
  induction cur generalizing s F with
  | zero =>
    obtain rfl : k = 0 := by omega
    exact ⟨F, h, SameOrders.refl s⟩
  | succ cur ih =>
    rw [RetroRocket.splitDown]
    split
    · next hlt =>
      obtain ⟨F', htiled, horders⟩ := ih h.halves.push (by omega)
      exact ⟨F', htiled, (Tiled.push_sameOrders s i cur _).trans horders⟩
    · next hge =>
      obtain rfl : k = cur + 1 := by omega
      exact ⟨F, h, SameOrders.refl s⟩

/-! ### Merging -/

theorem findBuddy_spec {mem : ℕ → BuddyHeader} {cur fuel : ℕ} (buddy : ℕ) (prev : BuddyLink)
    (h : Linked 0 (fun a => (mem a).next) cur xs 0) (hlen : xs.length < fuel) :
    (buddy ∉ xs ∧ findBuddy mem buddy fuel cur prev = some none) ∨
    (∃ r, xs = buddy :: r ∧ findBuddy mem buddy fuel cur prev = some (some prev)) ∨
    ∃ l p r, xs = l ++ p :: buddy :: r ∧
      findBuddy mem buddy fuel cur prev = some (some (.next p)) := by
  induction xs generalizing cur fuel prev with
  | nil =>
    obtain ⟨fuel, rfl⟩ := Nat.exists_eq_add_of_lt hlen
    obtain rfl : cur = 0 := h
    left
    refine ⟨List.not_mem_nil, ?_⟩
    rw [findBuddy, if_pos rfl]
  | cons x xs ih =>
    obtain ⟨rfl, hne, hrest⟩ := h
    cases fuel with
    | zero => cases hlen
    | succ fuel =>
      rw [findBuddy, if_neg hne]
      by_cases hb : cur = buddy
      · subst hb
        right; left
        exact ⟨xs, rfl, if_pos rfl⟩
      · rw [if_neg hb]
        rcases ih (.next cur) hrest (Nat.lt_of_succ_lt_succ hlen) with
          ⟨hnot, hfind⟩ | ⟨r, hxs, hfind⟩ | ⟨l, p, r, hxs, hfind⟩
        · left
          refine ⟨fun hmem => ?_, hfind⟩
          rcases List.mem_cons.mp hmem with heq | hmem
          · exact hb heq.symm
          · exact hnot hmem
        · right; right
          exact ⟨[], cur, r, by rw [hxs]; rfl, hfind⟩
        · right; right
          exact ⟨cur :: l, p, r, by rw [hxs]; rfl, hfind⟩

theorem buddyOf_eq {region : BuddyRegion} {g q : ℕ} (hsize : region.size = 2 ^ g)
    (hend : region.pool + 2 ^ g ≤ 2 ^ 64) (hfit : 2 ^ k * (q + 1) ≤ 2 ^ g) :
    buddyOf region (region.pool + 2 ^ k * q) k = region.pool + 2 ^ k * (q ^^^ 1) % 2 ^ g := by
  have hlt : 2 ^ k * q < 2 ^ g := by
    have := Nat.two_pow_pos k
    rw [mul_add] at hfit
    omega
  have hoff : blockOffset region (region.pool + 2 ^ k * q) = 2 ^ k * q := by
    unfold blockOffset
    rw [sub64_of_le (Nat.le_add_right _ _) (by omega), Nat.add_sub_cancel_left, hsize,
      Nat.and_two_pow_sub_one_eq_mod, Nat.mod_eq_of_lt hlt]
  have hmod := Nat.mod_lt (2 ^ k * (q ^^^ 1)) (Nat.two_pow_pos g)
  unfold buddyOf
  rw [hoff, Tiling.buddy_offset, hsize, Nat.and_two_pow_sub_one_eq_mod]
  exact u64_of_lt (by omega)

theorem Tiled.starts_length (h : s.Tiled F L) (i k : ℕ) : (starts i k F).length < 2 ^ 64 := by
  have hzero : 0 ∉ starts i k F := by
    intro hmem
    have := h.start_pos (List.mem_append_left L (mem_starts.mp hmem))
    exact lt_irrefl 0 this
  refine length_lt_of_nodup (h.starts_nodup i k) hzero (fun a ha => ?_) (Nat.two_pow_pos 64)
  have hmem := List.mem_append_left L (mem_starts.mp ha)
  exact (Cell.start_lt_finish _).trans_le (h.finish_le hmem)

theorem Tiled.eq_pool (h : s.Tiled F L) (hc : c ∈ F ++ L) (hk : c.order = s.growOrder) :
    c.start = s.pool c.region := by
  obtain ⟨hlow, hhigh⟩ := h.tiling.inside c hc
  rw [Cell.finish, (h.uniform _ (h.free_region hc)).1, hk] at hhigh
  omega

theorem Tiled.buddyOf_eq (h : s.Tiled F L) (hc : (⟨i, b, k⟩ : Cell) ∈ F ++ L)
    (hk : k < s.growOrder) :
    ∃ q, b = s.pool i + 2 ^ k * q ∧ buddyOf (s.region i) b k = s.pool i + 2 ^ k * (q ^^^ 1) := by
  have hi : i < s.regions := h.free_region hc
  obtain ⟨hsize, -, -⟩ := h.uniform i hi
  obtain ⟨-, hend⟩ := h.pools i hi
  obtain ⟨q, hq, hfit⟩ := h.tiling.offset hc
  dsimp only at hq hfit
  rw [hsize] at hfit
  have hpos := Nat.two_pow_pos k
  have hfits := Tiling.buddy_fits hk hfit
  have hbuddy := BuddyAllocator.buddyOf_eq hsize hend hfit
  change buddyOf (s.region i) (s.pool i + 2 ^ k * q) k = s.pool i + _ at hbuddy
  rw [mul_add, mul_one] at hfits
  rw [← hq, Nat.mod_eq_of_lt (by omega)] at hbuddy
  exact ⟨q, hq, hbuddy⟩

theorem Tiled.mergeStep (h : s.Tiled F (⟨i, b, k⟩ :: L))
    (hsplit : starts i k F = l ++ buddyOf (s.region i) b k :: r) {link : BuddyLink}
    (hlink : LeadsFrom l link) :
    ∃ F', (s.unlink i k (buddyOf (s.region i) b k) link).Tiled F'
      (⟨i, min b (buddyOf (s.region i) b k), k + 1⟩ :: L) := by
  have hmem : (⟨i, b, k⟩ : Cell) ∈ F ++ ⟨i, b, k⟩ :: L :=
    List.mem_append_right F List.mem_cons_self
  have hi : i < s.regions := h.free_region hmem
  have hne : buddyOf (s.region i) b k ≠ b := by
    intro heq
    refine h.not_mem_starts (c := ⟨i, b, k⟩) List.mem_cons_self i k ?_
    rw [hsplit, heq]
    exact List.mem_append_right l List.mem_cons_self
  have hbuddy : (⟨i, buddyOf (s.region i) b k, k⟩ : Cell) ∈ F := by
    rw [← mem_starts, hsplit]
    exact List.mem_append_right l List.mem_cons_self
  have hk : k < s.growOrder := by
    refine lt_of_le_of_ne (h.order_le hmem) fun hk => hne ?_
    exact (h.eq_pool (List.mem_append_left _ hbuddy) hk).trans (h.eq_pool hmem hk).symm
  obtain ⟨q, hq, hbuddy⟩ := h.buddyOf_eq hmem hk
  obtain ⟨F', -, hunlinked⟩ := h.unlink hi hsplit hlink
  obtain ⟨hregions, -, -, -, -, hpool, hsize', -⟩ :=
    unlink_sameRegions s i k (buddyOf (s.region i) b k) link
  refine ⟨F', hunlinked.retile ?_⟩
  have htiling := hunlinked.tiling
  rw [hregions, hpool, hsize'] at htiling ⊢
  refine Tiling.perm ?_ List.perm_middle.symm
  refine Tiling.merge_buddies (htiling.perm ?_) hq hbuddy
  exact List.perm_middle.trans ((List.perm_middle.cons _).trans (List.Perm.swap _ _ _))

theorem Tiled.mergeLoop_succ (fuel : ℕ) (h : s.Tiled F (⟨i, b, k⟩ :: L)) :
    (mergeLoop i (fuel + 1) s b k = some (s, b, k) ∧
      ((s.region i).maxOrder ≤ k ∨
        (buddyOf (s.region i) b k < s.pool i ∨
          u64 (s.pool i + s.size i) ≤ buddyOf (s.region i) b k) ∨
        buddyOf (s.region i) b k ∉ starts i k F)) ∨
    ∃ l r link, starts i k F = l ++ buddyOf (s.region i) b k :: r ∧ LeadsFrom l link ∧
      mergeLoop i (fuel + 1) s b k =
        mergeLoop i fuel (s.unlink i k (buddyOf (s.region i) b k) link)
          (min b (buddyOf (s.region i) b k)) (k + 1) := by
  have hi : i < s.regions := h.free_region (List.mem_append_right F List.mem_cons_self)
  rw [mergeLoop]
  split
  · next hmax => exact Or.inl ⟨rfl, Or.inl hmax⟩
  split
  · next hout => exact Or.inl ⟨rfl, Or.inr (Or.inl hout)⟩
  rcases findBuddy_spec (buddyOf (s.region i) b k) .head (h.linked i hi k)
    (h.starts_length i k) with ⟨hnot, hfind⟩ | ⟨r, hsplit, hfind⟩ | ⟨l, p, r, hsplit, hfind⟩
  · rw [hfind]
    exact Or.inl ⟨rfl, Or.inr (Or.inr hnot)⟩
  · rw [hfind]
    exact Or.inr ⟨[], r, .head, hsplit, rfl, rfl⟩
  · rw [hfind]
    refine Or.inr ⟨l ++ [p], r, .next p, ?_, ⟨l, rfl⟩, rfl⟩
    rw [hsplit, List.append_assoc, List.singleton_append]

theorem Tiled.mergeLoop (fuel : ℕ) (h : s.Tiled F (⟨i, b, k⟩ :: L))
    (hfuel : s.maxOrder < fuel + k) :
    ∃ t b' k' F', mergeLoop i fuel s b k = some (t, b', k') ∧ t.Tiled F' (⟨i, b', k'⟩ :: L) ∧
      s.SameOrders t := by
  induction fuel generalizing s F b k with
  | zero =>
    have := h.order_le (List.mem_append_right F List.mem_cons_self)
    have := h.orders.grow
    dsimp only at *
    omega
  | succ fuel ih =>
    rcases h.mergeLoop_succ fuel with ⟨hloop, -⟩ | ⟨l, r, link, hsplit, hlink, hloop⟩
    · exact ⟨s, b, k, F, hloop, h, SameOrders.refl s⟩
    · obtain ⟨F', hstep⟩ := h.mergeStep hsplit hlink
      have hmax := (unlink_sameRegions s i k (buddyOf (s.region i) b k) link).maxOrder
      obtain ⟨t, b', k', F'', hrest, htiled, horders⟩ := ih hstep (by omega)
      exact ⟨t, b', k', F'', hloop.trans hrest, htiled,
        (unlink_sameOrders s i k _ link).trans horders⟩

theorem Tiled.counters (h : s.Tiled F L) (current peak : ℕ) :
    ({ s with currentBytes := current, peakBytes := peak } : BuddyAllocator).Tiled F L :=
  ⟨h.orders, h.uniform, h.pools, h.active, h.linked, h.tiling⟩

theorem Tiled.header_eq (h : s.Tiled F (⟨i, b, k⟩ :: L)) : sub64 (b + 24) 24 = b := by
  have hmem : (⟨i, b, k⟩ : Cell) ∈ F ++ ⟨i, b, k⟩ :: L :=
    List.mem_append_right F List.mem_cons_self
  have hlt := (Cell.start_lt_finish _).trans_le (h.finish_le hmem)
  dsimp only at hlt
  unfold sub64 u64
  omega

/-- `buddy_free` on a live block returns and puts its cell back on the lists. -/
theorem Tiled.buddyFree (h : s.Tiled F (⟨i, b, k⟩ :: L)) (horder : (s.mem b).order = k)
    (hregion : (s.mem b).region = i) :
    ∃ t F', buddyFree s (b + 24) = some t ∧ t.Tiled F' L ∧ s.SameOrders t := by
  have hi : i < s.regions := h.free_region (List.mem_append_right F List.mem_cons_self)
  have hcounters :=
    h.counters (if 2 ^ k ≤ s.currentBytes then s.currentBytes - 2 ^ k else 0) s.peakBytes
  obtain ⟨t, b', k', F', hloop, htiled, horders⟩ :=
    hcounters.mergeLoop ((s.region i).maxOrder + 1)
      (by rw [(h.uniform i hi).2.2]; exact Nat.lt_add_right k (Nat.lt_succ_self _))
  refine ⟨t.push i k' b', _, ?_, htiled.push, ?_⟩
  · unfold RetroRocket.buddyFree
    rw [if_neg (by omega), h.header_eq]
    dsimp only
    rw [horder, hregion]
    simp only [hloop, Option.bind_eq_bind, Option.bind_some]
  · exact SameOrders.trans horders (Tiled.push_sameOrders t i k' b')

/-! ### New regions -/

/-- A pool that `kmalloc_aligned` may return: not null, and apart from the pools in use. -/
structure Fresh (s : BuddyAllocator) (pool : ℕ) : Prop where
  pos : 0 < pool
  finish_le : pool + 2 ^ s.growOrder ≤ 2 ^ 64
  apart : ∀ i < s.regions, pool + 2 ^ s.growOrder ≤ s.pool i ∨ s.pool i + 2 ^ s.growOrder ≤ pool

structure FreshPools (s : BuddyAllocator) (pools : List ℕ) : Prop where
  fresh : ∀ pool ∈ pools, s.Fresh pool
  apart : pools.Pairwise fun p q => p + 2 ^ s.growOrder ≤ q ∨ q + 2 ^ s.growOrder ≤ p

theorem grow_region (s : BuddyAllocator) (p j : ℕ) (hj : j ≠ s.regions) :
    (buddyGrow s p).region j = s.region j := Function.update_of_ne hj _ _

theorem grow_pool_of_lt (s : BuddyAllocator) (p : ℕ) {j : ℕ} (hj : j < s.regions) :
    (buddyGrow s p).pool j = s.pool j := congrArg BuddyRegion.pool (s.grow_region p j hj.ne)

theorem grow_pool_self (s : BuddyAllocator) (p : ℕ) : (buddyGrow s p).pool s.regions = p := by
  change (Function.update s.region s.regions _ s.regions).pool = p
  rw [Function.update_self]

theorem grow_sameOrders (s : BuddyAllocator) (p : ℕ) : s.SameOrders (buddyGrow s p) :=
  store_sameOrders s p 0

theorem Tiled.grow (h : s.Tiled F L) {p : ℕ} (hp : s.Fresh p) :
    (buddyGrow s p).Tiled (⟨s.regions, p, s.growOrder⟩ :: F) L := by
  have hgrow : (if s.maxOrder < s.growOrder then s.maxOrder else s.growOrder) = s.growOrder :=
    if_neg (not_lt.mpr h.orders.grow)
  have hnew : (buddyGrow s p).region s.regions =
      ⟨p, 2 ^ s.growOrder, Function.update (fun _ => 0) s.growOrder p, s.minOrder, s.maxOrder⟩ := by
    refine (Function.update_self _ _ _).trans ?_
    rw [hgrow]
  have hold : ∀ j < s.regions, (buddyGrow s p).region j = s.region j :=
    fun j hj => s.grow_region p j hj.ne
  have hapart : ∀ c ∈ F ++ L, Cell.Apart ⟨s.regions, p, s.growOrder⟩ c := by
    intro c hc
    have hreg := h.free_region hc
    have hin := h.tiling.inside c hc
    rw [(h.uniform _ hreg).1] at hin
    have hfresh := hp.apart _ hreg
    unfold Cell.Apart Cell.finish at *
    dsimp only
    omega
  have hregion : ∀ i k, p ∉ starts i k F := by
    intro i k hmem
    have := hapart _ (List.mem_append_left L (mem_starts.mp hmem))
    exact this.start_ne rfl
  have hnone : ∀ k, starts s.regions k F = [] := by
    intro k
    rw [List.eq_nil_iff_forall_not_mem]
    intro a ha
    have := h.free_region (List.mem_append_left L (mem_starts.mp ha))
    exact lt_irrefl _ this
  have hnext : (buddyGrow s p).next = Function.update s.next p 0 := store_next s p _
  refine ⟨h.orders, fun i hi => ?_, fun i hi => ?_, fun i hi => ?_, fun i hi k => ?_, ?_⟩
  · unfold size
    rcases Nat.lt_succ_iff_lt_or_eq.mp hi with hi | rfl
    · rw [hold i hi]
      exact h.uniform i hi
    · rw [hnew]
      exact ⟨rfl, rfl, rfl⟩
  · rcases Nat.lt_succ_iff_lt_or_eq.mp hi with hi | rfl
    · rw [s.grow_pool_of_lt p hi]
      exact h.pools i hi
    · rw [s.grow_pool_self p]
      exact ⟨hp.pos, hp.finish_le⟩
  · obtain rfl : s.regions = i := Option.some.inj hi
    exact Nat.lt_succ_self _
  · rw [hnext]
    rcases Nat.lt_succ_iff_lt_or_eq.mp hi with hi | rfl
    · rw [hold i hi, starts_cons_of_ne (by omega)]
      exact (h.linked i hi k).update_of_not_mem (hregion i k)
    · rw [hnew]
      dsimp only
      by_cases hk : s.growOrder = k
      · subst hk
        rw [starts_cons_self, hnone, Function.update_self]
        exact ⟨rfl, hp.pos.ne', Function.update_self _ _ _⟩
      · rw [starts_cons_of_ne (fun h => hk h.2), hnone, Function.update_of_ne (Ne.symm hk)]
        exact rfl
  · have hadd := h.tiling.add (buddyGrow s p).pool (buddyGrow s p).size
      (k := s.growOrder) (fun j hj => ?_) (congrArg BuddyRegion.size hnew) (fun c hc => ?_)
    · rw [s.grow_pool_self p] at hadd
      exact hadd
    · unfold pool size
      rw [hold j hj]
      exact ⟨rfl, rfl⟩
    · rw [s.grow_pool_self p]
      exact hapart c hc

theorem FreshPools.grow {p : ℕ} {pools : List ℕ} (h : s.FreshPools (p :: pools)) :
    (buddyGrow s p).FreshPools pools := by
  obtain ⟨hfirst, hrest⟩ := List.pairwise_cons.mp h.apart
  refine ⟨fun q hq => ?_, hrest⟩
  obtain ⟨hpos, hend, hapart⟩ := h.fresh q (List.mem_cons_of_mem _ hq)
  refine ⟨hpos, hend, fun i hi => ?_⟩
  rcases Nat.lt_succ_iff_lt_or_eq.mp hi with hi | rfl
  · rw [s.grow_pool_of_lt p hi]
    exact hapart i hi
  · rw [s.grow_pool_self p]
    exact (hfirst q hq).symm

/-! ### Allocation -/

theorem findOrder_eq_some {region : BuddyRegion} {order cur : ℕ}
    (h : findOrder region order = some cur) :
    order ≤ cur ∧ cur ≤ region.maxOrder ∧ region.freeLists cur ≠ 0 := by
  have hmem := List.mem_of_find?_eq_some h
  have hfree := List.find?_some h
  rw [List.mem_range'_1] at hmem
  exact ⟨hmem.1, by omega, of_decide_eq_true hfree⟩

/-- The block of order `k` at `b` was handed out: all other orders and regions are as before. -/
structure Taken (s t : BuddyAllocator) (i b k : ℕ) : Prop where
  order : (t.mem b).order = k
  region : (t.mem b).region = i
  other : ∀ a, a ≠ b → (t.mem a).order = (s.mem a).order ∧ (t.mem a).region = (s.mem a).region

/-- Writing a header without changing its `next` changes no list. -/
theorem Tiled.setHeader (h : s.Tiled F L) (b : ℕ) (hd : BuddyHeader) (hhd : hd.next = s.next b) :
    (s.store b hd).Tiled F L := by
  refine h.relist (store_sameRegions s b hd) (fun j hj m => ?_) h.tiling
  have hnext : (s.store b hd).next = s.next := by
    rw [store_next, hhd]
    exact Function.update_eq_self b s.next
  rw [hnext]
  exact h.linked j hj m

theorem Tiled.write (h : s.Tiled F L) (hd : BuddyHeader) (hstart : ∀ c ∈ F ++ L, c.start ≠ a) :
    (s.store a hd).Tiled F L := by
  refine h.relist (store_sameRegions s a hd) (fun i hi k => ?_) h.tiling
  rw [store_next]
  refine (h.linked i hi k).update_of_not_mem fun hmem => ?_
  exact hstart _ (List.mem_append_left _ (mem_starts.mp hmem)) rfl

theorem Tiled.exists_starts (h : s.Tiled F L) (hi : i < s.regions)
    (hfree : (s.region i).freeLists k ≠ 0) : ∃ r, starts i k F = (s.region i).freeLists k :: r := by
  have hlist := h.linked i hi k
  cases hstarts : starts i k F with
  | nil =>
    rw [hstarts] at hlist
    exact absurd hlist hfree
  | cons a r =>
    rw [hstarts] at hlist
    exact ⟨r, by rw [hlist.1]⟩

theorem Tiled.takeBlock (h : s.Tiled F L) (hi : i < s.regions) {cur : ℕ} (hk : k ≤ cur)
    (hfree : (s.region i).freeLists cur ≠ 0) :
    ∃ t b F', takeBlock s i k cur = (b + 24, t) ∧ t.Tiled F' (⟨i, b, k⟩ :: L) ∧
      s.Taken t i b k := by
  obtain ⟨r, hsplit⟩ := h.exists_starts hi hfree
  have hhead : LeadsFrom [] .head := rfl
  obtain ⟨rest, -, hpop⟩ := h.unlink hi (l := []) hsplit hhead
  obtain ⟨F', hdown, horders⟩ := Tiled.splitDown cur hpop hk
  have hset : ∀ {u : BuddyAllocator} {b}, u.Tiled F' (⟨i, b, k⟩ :: L) →
      (u.store b { u.mem b with order := k, region := i }).Tiled F' (⟨i, b, k⟩ :: L) :=
    fun hu => hu.setHeader _ _ rfl
  refine ⟨_, _, F', rfl, (hset hdown).counters _ _, ?_, ?_, fun a ha => ?_⟩
  · exact congrArg BuddyHeader.order (store_mem_self _ _ _)
  · exact congrArg BuddyHeader.region (store_mem_self _ _ _)
  · refine ⟨?_, ?_⟩
    · exact (congrArg BuddyHeader.order (store_mem_of_ne _ _ ha)).trans (horders a).1
    · exact (congrArg BuddyHeader.region (store_mem_of_ne _ _ ha)).trans (horders a).2

theorem SameOrders.taken (h : s.SameOrders u) (ht : u.Taken t i b k) : s.Taken t i b k where
  order := ht.order
  region := ht.region
  other a ha := ⟨(ht.other a ha).1.trans (h a).1, (ht.other a ha).2.trans (h a).2⟩

inductive Allocated (s : BuddyAllocator) (L : List Cell) (size : ℕ) : ℕ → BuddyAllocator → Prop
  | failed {t : BuddyAllocator} {F : List Cell} : s.SameOrders t → t.Tiled F L →
      Allocated s L size 0 t
  | block {t : BuddyAllocator} {F : List Cell} {i b k : ℕ} : size + 24 ≤ 2 ^ k → s.Taken t i b k →
      t.Tiled F (⟨i, b, k⟩ :: L) →
      Allocated s L size (b + 24) t

theorem SameOrders.allocated (h : s.SameOrders u) {n ptr : ℕ} (ha : u.Allocated L n ptr t) :
    s.Allocated L n ptr t := by
  cases ha with
  | failed hsame htiled => exact .failed (h.trans hsame) htiled
  | block hsize htaken htiled => exact .block hsize (h.taken htaken) htiled

theorem Tiled.mallocLoop {n : ℕ} (fuel : ℕ) {pools : List ℕ} (h : s.Tiled F L) (hi : i < s.regions)
    (hpools : s.FreshPools pools) (hfuel : s.regions - i + pools.length ≤ fuel)
    (hsize : n + 24 ≤ 2 ^ s.maxOrder) :
    ∃ ptr t, mallocLoop n fuel s i pools = some (ptr, t) ∧ s.Allocated L n ptr t := by
  induction fuel generalizing s F i pools with
  | zero => omega
  | succ fuel ih =>
    obtain ⟨-, hmin, hmax⟩ := h.uniform i hi
    have hle := h.orders.le
    have hbound := h.orders.max
    have hpow : 2 ^ s.maxOrder ≤ 2 ^ 29 := Nat.pow_le_pow_right (by omega) hbound
    have hunit : 2 ^ (s.region i).minOrder ≤ 2 ^ 29 := Nat.pow_le_pow_right (by omega) (by omega)
    obtain ⟨k, horder, hleast⟩ :=
      sizeToOrder_spec (s.region i) (n + 24) (by omega) (by omega)
    have hfit := sizeToOrder_fits (by omega) horder
    have hk : k ≤ s.maxOrder := hleast _ (by omega) (by omega) hsize
    rw [RetroRocket.mallocLoop.eq_def]
    dsimp only
    rw [u64_of_lt (by omega), horder]
    simp only [Option.bind_eq_bind, Option.bind_some]
    rw [if_neg (by omega)]
    cases hfind : findOrder (s.region i) k with
    | some cur =>
      obtain ⟨hcur, -, hfree⟩ := findOrder_eq_some hfind
      obtain ⟨t, b, F', htake, htiled, htaken⟩ := h.takeBlock hi hcur hfree
      exact ⟨b + 24, t, congrArg some htake, .block hfit htaken htiled⟩
    | none =>
      dsimp only
      split
      · next hnext => exact ih h hnext hpools (by omega) hsize
      · cases pools with
        | nil => exact ⟨0, s, rfl, .failed (SameOrders.refl s) h⟩
        | cons p pools =>
          rw [List.length_cons] at hfuel
          obtain ⟨ptr, t, hloop, halloc⟩ := ih (h.grow (hpools.fresh p List.mem_cons_self))
            (Nat.lt_succ_self s.regions) hpools.grow
            (by change s.regions + 1 - s.regions + pools.length ≤ fuel; omega) hsize
          exact ⟨ptr, t, hloop, (s.grow_sameOrders p).allocated halloc⟩

/-- `buddy_malloc` returns, with a null pointer or a block. -/
theorem Tiled.buddyMalloc (h : s.Tiled F L) (n : ℕ) {pools : List ℕ} (hpools : s.FreshPools pools) :
    ∃ ptr t, buddyMalloc s n pools = some (ptr, t) ∧ s.Allocated L n ptr t := by
  have hfailed : s.Allocated L n 0 s := .failed (SameOrders.refl s) h
  have hmin : 2 ^ 5 ≤ 2 ^ s.maxOrder :=
    Nat.pow_le_pow_right (by omega) (h.orders.min.trans h.orders.le)
  have hmax : 2 ^ s.maxOrder ≤ 2 ^ 29 := Nat.pow_le_pow_right (by omega) h.orders.max
  unfold RetroRocket.buddyMalloc
  split
  · exact ⟨0, s, rfl, hfailed⟩
  split
  · exact ⟨0, s, rfl, hfailed⟩
  · next hlarge =>
    rw [sub64_of_le (by omega) (by omega)] at hlarge
    cases hactive : s.activeRegion with
    | some i =>
      exact h.mallocLoop _ (h.active i hactive) hpools (by omega) (by omega)
    | none =>
      cases pools with
      | nil => exact ⟨0, s, rfl, hfailed⟩
      | cons p pools =>
        obtain ⟨ptr, t, hloop, halloc⟩ :=
          (h.grow (hpools.fresh p List.mem_cons_self)).mallocLoop (n := n)
            (s.regions + (p :: pools).length + 1) (Nat.lt_succ_self s.regions) hpools.grow
            (by
              change s.regions + 1 - s.regions + pools.length ≤ _
              rw [List.length_cons]
              omega)
            (by change n + 24 ≤ 2 ^ s.maxOrder; omega)
        exact ⟨ptr, t, hloop, (s.grow_sameOrders p).allocated halloc⟩

end BuddyAllocator

end RetroRocket
