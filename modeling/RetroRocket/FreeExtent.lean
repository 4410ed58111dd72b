import RetroRocket.GroupScan

/-!
# Finding a free extent

A request that fits in one group is answered soundly whenever the all-free bits can be trusted. A
request that spans groups is answered from the first group `g` whose tail, as the suffix scan sees
it, and the free sectors after it `Reaches` the request. The answer is sound exactly when the scan
has passed over no used sector in that tail.
-/

namespace RetroRocket

open RetroRocket.Action

attribute [local irreducible] rfsGroupSize

namespace Volume

variable {v : Volume}

def tailStart (v : Volume) (g : ℕ) : ℕ :=
  Nat.findGreatest (fun a => 0 < a ∧ SeenUsed (v.groupBuf g) (rfsGroupSize v g) (a - 1))
    (rfsGroupSize v g)

theorem tailStart_eq_iff {g a : ℕ} :
    v.tailStart g = a ↔ a ≤ rfsGroupSize v g ∧
      (a ≠ 0 → SeenUsed (v.groupBuf g) (rfsGroupSize v g) (a - 1)) ∧
      ∀ i, a ≤ i → i < rfsGroupSize v g → ¬ SeenUsed (v.groupBuf g) (rfsGroupSize v g) i := by
  unfold tailStart
  rw [Nat.findGreatest_eq_iff]
  constructor
  · rintro ⟨hle, hlast, hnone⟩
    refine ⟨hle, fun h0 => (hlast h0).2, fun i hi hin hseen => ?_⟩
    exact hnone (n := i + 1) (by omega) (by omega) ⟨by omega, hseen⟩
  · rintro ⟨hle, hlast, hnone⟩
    refine ⟨hle, fun h0 => ⟨by omega, hlast h0⟩, fun n hn hnle hP => ?_⟩
    exact hnone (n - 1) (by omega) (by omega) hP.2

theorem tailStart_le (v : Volume) (g : ℕ) : v.tailStart g ≤ rfsGroupSize v g :=
  (tailStart_eq_iff.mp rfl).1

theorem suffix_eq_tail (v : Volume) (g : ℕ) :
    (rfsGroupPrefixSuffixFree (v.groupBuf g) (rfsGroupSize v g)).2 =
      rfsGroupSize v g - v.tailStart g := by
  obtain ⟨hle, hnone, hlast⟩ := suffix_spec (v.groupBuf g) (rfsGroupSize v g)
  have h : v.tailStart g =
      rfsGroupSize v g - (rfsGroupPrefixSuffixFree (v.groupBuf g) (rfsGroupSize v g)).2 := by
    rw [tailStart_eq_iff]
    refine ⟨Nat.sub_le _ _, fun h0 => ?_, hnone⟩
    rcases hlast with h | h
    · omega
    · exact h
  omega

/-- Sector `x` is free in L0. -/
def Free (v : Volume) (x : ℕ) : Prop := v.l0Used x = false

/-- The sectors that must be free after group `g` when the request starts in its tail. Unless the
request leaves a remainder, the search takes the groups after `g` only as a whole. -/
def restLength (v : Volume) (need g : ℕ) : ℕ :=
  let rest := need - (rfsGroupSize v g - v.tailStart g)
  if need % 4096 = 0 then 4096 * ((rest + 4095) / 4096) else rest

theorem restLength_of_mod_ne {need g : ℕ} (h : need % 4096 ≠ 0) :
    v.restLength need g = need - (rfsGroupSize v g - v.tailStart g) := by
  unfold restLength
  dsimp only
  rw [if_neg h]

/-- The tail of group `g`, as the scan sees it, and the sectors after `g` hold the request. -/
def Reaches (v : Volume) (need g : ℕ) : Prop :=
  v.tailStart g < rfsGroupSize v g ∧
    4096 * (g + 1) + (need - (rfsGroupSize v g - v.tailStart g)) ≤ v.totalSectors ∧
    ∀ x, 4096 * (g + 1) ≤ x → x < 4096 * (g + 1) + v.restLength need g → x < v.totalSectors →
      v.Free x

def FirstTailFree (v : Volume) (need : ℕ) : Prop :=
  ∀ g < v.l1Groups, v.Reaches need g → (∀ g' < g, ¬ v.Reaches need g') →
    ∀ i, v.tailStart g ≤ i → i < rfsGroupSize v g → v.Free (4096 * g + i)

/-- The sectors `s .. s + need - 1` lie in the volume and are free in L0. -/
def FreeExtent (v : Volume) (s need : ℕ) : Prop :=
  s + need ≤ v.totalSectors ∧ ∀ x, s ≤ x → x < s + need → v.Free x

theorem free_of_group {g x : ℕ}
    (hfree : ∀ i < rfsGroupSize v g, v.l0Used (4096 * g + i) = false) (hx : 4096 * g ≤ x)
    (hx' : x < 4096 * g + rfsGroupSize v g) : v.Free x := by
  have h := hfree (x - 4096 * g) (by omega)
  rwa [Nat.add_sub_cancel' hx] at h

end Volume

/-! ## One group -/

theorem rfsLoadGroupSector_post (env : Env) (v : Rfs) (g : ℕ) :
    Post (rfsLoadGroupSector env g) v
      (fun buf t => buf = v.groupBuf g ∧ t.toVolume = v.toVolume)
      (fun t => t.toVolume = v.toVolume ∧
        (v.MapInside → g < v.l1Groups → ∃ n, env.io n = false)) := by
  simp only [rfsLoadGroupSector, post_bind, post_get]
  refine (rfsReadDevice_post env _ 512 v).mono (fun buf t h => ⟨h.2.1, h.2.2⟩) (fun t h => ?_)
  exact ⟨h.1, fun hmap hg => h.2 (Volume.inRange_mapSector hmap hg)⟩

theorem findInGroup_post (env : Env) {need : ℕ} (gs : List ℕ) (v : Rfs) (hv : v.Geometry)
    (hfree : v.AllFreeSound) (hgs : ∀ g ∈ gs, g < v.l1Groups) :
    Post (findInGroup env need gs) v
      (fun r t => t.toVolume = v.toVolume ∧ ∀ s, r = some s → v.FreeExtent s need)
      (fun t => t.toVolume = v.toVolume) := by
  induction gs generalizing v with
  | nil => exact ⟨rfl, fun s h => by cases h⟩
  | cons g gs ih =>
    have hg : g < v.l1Groups := hgs g List.mem_cons_self
    have hrest : ∀ g' ∈ gs, g' < v.l1Groups := fun g' h => hgs g' (List.mem_cons_of_mem g h)
    obtain ⟨hsize, htotal⟩ := hv.groupSize_le hg
    simp only [findInGroup, post_bind, post_get]
    split
    · exact ih v hv hfree hrest
    · split
      · next hall =>
        split
        · next hneed =>
          refine ⟨rfl, fun s hs => ?_⟩
          obtain rfl := Option.some.inj hs
          refine ⟨by omega, fun x hx hx' => ?_⟩
          exact Volume.free_of_group (hfree g hg hall) hx (by omega)
        · exact ih v hv hfree hrest
      · rw [post_bind]
        refine (rfsLoadGroupSector_post env v g).mono (fun buf t h => ?_) (fun t h => h.1)
        obtain ⟨rfl, ht⟩ := h
        split
        · next offset hrun =>
          obtain ⟨hle, hbits⟩ := findRun_spec hrun
          refine ⟨ht, fun s hs => ?_⟩
          have hs' : 4096 * g + offset = s := Option.some.inj hs
          subst hs'
          refine ⟨by omega, fun x hx hx' => ?_⟩
          have hlt : x - 4096 * g < 4096 := by omega
          have hx4 : 4096 * g + (x - 4096 * g) = x := by omega
          have hbit := hbits (x - 4096 * g) (by omega) (by omega)
          rw [v.bit_groupBuf g hlt, hx4] at hbit
          exact hbit
        · rw [← ht] at hv hfree hrest ⊢
          exact ih t hv hfree hrest

/-! ## Across groups -/

namespace Volume

variable {v : Volume}

def FreePrefix (v : Volume) (g p : ℕ) : Prop :=
  p ≤ rfsGroupSize v g ∧ (∀ i < p, v.Free (4096 * g + i)) ∧
    (p = rfsGroupSize v g ∨ ¬ v.Free (4096 * g + p))

theorem tailStart_eq_zero {g : ℕ} (hsize : rfsGroupSize v g ≤ 4096)
    (hfree : ∀ i < rfsGroupSize v g, v.l0Used (4096 * g + i) = false) : v.tailStart g = 0 := by
  rw [tailStart_eq_iff]
  refine ⟨Nat.zero_le _, fun h => absurd rfl h, fun i _ hi hseen => ?_⟩
  have hused := hseen.1
  rw [v.bit_groupBuf g (by omega), hfree i hi] at hused
  exact Bool.false_ne_true hused

theorem tailStart_eq_size {g : ℕ} (hsize : rfsGroupSize v g ≤ 4096) (hpos : 0 < rfsGroupSize v g)
    (hfull : ∀ i < rfsGroupSize v g, v.l0Used (4096 * g + i) = true) :
    v.tailStart g = rfsGroupSize v g := by
  rw [tailStart_eq_iff]
  refine ⟨le_rfl, fun _ => ⟨?_, Or.inr (Or.inl rfl)⟩, fun i hi hi' => by omega⟩
  rw [v.bit_groupBuf g (by omega)]
  exact hfull _ (by omega)

theorem chainGroups_spec (hv : v.Geometry) {need : ℕ} (fuel collected gg : ℕ)
    (hfuel : v.l1Groups ≤ gg + fuel) {c k : ℕ} (h : chainGroups v need fuel collected gg = (c, k)) :
    gg ≤ k ∧ c + min (4096 * gg) v.totalSectors = collected + min (4096 * k) v.totalSectors ∧
      (∀ j, gg ≤ j → j < k → j < v.l1Groups ∧ bitsetGet v.l1AllFree j = true) ∧
      (need ≤ c ∨ v.l1Groups ≤ k ∨ bitsetGet v.l1AllFree k ≠ true) := by
  induction fuel generalizing collected gg with
  | zero =>
    cases h
    exact ⟨le_rfl, rfl, fun j hj hj' => by omega, Or.inr (Or.inl hfuel)⟩
  | succ fuel ih =>
    unfold chainGroups at h
    split at h
    · next hc =>
      obtain ⟨_, hgg, hall⟩ := hc
      obtain ⟨hle, hsum, hgroups, hstop⟩ := ih _ (gg + 1) (by omega) h
      have hlt := hv.start_lt hgg
      have hsize := hv.groupSize hgg
      refine ⟨by omega, by omega, fun j hj hj' => ?_, hstop⟩
      rcases Nat.eq_or_lt_of_le hj with rfl | hlt'
      · exact ⟨hgg, hall⟩
      · exact hgroups j hlt' hj'
    · next hc =>
      cases h
      refine ⟨le_rfl, rfl, fun j hj hj' => by omega, ?_⟩
      by_contra hnot
      push Not at hnot
      exact hc ⟨hnot.1, hnot.2.1, hnot.2.2⟩

theorem free_of_chain (hfree : v.AllFreeSound) (hv : v.Geometry) {a k : ℕ}
    (hchain : ∀ j, a ≤ j → j < k → j < v.l1Groups ∧ bitsetGet v.l1AllFree j = true) {x : ℕ}
    (hx : 4096 * a ≤ x) (hx' : x < 4096 * k) (ht : x < v.totalSectors) : v.Free x := by
  obtain ⟨hj, hall⟩ := hchain (x / 4096) (by omega) (by omega)
  have hsize := hv.groupSize hj
  exact free_of_group (hfree _ hj hall) (by omega) (by omega)

/-- The tests of the group loop decide whether group `g` reaches the request. -/
theorem Exact.reaches_iff (hv : v.Exact) {need g c k p : ℕ} (hneed : 4096 < need)
    (hg : g < v.l1Groups) (htail : v.tailStart g < rfsGroupSize v g)
    (h : chainGroups v need v.l1Groups (rfsGroupSize v g - v.tailStart g) (g + 1) = (c, k))
    (hp : k < v.l1Groups → v.FreePrefix k p) :
    v.Reaches need g ↔ need ≤ c ∨ (0 < need % 4096 ∧ c < need ∧ k < v.l1Groups ∧ need ≤ c + p) := by
  obtain ⟨hgk, hsum, hchain, hstop⟩ := chainGroups_spec hv.toGeometry _ _ _ (by omega) h
  obtain ⟨hsize, hend⟩ := hv.toGeometry.groupSize_le hg
  have hlt := hv.toGeometry.start_lt hg
  have hgsize := hv.toGeometry.groupSize hg
  have hchainFree : ∀ x, 4096 * (g + 1) ≤ x → x < 4096 * k → x < v.totalSectors → v.Free x :=
    fun x => free_of_chain hv.sound.allFreeSound hv.toGeometry hchain
  constructor
  · rintro ⟨-, htotal, hrest⟩
    by_contra hnot
    push Not at hnot
    obtain ⟨hc, hpre⟩ := hnot
    have hk : k < v.l1Groups := by
      rcases hv.toGeometry.l1Groups_eq with ⟨_, hl⟩ | ⟨_, hl⟩ <;> omega
    have hkt := hv.toGeometry.start_lt hk
    have hksize := hv.toGeometry.groupSize hk
    have hnall : bitsetGet v.l1AllFree k ≠ true := by
      rcases hstop with h | h | h
      · omega
      · omega
      · exact h
    -- the group after the chain is not all free, so the request ends inside it
    have hshort : 4096 * (g + 1) + v.restLength need g < 4096 * k + rfsGroupSize v k := by
      by_contra hlong
      refine hnall ((hv.allFree_iff hk).mpr fun i hi => ?_)
      exact hrest (4096 * k + i) (by omega) (by omega) (by omega)
    have hmod : 0 < need % 4096 := by
      by_contra hzero
      unfold restLength at hshort
      rw [if_pos (by omega)] at hshort
      omega
    obtain ⟨hple, -, hpstop⟩ := hp hk
    have hneedp := hpre hmod hc hk
    unfold restLength at hshort hrest
    rw [if_neg (by omega)] at hshort hrest
    rcases hpstop with hpe | hused
    · omega
    · exact hused (hrest (4096 * k + p) (by omega) (by omega) (by omega))
  · rintro (hc | ⟨hmod, hc, hk, hcp⟩)
    · refine ⟨htail, by omega, fun x hx hx' ht => hchainFree x hx ?_ ht⟩
      unfold restLength at hx'
      dsimp only at hx'
      split at hx' <;> omega
    · have hkt := hv.toGeometry.start_lt hk
      obtain ⟨hple, hpfree, -⟩ := hp hk
      obtain ⟨-, hkend⟩ := hv.toGeometry.groupSize_le hk
      refine ⟨htail, by omega, fun x hx hx' ht => ?_⟩
      unfold restLength at hx'
      rw [if_neg (by omega)] at hx'
      by_cases hxk : x < 4096 * k
      · exact hchainFree x hx hxk ht
      · have hfree := hpfree (x - 4096 * k) (by omega)
        rwa [show 4096 * k + (x - 4096 * k) = x by omega] at hfree

end Volume

theorem freePrefix_scan (v : Volume) (g : ℕ) (hsize : rfsGroupSize v g ≤ 4096) :
    v.FreePrefix g (rfsGroupPrefixSuffixFree (v.groupBuf g) (rfsGroupSize v g)).1 := by
  obtain ⟨hle, hfree, hstop⟩ := prefix_spec (v.groupBuf g) (rfsGroupSize v g)
  refine ⟨hle, fun i hi => ?_, ?_⟩
  · have hbit := hfree i hi
    rwa [v.bit_groupBuf g (by omega)] at hbit
  · by_cases hend : (rfsGroupPrefixSuffixFree (v.groupBuf g) (rfsGroupSize v g)).1 =
        rfsGroupSize v g
    · exact Or.inl hend
    · right
      have hbit := hstop.resolve_left hend
      rw [v.bit_groupBuf g (by omega)] at hbit
      exact fun hf => Bool.false_ne_true (hf.symm.trans hbit)

theorem tailFree_post (env : Env) (v : Rfs) (hv : v.Exact) {g : ℕ} (hg : g < v.l1Groups) :
    Post (tailFree env g) v
      (fun r t => t.toVolume = v.toVolume ∧
        r.getD 0 = rfsGroupSize v.toVolume g - v.tailStart g)
      (fun t => t.toVolume = v.toVolume ∧ (v.MapInside → ∃ n, env.io n = false)) := by
  obtain ⟨hsize, -⟩ := hv.toGeometry.groupSize_le hg
  have hpos : 0 < rfsGroupSize v.toVolume g := by
    have := hv.toGeometry.start_lt hg
    rw [hv.toGeometry.groupSize hg]
    omega
  simp only [tailFree, post_bind, post_get]
  split
  · next hall =>
    refine ⟨rfl, ?_⟩
    rw [Volume.tailStart_eq_zero hsize ((hv.allFree_iff hg).mp hall)]
    rfl
  · split
    · next hnot =>
      simp only [post_bind, post_pure]
      refine (rfsLoadGroupSector_post env v g).mono (fun buf t h => ?_)
        (fun t h => ⟨h.1, fun hm => h.2 hm hg⟩)
      obtain ⟨rfl, ht⟩ := h
      exact ⟨ht, v.suffix_eq_tail g⟩
    · next hfull =>
      refine ⟨rfl, ?_⟩
      have hused : ∀ i < rfsGroupSize v.toVolume g, v.l0Used (4096 * g + i) = true := by
        intro i hi
        by_contra hfree
        exact hfull ((hv.notFull_iff hg).mpr ⟨i, hi, Bool.eq_false_iff.mpr hfree⟩)
      rw [Volume.tailStart_eq_size hsize hpos hused, Nat.sub_self]
      rfl

theorem prefixFree_post (env : Env) (v : Rfs) (hv : v.Exact) {g : ℕ} (hg : g < v.l1Groups) :
    Post (prefixFree env g) v (fun p t => t.toVolume = v.toVolume ∧ v.FreePrefix g p)
      (fun t => t.toVolume = v.toVolume ∧ (v.MapInside → ∃ n, env.io n = false)) := by
  obtain ⟨hsize, -⟩ := hv.toGeometry.groupSize_le hg
  simp only [prefixFree, post_bind, post_get]
  split
  · next hall => exact ⟨rfl, le_rfl, (hv.allFree_iff hg).mp hall, Or.inl rfl⟩
  · split
    · next hnot =>
      simp only [post_bind, post_pure]
      refine (rfsLoadGroupSector_post env v g).mono (fun buf t h => ?_)
        (fun t h => ⟨h.1, fun hm => h.2 hm hg⟩)
      obtain ⟨rfl, ht⟩ := h
      exact ⟨ht, freePrefix_scan v.toVolume g hsize⟩
    · next hfull =>
      refine ⟨rfl, Nat.zero_le _, fun i hi => absurd hi (Nat.not_lt_zero i), ?_⟩
      by_cases hpos : 0 < rfsGroupSize v.toVolume g
      · right
        exact fun hf => hfull ((hv.notFull_iff hg).mpr ⟨0, hpos, hf⟩)
      · left
        omega

/-- The group loop from group `lo` on answers with the first group that reaches the request. -/
theorem findAcrossGroups_post (env : Env) {need : ℕ} (hneed : 4096 < need) (n lo : ℕ) (v : Rfs)
    (hv : v.Exact) (hn : lo + n ≤ v.l1Groups) :
    Post (findAcrossGroups env need (List.range' lo n)) v
      (fun r t => t.toVolume = v.toVolume ∧
        match r with
        | some s => ∃ g, lo ≤ g ∧ g < lo + n ∧ v.Reaches need g ∧
            (∀ g', lo ≤ g' → g' < g → ¬ v.Reaches need g') ∧ s = 4096 * g + v.tailStart g
        | none => ∀ g, lo ≤ g → g < lo + n → ¬ v.Reaches need g)
      (fun t => t.toVolume = v.toVolume ∧ (v.MapInside → ∃ n, env.io n = false)) := by
  induction n generalizing lo v with
  | zero => exact ⟨rfl, fun g h h' => by omega⟩
  | succ n ih =>
    have hlo : lo < v.l1Groups := by omega
    -- once group `lo` is known not to reach, the rest of the loop answers
    have hnext : ∀ t : Rfs, t.toVolume = v.toVolume → ¬ v.Reaches need lo →
        Post (findAcrossGroups env need (List.range' (lo + 1) n)) t
          (fun r t => t.toVolume = v.toVolume ∧
            match r with
            | some s => ∃ g, lo ≤ g ∧ g < lo + (n + 1) ∧ v.Reaches need g ∧
                (∀ g', lo ≤ g' → g' < g → ¬ v.Reaches need g') ∧ s = 4096 * g + v.tailStart g
            | none => ∀ g, lo ≤ g → g < lo + (n + 1) → ¬ v.Reaches need g)
          (fun t => t.toVolume = v.toVolume ∧ (v.MapInside → ∃ n, env.io n = false)) := by
      intro t ht hnot
      have hcase : ∀ g', lo ≤ g' → g' = lo ∨ lo + 1 ≤ g' := by omega
      rw [← ht] at hv hn hnot ⊢
      refine (ih (lo + 1) t hv (by omega)).mono (fun r t' h => ⟨h.1, ?_⟩) (fun t' h => h)
      rcases r with _ | s
      · intro g hg hg'
        rcases hcase g hg with rfl | hg
        · exact hnot
        · exact h.2 g hg (by omega)
      · obtain ⟨g, hg, hg', hreach, hfirst, hs⟩ := h.2
        refine ⟨g, by omega, by omega, hreach, fun g' hg1 hg2 => ?_, hs⟩
        rcases hcase g' hg1 with rfl | hg1
        · exact hnot
        · exact hfirst g' hg1 hg2
    have hreached : ∀ t : Rfs, t.toVolume = v.toVolume → v.Reaches need lo → ∀ s,
        s = 4096 * lo + v.tailStart lo → t.toVolume = v.toVolume ∧
          ∃ g, lo ≤ g ∧ g < lo + (n + 1) ∧ v.Reaches need g ∧
            (∀ g', lo ≤ g' → g' < g → ¬ v.Reaches need g') ∧ s = 4096 * g + v.tailStart g :=
      fun t ht hr s hs => ⟨ht, lo, le_rfl, by omega, hr, fun g' h h' => by omega, hs⟩
    have hsub := v.tailStart_le lo
    rw [List.range'_succ]
    simp only [findAcrossGroups, post_bind, post_get]
    refine (tailFree_post env v hv hlo).mono (fun r t h => ?_) (fun t h => h)
    obtain ⟨ht, hr⟩ := h
    rcases r with _ | tail
    · apply hnext t ht
      rw [Option.getD_none] at hr
      exact fun hreach => absurd hreach.1 (by omega)
    · rw [Option.getD_some] at hr
      subst hr
      dsimp only
      split
      · next hzero =>
        apply hnext t ht
        exact fun hreach => absurd hreach.1 (by omega)
      · next htail =>
        have htail' : v.tailStart lo < rfsGroupSize v.toVolume lo := by omega
        have hstart : 4096 * lo + (rfsGroupSize v.toVolume lo -
            (rfsGroupSize v.toVolume lo - v.tailStart lo)) = 4096 * lo + v.tailStart lo := by
          omega
        rcases hchain : chainGroups v.toVolume need v.l1Groups
          (rfsGroupSize v.toVolume lo - v.tailStart lo) (lo + 1) with ⟨c, k⟩
        have hiff := fun p hp => hv.reaches_iff (p := p) hneed hlo htail' hchain hp
        have hscan := fun hk => freePrefix_scan v.toVolume k (hv.toGeometry.groupSize_le hk).1
        dsimp only
        split
        · next hc => exact hreached t ht ((hiff _ hscan).mpr (Or.inl hc)) _ hstart
        · next hc =>
          split
          · next hpre =>
            simp only [post_bind]
            have hk : k < t.l1Groups := by rw [ht]; exact hpre.2.2
            have htv : t.Exact := by rw [ht]; exact hv
            refine (prefixFree_post env t htv hk).mono (fun p t' h => ?_) (fun t' h => ?_)
            · obtain ⟨ht', hp⟩ := h
              rw [ht] at ht' hp
              split
              · next hcp =>
                refine hreached t' ht' ((hiff p fun _ => hp).mpr (Or.inr ?_)) _ hstart
                exact ⟨hpre.1, hpre.2.1, hpre.2.2, hcp⟩
              · next hcp =>
                refine hnext t' ht' fun hreach => ?_
                rcases (hiff p fun _ => hp).mp hreach with h | ⟨-, -, -, h⟩
                · exact hc h
                · exact hcp h
            · rw [ht] at h
              exact h
          · next hpre =>
            refine hnext t ht fun hreach => ?_
            rcases (hiff _ hscan).mp hreach with h | ⟨h1, h2, h3, -⟩
            · exact hc h
            · exact hpre ⟨h1, h2, h3⟩

/-! ## The super-group loop and the whole search -/

theorem superGroups_eq (v : Volume) (sg : ℕ) :
    superGroups v sg = List.range' (1024 * sg)
      (min (1024 * sg + 1024) v.l1Groups - 1024 * sg) := rfl

theorem findInSupers_small_post (env : Env) {need : ℕ} (sgs : List ℕ) (v : Rfs) (hv : v.Geometry)
    (hfree : v.AllFreeSound) :
    Post (findInSupers (findInGroup env need) sgs) v
      (fun r t => t.toVolume = v.toVolume ∧ ∀ s, r = some s → v.FreeExtent s need)
      (fun t => t.toVolume = v.toVolume) := by
  induction sgs generalizing v with
  | nil => exact ⟨rfl, fun s h => by cases h⟩
  | cons sg sgs ih =>
    simp only [findInSupers, post_bind, post_get]
    split
    · exact ih v hv hfree
    · rw [post_bind]
      have hmem : ∀ g ∈ superGroups v.toVolume sg, g < v.l1Groups :=
        fun g hg => (Volume.mem_superGroups.mp hg).2.2
      refine (findInGroup_post env _ v hv hfree hmem).mono (fun r t h => ?_) (fun t h => h)
      obtain ⟨ht, hr⟩ := h
      rcases r with _ | s
      · rw [← ht] at hv hfree ⊢
        exact ih t hv hfree
      · exact ⟨ht, hr⟩

theorem Volume.Exact.not_reaches {v : Volume} (hv : v.Exact) {need sg g : ℕ} (hsg : sg < v.l2Groups)
    (hl2 : bitsetGet v.l2NotFull sg ≠ true) (hg : g ∈ superGroups v sg) : ¬ v.Reaches need g := by
  have hlt : g < v.l1Groups := (mem_superGroups.mp hg).2.2
  obtain ⟨hsize, -⟩ := hv.toGeometry.groupSize_le hlt
  have hpos : 0 < rfsGroupSize v g := by
    have := hv.toGeometry.start_lt hlt
    rw [hv.toGeometry.groupSize hlt]
    omega
  have hused : ∀ i < rfsGroupSize v g, v.l0Used (4096 * g + i) = true := by
    intro i hi
    by_contra hfree
    refine hl2 ((hv.l2NotFull sg hsg).mpr ⟨g, hg, ?_⟩)
    exact (hv.notFull_iff hlt).mpr ⟨i, hi, Bool.eq_false_iff.mpr hfree⟩
  have htail := tailStart_eq_size hsize hpos hused
  exact fun hreach => absurd hreach.1 (by omega)

/-- The first group, from super-group `lo` on, that reaches the request. -/
def Volume.FirstReaching (v : Volume) (need lo s : ℕ) : Prop :=
  ∃ g, 1024 * lo ≤ g ∧ g < v.l1Groups ∧ v.Reaches need g ∧
    (∀ g', 1024 * lo ≤ g' → g' < g → ¬ v.Reaches need g') ∧ s = 4096 * g + v.tailStart g

theorem findInSupers_across_post (env : Env) {need : ℕ} (hneed : 4096 < need) (n lo : ℕ) (v : Rfs)
    (hv : v.Exact) (hn : lo + n = v.l2Groups) :
    Post (findInSupers (findAcrossGroups env need) (List.range' lo n)) v
      (fun r t => t.toVolume = v.toVolume ∧
        match r with
        | some s => v.FirstReaching need lo s
        | none => ∀ g, 1024 * lo ≤ g → g < v.l1Groups → ¬ v.Reaches need g)
      (fun t => t.toVolume = v.toVolume ∧ (v.MapInside → ∃ n, env.io n = false)) := by
  induction n generalizing lo v with
  | zero =>
    refine ⟨rfl, fun g hg hg' => ?_⟩
    have := hv.l2Groups
    omega
  | succ n ih =>
    have hlo : lo < v.l2Groups := by omega
    have hnext : ∀ t : Rfs, t.toVolume = v.toVolume →
        (∀ g ∈ superGroups v.toVolume lo, ¬ v.Reaches need g) →
        Post (findInSupers (findAcrossGroups env need) (List.range' (lo + 1) n)) t
          (fun r t => t.toVolume = v.toVolume ∧
            match r with
            | some s => v.FirstReaching need lo s
            | none => ∀ g, 1024 * lo ≤ g → g < v.l1Groups → ¬ v.Reaches need g)
          (fun t => t.toVolume = v.toVolume ∧ (v.MapInside → ∃ n, env.io n = false)) := by
      intro t ht hnot
      have hcase : ∀ g', 1024 * lo ≤ g' → g' < v.l1Groups →
          g' ∈ superGroups v.toVolume lo ∨ 1024 * (lo + 1) ≤ g' := by
        intro g' h h'
        rw [Volume.mem_superGroups]
        omega
      rw [← ht] at hv hn hnot hcase ⊢
      refine (ih (lo + 1) t hv (by omega)).mono (fun r t' h => ⟨h.1, ?_⟩) (fun t' h => h)
      rcases r with _ | s
      · intro g hg hg'
        rcases hcase g hg hg' with hmem | hge
        · exact hnot g hmem
        · exact h.2 g hge hg'
      · obtain ⟨g, hg, hg', hreach, hfirst, hs⟩ := h.2
        refine ⟨g, by omega, hg', hreach, fun g' hg1 hg2 => ?_, hs⟩
        rcases hcase g' hg1 (by omega) with hmem | hge
        · exact hnot g' hmem
        · exact hfirst g' hge hg2
    rw [List.range'_succ]
    simp only [findInSupers, post_bind, post_get]
    split
    · next hl2 =>
      exact hnext v rfl fun g hg => hv.not_reaches hlo (by simpa using hl2) hg
    · rw [post_bind, superGroups_eq]
      have hbound : 1024 * lo + (min (1024 * lo + 1024) v.l1Groups - 1024 * lo) ≤ v.l1Groups := by
        have := hv.l2Groups
        omega
      refine (findAcrossGroups_post env hneed _ _ v hv hbound).mono (fun r t h => ?_) (fun t h => h)
      obtain ⟨ht, hr⟩ := h
      rcases r with _ | s
      · refine hnext t ht fun g hg => ?_
        rw [superGroups_eq, List.mem_range'_1] at hg
        exact hr g hg.1 hg.2
      · obtain ⟨g, hg, hg', hrest⟩ := hr
        exact ⟨ht, g, hg, by omega, hrest⟩

theorem rfsFindFreeExtent_small_post (env : Env) {need : ℕ} (hneed : need ≤ 4096) (v : Rfs)
    (hv : v.Geometry) (hfree : v.AllFreeSound) :
    Post (rfsFindFreeExtent env need) v
      (fun s t => t.toVolume = v.toVolume ∧ v.FreeExtent s need)
      (fun t => t.toVolume = v.toVolume) := by
  simp only [rfsFindFreeExtent, post_bind, post_get]
  split
  · exact rfl
  · split
    · exact rfl
    · rw [post_bind]
      refine (findInSupers_small_post env _ v hv hfree).mono (fun r t h => ?_) (fun t h => h)
      obtain ⟨ht, hr⟩ := h
      rcases r with _ | s
      · exact ht
      · exact ⟨ht, hr s rfl⟩

theorem rfsFindFreeExtent_across_post (env : Env) {need : ℕ} (hneed : 4096 < need) (v : Rfs)
    (hv : v.Exact) :
    Post (rfsFindFreeExtent env need) v
      (fun s t => t.toVolume = v.toVolume ∧ v.FirstReaching need 0 s)
      (fun t => t.toVolume = v.toVolume ∧ (v.MapInside → (∃ n, env.io n = false) ∨
        ∀ g < v.l1Groups, ¬ v.Reaches need g)) := by
  simp only [rfsFindFreeExtent, post_bind, post_get]
  split
  · omega
  · split
    · next htotal =>
      refine ⟨rfl, fun _ => Or.inr fun g hg hreach => ?_⟩
      obtain ⟨_, hend, _⟩ := hreach
      have := v.tailStart_le g
      have := (hv.toGeometry.groupSize_le hg).1
      omega
    · rw [if_neg (not_le.mpr hneed), post_bind, List.range_eq_range']
      refine (findInSupers_across_post env hneed _ 0 v hv (Nat.zero_add _)).mono
        (fun r t h => ?_) (fun t h => ⟨h.1, fun hm => Or.inl (h.2 hm)⟩)
      obtain ⟨ht, hr⟩ := h
      rcases r with _ | s
      · exact ⟨ht, fun _ => Or.inr fun g hg => hr g (Nat.zero_le _) hg⟩
      · exact ⟨ht, hr⟩

theorem Volume.Reaches.freeExtent_iff {v : Volume} (hv : v.Geometry) {need g : ℕ}
    (hneed : 4096 < need) (hg : g < v.l1Groups) (hreach : v.Reaches need g) :
    v.FreeExtent (4096 * g + v.tailStart g) need ↔
      ∀ i, v.tailStart g ≤ i → i < rfsGroupSize v g → v.Free (4096 * g + i) := by
  obtain ⟨htail, hend, hrest⟩ := hreach
  obtain ⟨hsize, htotal⟩ := hv.groupSize_le hg
  have hgs := hv.groupSize hg
  constructor
  · exact fun h i hi hi' => h.2 _ (by omega) (by omega)
  · intro h
    refine ⟨by omega, fun x hx hx' => ?_⟩
    by_cases hin : x < 4096 * (g + 1)
    · have hfree := h (x - 4096 * g) (by omega) (by omega)
      rwa [show 4096 * g + (x - 4096 * g) = x by omega] at hfree
    · refine hrest x (by omega) ?_ (by omega)
      unfold restLength
      dsimp only
      split <;> omega

def ExtentsSound (v : Rfs) (need : ℕ) : Prop :=
  ∀ env s t, rfsFindFreeExtent env need v = (some s, t) → v.FreeExtent s need

theorem extentsSound_of_firstTailFree {v : Rfs} (hv : v.Exact) {need : ℕ}
    (h : need ≤ 4096 ∨ v.FirstTailFree need) : ExtentsSound v need := by
  intro env s t hrun
  by_cases hneed : need ≤ 4096
  · have hpost := rfsFindFreeExtent_small_post env hneed v hv.toGeometry hv.sound.allFreeSound
    exact (hpost.of_eq_some hrun).2
  · have hneed' : 4096 < need := not_le.mp hneed
    have hpost := rfsFindFreeExtent_across_post env hneed' v hv
    obtain ⟨g, -, hg, hreach, hfirst, rfl⟩ := (hpost.of_eq_some hrun).2
    rw [hreach.freeExtent_iff hv.toGeometry hneed' hg]
    exact (h.resolve_left hneed) g hg hreach fun g' hg' => hfirst g' (Nat.zero_le _) hg'

theorem firstTailFree_of_extentsSound {v : Rfs} (hv : v.Exact) (hmap : v.MapInside) {need : ℕ}
    (h : ExtentsSound v need) : need ≤ 4096 ∨ v.FirstTailFree need := by
  by_cases hneed : need ≤ 4096
  · exact Or.inl hneed
  · have hneed' : 4096 < need := not_le.mp hneed
    refine Or.inr fun g hg hreach hfirst => ?_
    have hpost := rfsFindFreeExtent_across_post Env.reliable hneed' v hv
    rcases hrun : rfsFindFreeExtent Env.reliable need v with ⟨_ | s, t⟩
    · rcases (hpost.of_eq_none hrun).2 hmap with ⟨n, hn⟩ | hnone
      · cases hn
      · exact absurd hreach (hnone g hg)
    · obtain ⟨g₁, -, hg₁, hreach₁, hfirst₁, rfl⟩ := (hpost.of_eq_some hrun).2
      have heq : g₁ = g := by
        rcases lt_trichotomy g₁ g with hlt | heq | hlt
        · exact absurd hreach₁ (hfirst g₁ hlt)
        · exact heq
        · exact absurd hreach (hfirst₁ g (Nat.zero_le _) hlt)
      subst heq
      exact (hreach₁.freeExtent_iff hv.toGeometry hneed' hg₁).mp (h _ _ _ hrun)

/-- The search for a free extent is sound for the requests that fit in a group, and for a larger
one exactly when the first tail that reaches it has no used sector that its scan passed over. -/
theorem rfsFindFreeExtent_sound_iff {v : Rfs} (hv : v.Exact) (need : ℕ) :
    (need ≤ 4096 ∨ v.FirstTailFree need → ExtentsSound v need) ∧
      (v.MapInside → (ExtentsSound v need ↔ need ≤ 4096 ∨ v.FirstTailFree need)) :=
  ⟨extentsSound_of_firstTailFree hv,
    fun hmap => ⟨firstTailFree_of_extentsSound hv hmap, extentsSound_of_firstTailFree hv⟩⟩

/-! ## A tail with a used sector -/

def skewedTail : Rfs where
  toVolume := Volume.ofMap 8192 8190
    (fun x => x < 65 || (1024 ≤ x && x < 1032) || 8190 ≤ x) (by decide)
  requests := 0
  allocations := 0
  lastError := .noError

theorem skewedTail_exact : skewedTail.Exact := Volume.ofMap_exact _ _ _ _

theorem skewedTail_totalSectors : skewedTail.totalSectors = 8192 := rfl

theorem skewedTail_l1Groups : skewedTail.l1Groups = 2 := by
  rw [skewedTail_exact.l1Groups, skewedTail_totalSectors]
  decide

theorem skewedTail_mapInside : skewedTail.MapInside := by
  unfold Volume.MapInside
  rw [skewedTail_l1Groups, skewedTail_totalSectors]
  decide

theorem skewedTail_free {x : ℕ} (hx : x < 8192) :
    skewedTail.Free x ↔ 65 ≤ x ∧ ¬ (1024 ≤ x ∧ x < 1032) ∧ x < 8190 := by
  have hused : skewedTail.l0Used x = (x < 65 || (1024 ≤ x && x < 1032) || 8190 ≤ x) :=
    Volume.ofMap_l0Used (by omega)
  unfold Volume.Free
  rw [hused]
  simp only [Bool.or_eq_false_iff, Bool.and_eq_false_iff, decide_eq_false_iff_not]
  omega

theorem skewedTail_bit {i : ℕ} (hi : i < 4096) :
    bit (skewedTail.groupBuf 0) i = true ↔ i < 65 ∨ (1024 ≤ i ∧ i < 1032) := by
  have hfree := skewedTail_free (x := i) (by omega)
  unfold Volume.Free at hfree
  rw [Volume.bit_groupBuf _ _ hi, Nat.mul_zero, Nat.zero_add, ← Bool.not_eq_false, hfree]
  omega

theorem skewedTail_groupSize : rfsGroupSize skewedTail.toVolume 0 = 4096 := by
  rw [skewedTail_exact.toGeometry.groupSize (by rw [skewedTail_l1Groups]; omega),
    skewedTail_totalSectors]
  rfl

theorem skewedTail_tailStart : skewedTail.tailStart 0 = 65 := by
  rw [Volume.tailStart_eq_iff, skewedTail_groupSize]
  refine ⟨by omega, fun _ => ⟨(skewedTail_bit (by omega)).mpr (by omega), ?_⟩, ?_⟩
  · right
    right
    intro hzero
    have hbit := byte_eq_zero_iff.mp hzero 56 (by decide)
    rw [(skewedTail_bit (by omega)).mpr (by omega)] at hbit
    cases hbit
  · rintro i hi hlt ⟨hused, hcase⟩
    have hfile := (skewedTail_bit hlt).mp hused
    -- the byte below the file is empty
    have hzero : skewedTail.groupBuf 0 (i / 8 - 1) = 0 := by
      rw [byte_eq_zero_iff]
      intro k hk
      rw [← Bool.not_eq_true, skewedTail_bit (by omega)]
      omega
    rcases hcase with h | h | h
    · omega
    · omega
    · exact h hzero

/-- A request for 5000 sectors is answered with sector 65, although sector 1024 is used. -/
theorem skewedTail_unsound : skewedTail.Exact ∧ ¬ ExtentsSound skewedTail 5000 := by
  refine ⟨skewedTail_exact, fun hsound => ?_⟩
  have hcond := firstTailFree_of_extentsSound skewedTail_exact skewedTail_mapInside hsound
  have hreach : skewedTail.Reaches 5000 0 := by
    have hrest : skewedTail.restLength 5000 0 = 969 := by
      rw [Volume.restLength_of_mod_ne (by omega), skewedTail_groupSize, skewedTail_tailStart]
    unfold Volume.Reaches
    rw [hrest, skewedTail_tailStart, skewedTail_groupSize, skewedTail_totalSectors]
    exact ⟨by omega, by omega, fun x hx hx' _ => (skewedTail_free (by omega)).mpr (by omega)⟩
  have hgroup : 0 < skewedTail.l1Groups := by rw [skewedTail_l1Groups]; omega
  have hfree := hcond.resolve_left (by omega) 0 hgroup hreach (fun g' hg' => by omega) 1024
    (by rw [skewedTail_tailStart]; omega) (by rw [skewedTail_groupSize]; omega)
  rw [skewedTail_free (by omega)] at hfree
  omega

theorem rfsFindFreeExtent_sound_iff_skewedTail : ExtentsSound skewedTail 4096 ∧
    (ExtentsSound skewedTail 5000 ↔ 5000 ≤ 4096 ∨ skewedTail.FirstTailFree 5000) :=
  ⟨(rfsFindFreeExtent_sound_iff skewedTail_exact 4096).1 (Or.inl le_rfl),
    (rfsFindFreeExtent_sound_iff skewedTail_exact 5000).2 skewedTail_mapInside⟩

end RetroRocket
