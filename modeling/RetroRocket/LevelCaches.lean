import RetroRocket.WordPass

/-!
# Building the level caches

Whatever the map is, the pass leaves counters that no group's size exceeds, and the L1 and L2 bits
are derived from them. `CountsAligned` is the condition under which the counters are right.
-/

namespace RetroRocket

open RetroRocket.Action Volume

attribute [local irreducible] rfsGroupSize

/-! ## What the pass does on any map -/

namespace Volume

def Capped (v : Volume) (fc : ℕ → ℕ) : Prop := ∀ g, fc g ≤ rfsGroupSize v g

theorem Capped.addCount {v : Volume} {fc : ℕ → ℕ} (h : v.Capped fc) (g add : ℕ) :
    v.Capped (v.addCount fc g add) := by
  intro g'
  by_cases hg : g' = g
  · subst hg
    have hle := h g'
    unfold Volume.addCount addFree
    dsimp only
    rw [withCounts_groupSize, show (v.withCounts fc).l1FreeCount = fc from rfl]
    split
    · dsimp only
      rw [Function.update_self]
      unfold u16
      omega
    · exact hle
  · rw [v.addCount_of_ne fc add hg]
    exact h g'

/-- Counters that the volume `t` has instead of those of `v`, all capped. -/
def CountersOf (v t : Volume) : Prop := ∃ fc, t = v.withCounts fc ∧ v.Capped fc

end Volume

theorem addFree_countersOf {v t : Volume} (h : v.CountersOf t) (g add : ℕ) :
    v.CountersOf (addFree t g add) := by
  obtain ⟨fc, rfl, hcap⟩ := h
  rw [addFree_withCounts]
  exact ⟨_, rfl, hcap.addCount g add⟩

theorem distributeWord_countersOf {v t : Volume} (h : v.CountersOf t) (fuel : ℕ)
    (word : BitVec 64) (r pos : ℕ) : v.CountersOf (distributeWord fuel word r pos t).1 := by
  induction fuel generalizing t word r pos with
  | zero => exact h
  | succ fuel ih =>
    unfold distributeWord
    split
    · dsimp only
      split
      · exact h
      · apply ih
        generalize (if min r _ = 64 then BitVec.allOnes 64 else _) = mask
        split
        · exact addFree_countersOf h _ _
        · exact h
    · exact h

theorem countFullWords_countersOf {v t : Volume} (h : v.CountersOf t) (buf : Buffer) (n i pos : ℕ) :
    v.CountersOf (countFullWords buf n i pos t).1 := by
  induction n generalizing t i pos with
  | zero => exact h
  | succ n ih =>
    unfold countFullWords
    dsimp only
    split
    · exact ih h _ _
    · exact ih (distributeWord_countersOf h _ _ _ _) _ _

theorem countChunk_countersOf {v t : Volume} (h : v.CountersOf t) (buf : Buffer) (n pos : ℕ) :
    v.CountersOf (countChunk buf n pos t) := by
  unfold countChunk
  dsimp only
  split
  · exact distributeWord_countersOf (countFullWords_countersOf h _ _ _ _) _ _ _ _
  · exact countFullWords_countersOf h _ _ _ _

theorem countMap_countersOf (env : Env) (v : Volume) (start len total fuel pos s : ℕ) (t : Rfs)
    (h : v.CountersOf t.toVolume) :
    Post (countMap env start len total fuel pos s) t (fun _ t' => v.CountersOf t'.toVolume)
      (fun _ => start + len ≤ v.totalSectors → ∃ n, env.io n = false) := by
  induction fuel generalizing pos s t with
  | zero => exact h
  | succ fuel ih =>
    unfold countMap
    split
    · next hcond =>
      simp only [post_bind, post_attempt]
      refine (rfsReadDevice_post env _ _ t).mono (fun buf t' hread => ?_) (fun t' hread => ?_)
      · obtain ⟨_, _, ht'⟩ := hread
        rw [← ht'] at h
        simp only [post_modify]
        exact ih _ _ _ (countChunk_countersOf h _ _ _)
      · simp only [post_modify, post_fail]
        intro hle
        obtain ⟨fc, hfc, _⟩ := h
        have htotal : t.totalSectors = v.totalSectors := by rw [hfc]; rfl
        have hv := v.totalSectors_lt
        apply hread.2
        rw [u64_of_lt (by omega)]
        exact inRange_of_le (by omega) (by omega)
    · exact h

/-! ## The bits from the counters -/

/-- A loop over `0 .. n - 1` that sets one bit of two sets in each iteration. -/
theorem foldl_bitsetSet (p q : ℕ → Bool) (nf af : Buffer) (n : ℕ) :
    ∃ nf' af', (List.range n).foldl
        (fun acc g => (bitsetSet acc.1 g (p g), bitsetSet acc.2 g (q g))) (nf, af) = (nf', af') ∧
      ∀ g < n, bitsetGet nf' g = p g ∧ bitsetGet af' g = q g := by
  induction n with
  | zero => exact ⟨nf, af, rfl, fun g hg => absurd hg (Nat.not_lt_zero g)⟩
  | succ n ih =>
    obtain ⟨nf', af', hrun, hbits⟩ := ih
    refine ⟨bitsetSet nf' n (p n), bitsetSet af' n (q n), ?_, fun g hg => ?_⟩
    · rw [List.range_succ, List.foldl_append, hrun]
      rfl
    · rw [bitsetGet_bitsetSet, bitsetGet_bitsetSet]
      by_cases hgn : g = n
      · rw [if_pos hgn, if_pos hgn, hgn]
        exact ⟨rfl, rfl⟩
      · rw [if_neg hgn, if_neg hgn]
        exact hbits g (by omega)

def Volume.withL1 (v : Volume) (bs : Buffer × Buffer) : Volume :=
  { v with l1NotFull := bs.1, l1AllFree := bs.2 }

def Volume.withL2 (v : Volume) (bs : Buffer × Buffer) : Volume :=
  { v with l2NotFull := bs.1, l2AllFree := bs.2 }

theorem foldl_deriveL1 (v : Volume) (gs : List ℕ) (bs : Buffer × Buffer) :
    gs.foldl deriveL1 (v.withL1 bs) = v.withL1 (gs.foldl (fun acc g =>
      (bitsetSet acc.1 g (decide (0 < v.l1FreeCount g)),
        bitsetSet acc.2 g (decide (v.l1FreeCount g = u16 (rfsGroupSize v g))))) bs) := by
  induction gs generalizing bs with
  | nil => rfl
  | cons g gs ih =>
    have hsize : rfsGroupSize (v.withL1 bs) g = rfsGroupSize v g := by
      unfold rfsGroupSize
      rfl
    rw [List.foldl_cons, List.foldl_cons, ← ih]
    congr 1
    unfold deriveL1
    dsimp only
    rw [hsize]
    rfl

theorem foldl_foldL2 (v : Volume) (sgs : List ℕ) (bs : Buffer × Buffer) :
    sgs.foldl foldL2 (v.withL2 bs) = v.withL2 (sgs.foldl (fun acc sg =>
      (bitsetSet acc.1 sg ((superGroups v sg).any (bitsetGet v.l1NotFull)),
        bitsetSet acc.2 sg ((superGroups v sg).all (bitsetGet v.l1AllFree)))) bs) := by
  induction sgs generalizing bs with
  | nil => rfl
  | cons sg sgs ih =>
    rw [List.foldl_cons, List.foldl_cons, ← ih]
    congr 1
    unfold foldL2
    dsimp only
    rw [foldl_any_all, Bool.false_or, Bool.true_and]
    rfl

theorem deriveCaches_spec (v : Volume) (hv : v.Geometry) (hcached : v.cached = true) :
    ∃ b1 b2, deriveCaches v = (v.withL1 b1).withL2 b2 ∧ (deriveCaches v).Derived := by
  obtain ⟨nf, af, hrun1, hbits1⟩ := foldl_bitsetSet (fun g => decide (0 < v.l1FreeCount g))
    (fun g => decide (v.l1FreeCount g = u16 (rfsGroupSize v g))) v.l1NotFull v.l1AllFree v.l1Groups
  have hl1 : (List.range v.l1Groups).foldl deriveL1 v = v.withL1 (nf, af) := by
    rw [← hrun1]
    exact foldl_deriveL1 v _ (v.l1NotFull, v.l1AllFree)
  obtain ⟨nf2, af2, hrun2, hbits2⟩ := foldl_bitsetSet
    (fun sg => (superGroups (v.withL1 (nf, af)) sg).any (bitsetGet nf))
    (fun sg => (superGroups (v.withL1 (nf, af)) sg).all (bitsetGet af))
    v.l2NotFull v.l2AllFree v.l2Groups
  have hl2 : (List.range v.l2Groups).foldl foldL2 (v.withL1 (nf, af)) =
      (v.withL1 (nf, af)).withL2 (nf2, af2) := by
    rw [← hrun2]
    exact foldl_foldL2 (v.withL1 (nf, af)) _ (v.l2NotFull, v.l2AllFree)
  have hall : deriveCaches v = (v.withL1 (nf, af)).withL2 (nf2, af2) := by
    unfold deriveCaches
    rw [hl1]
    exact hl2
  have hsize : ∀ g, rfsGroupSize ((v.withL1 (nf, af)).withL2 (nf2, af2)) g = rfsGroupSize v g := by
    intro g
    unfold rfsGroupSize
    rfl
  refine ⟨(nf, af), (nf2, af2), hall, ?_⟩
  rw [hall]
  refine ⟨⟨hv.l1Groups, hv.l2Groups⟩, hcached, fun g hg => (hbits1 g hg).1, fun g hg => ?_,
    fun sg hsg => ?_, fun sg hsg => ?_⟩
  · have hle := (hv.groupSize hg).trans_le (min_le_left _ _)
    rw [hsize]
    refine (hbits1 g hg).2.trans ?_
    rw [u16_of_lt (by omega)]
    rfl
  · refine (Bool.eq_iff_iff.mp (hbits2 sg hsg).1).trans ?_
    rw [List.any_eq_true]
    exact Iff.rfl
  · refine (Bool.eq_iff_iff.mp (hbits2 sg hsg).2).trans ?_
    rw [List.all_eq_true]
    exact Iff.rfl

namespace Volume

def CachesExact (v : Volume) : Prop := v.Exact ∧ v.totalSectors ≤ 4096 * v.l1Groups

/-- Rounding the number of sectors up does not wrap, and no word of the map is counted for a
group that it does not belong to. -/
def CountsAligned (v : Volume) : Prop := v.totalSectors + 4095 < 2 ^ 64 ∧ ∀ w, v.Aligned w

def emptyCaches (v : Volume) : Volume := clearCaches (setGeometry v)

theorem emptyCaches_geometry (v : Volume) : v.emptyCaches.Geometry := ⟨rfl, rfl⟩

theorem emptyCaches_aligned (v : Volume) (w : ℕ) : v.emptyCaches.Aligned w ↔ v.Aligned w := Iff.rfl

theorem emptyCaches_chunkInv (v : Volume) : v.emptyCaches.ChunkInv 0 v.emptyCaches.l1FreeCount := by
  refine ⟨fun _ g _ => ?_, fun _ hnot => absurd (fun w hw => absurd hw (Nat.not_lt_zero w)) hnot⟩
  have hzero : v.emptyCaches.freeBelow g (65536 * 0) = 0 := by
    unfold freeBelow
    rw [Nat.count_iff_forall_not]
    intro i _ h
    omega
  rw [hzero]
  rfl

theorem emptyCaches_countersOf (v : Volume) : v.emptyCaches.CountersOf v.emptyCaches :=
  ⟨fun _ => 0, rfl, fun _ => Nat.zero_le _⟩

theorem PassDone.cachesExact_iff {v : Volume} {fc : ℕ → ℕ} (hv : v.Geometry)
    (hcached : v.cached = true) (hfit : v.totalSectors + 4095 < 2 ^ 64) (h : v.PassDone fc) :
    ((∀ w, v.Aligned w) → (deriveCaches (v.withCounts fc)).CachesExact) ∧
      (v.totalSectors + 131072 ≤ 2 ^ 64 → (deriveCaches (v.withCounts fc)).CachesExact →
        ∀ w, v.Aligned w) := by
  have hgroups : v.totalSectors ≤ 4096 * v.l1Groups := by
    rcases hv.l1Groups_eq with ⟨_, hg⟩ | ⟨hg, _⟩ <;> omega
  obtain ⟨b1, b2, hrun, hderived⟩ := deriveCaches_spec (v.withCounts fc)
    ⟨hv.l1Groups, hv.l2Groups⟩ hcached
  rw [hrun] at hderived ⊢
  have hfree : ∀ g, (((v.withCounts fc).withL1 b1).withL2 b2).freeSectors g = v.freeSectors g := by
    intro g
    unfold freeSectors rfsGroupSize
    exact count_congr fun _ _ => Iff.rfl
  constructor
  · intro hal
    refine ⟨⟨hderived, fun g hg => ?_⟩, hgroups⟩
    rw [hfree]
    exact h.counted hal g hg
  · rintro hwrap ⟨hexact, -⟩
    by_contra hnot
    obtain ⟨g, hg, hlt⟩ := h.lost hwrap hnot
    have hcount := hexact.freeCount g hg
    rw [hfree] at hcount
    exact absurd hcount (Nat.ne_of_lt hlt)

end Volume

theorem rfsBuildLevelCaches_post (env : Env) (v : Rfs) :
    Post (rfsBuildLevelCaches env) v
      (fun _ t => ∃ fc, t.toVolume = deriveCaches (v.emptyCaches.withCounts fc) ∧
        v.emptyCaches.Capped fc ∧
        (v.totalSectors + 4095 < 2 ^ 64 →
          v.totalSectors ≤ 4096 * v.desc.freeSpaceMapLength → v.emptyCaches.PassDone fc))
      (fun _ => v.MapReadable → ∃ n, env.io n = false ∨ env.memory n = false) := by
  simp only [rfsBuildLevelCaches, post_bind, post_modify]
  refine (kmalloc_post env _).mono (fun ok t h => ?_) (fun t h => h.elim)
  obtain ⟨ht, hok⟩ := h
  split
  · next hnot =>
    intro _
    obtain ⟨n, hn⟩ := hok (by simpa using hnot)
    exact ⟨n, Or.inr hn⟩
  · simp only [post_bind, post_modify, post_get, ht]
    have hcounters := countMap_countersOf env v.emptyCaches v.desc.freeSpaceMapStart
      v.desc.freeSpaceMapLength v.totalSectors v.desc.freeSpaceMapLength 0 0
      { t with toVolume := v.emptyCaches } v.emptyCaches_countersOf
    by_cases hpass : v.totalSectors + 4095 < 2 ^ 64 ∧
        v.totalSectors ≤ 4096 * v.desc.freeSpaceMapLength
    · have hcursor : min v.totalSectors (65536 * 0) = 0 := by omega
      have hrun := countMap_post env v.emptyCaches v.emptyCaches_geometry hpass.1 hpass.2
        v.desc.freeSpaceMapLength 0 0 _ { t with toVolume := v.emptyCaches } rfl
        v.emptyCaches_chunkInv (fun _ => rfl) (by rw [Nat.zero_add]; exact le_rfl)
      rw [show v.emptyCaches.totalSectors = v.totalSectors from rfl, hcursor] at hrun
      refine (hcounters.and hrun).mono (fun _ t' h => ?_) (fun t' h hread => ?_)
      · obtain ⟨⟨fc, ht', hcap⟩, fc', ht'', hdone⟩ := h
        have hfc : fc' = fc := congrArg Volume.l1FreeCount (ht''.symm.trans ht')
        subst hfc
        exact ⟨fc', by rw [ht'], hcap, fun _ _ => hdone⟩
      · obtain ⟨n, hn⟩ := h.1 hread
        exact ⟨n, Or.inl hn⟩
    · refine hcounters.mono (fun _ t' h => ?_) (fun t' h hread => ?_)
      · obtain ⟨fc, ht', hcap⟩ := h
        exact ⟨fc, by rw [ht'], hcap, fun hfit hcover => absurd ⟨hfit, hcover⟩ hpass⟩
      · obtain ⟨n, hn⟩ := h hread
        exact ⟨n, Or.inl hn⟩

/-- A successful build leaves exact summaries when every word of the map is counted for its own
group, and otherwise, wrapping positions apart, summaries that are not exact. -/
theorem rfsBuildLevelCaches_exact_iff (env : Env) (v : Rfs)
    (hcover : v.totalSectors ≤ 4096 * v.desc.freeSpaceMapLength) :
    Post (rfsBuildLevelCaches env) v
      (fun _ t => t.bytes = v.bytes ∧ t.totalSectors = v.totalSectors ∧
        (v.CountsAligned → t.CachesExact) ∧
        (v.totalSectors + 131072 ≤ 2 ^ 64 → t.CachesExact → v.CountsAligned))
      (fun _ => v.MapReadable → ∃ n, env.io n = false ∨ env.memory n = false) := by
  refine (rfsBuildLevelCaches_post env v).mono (fun _ t h => ?_) (fun t h => h)
  obtain ⟨fc, ht, -, hdone⟩ := h
  obtain ⟨b1, b2, hderive, -⟩ := deriveCaches_spec (v.emptyCaches.withCounts fc) ⟨rfl, rfl⟩ rfl
  rw [ht]
  refine ⟨by rw [hderive]; rfl, by rw [hderive]; rfl, fun hal => ?_, fun hwrap hexact => ?_⟩
  · have hiff := (hdone hal.1 hcover).cachesExact_iff v.emptyCaches_geometry rfl hal.1
    exact hiff.1 hal.2
  · have hfit : v.totalSectors + 4095 < 2 ^ 64 := by omega
    have hiff := (hdone hfit hcover).cachesExact_iff v.emptyCaches_geometry rfl hfit
    exact ⟨hfit, hiff.2 hwrap hexact⟩

/-! ## An empty map -/

theorem emptyMap_lt : 8192 < 2 ^ 64 := by omega

def emptyMap : Rfs where
  toVolume := Volume.ofMap 8192 8190 (fun _ => false) emptyMap_lt
  requests := 0
  allocations := 0
  lastError := .noError

theorem emptyMap_totalSectors : emptyMap.totalSectors = 8192 := rfl

theorem emptyMap_mapLength : emptyMap.desc.freeSpaceMapLength = 2 := by decide

theorem emptyMap_mapReadable : emptyMap.MapReadable := by
  unfold MapReadable
  rw [emptyMap_mapLength, emptyMap_totalSectors]
  decide

theorem emptyMap_freeInWord {w : ℕ} (hw : w < 128) : emptyMap.freeInWord w = 64 := by
  have hfree : ∀ k < 64, 64 * w + k < 8192 ∧ emptyMap.l0Used (64 * w + k) = false :=
    fun k hk => ⟨by omega, ofMap_l0Used (by omega)⟩
  exact Nat.count_iff_forall.mpr hfree

theorem emptyMap_not_aligned : ¬ emptyMap.Aligned 32 := by
  have hdrift : emptyMap.drift 0 32 = 32 := by
    refine Nat.count_iff_forall.mpr fun j hj => ?_
    rw [emptyMap_freeInWord (by omega)]
    omega
  intro hal
  have h := hal (by rw [emptyMap_freeInWord (by omega)]; omega)
  rw [show emptyMap.drift (32 / 1024) (32 % 1024) = 32 from hdrift] at h
  omega

/-- Mounted with a reliable device, the volume gets summaries that are not exact. -/
theorem emptyMap_not_exact : ∃ t, rfsBuildLevelCaches Env.reliable emptyMap = (some (), t) ∧
    ¬ t.CachesExact := by
  have hpost := rfsBuildLevelCaches_post Env.reliable emptyMap
  rcases hrun : rfsBuildLevelCaches Env.reliable emptyMap with ⟨_ | _, t⟩
  · obtain ⟨n, hn | hn⟩ := hpost.of_eq_none hrun emptyMap_mapReadable <;> cases hn
  · obtain ⟨fc, ht, -, hdone⟩ := hpost.of_eq_some hrun
    refine ⟨t, rfl, fun hexact => emptyMap_not_aligned ?_⟩
    rw [emptyMap_totalSectors, emptyMap_mapLength] at hdone
    have hfit : emptyMap.emptyCaches.totalSectors + 4095 < 2 ^ 64 := by
      rw [show emptyMap.emptyCaches.totalSectors = 8192 from rfl]
      omega
    have hiff :=
      (hdone (by omega) (by omega)).cachesExact_iff emptyMap.emptyCaches_geometry rfl hfit
    rw [ht] at hexact
    rw [← emptyMap.emptyCaches_aligned]
    refine hiff.2 ?_ hexact 32
    rw [show emptyMap.emptyCaches.totalSectors = 8192 from rfl]
    omega

theorem rfsBuildLevelCaches_exact_iff_emptyMap :
    Post (rfsBuildLevelCaches Env.reliable) emptyMap
      (fun _ t => t.bytes = emptyMap.bytes ∧ t.totalSectors = emptyMap.totalSectors ∧
        (emptyMap.CountsAligned → t.CachesExact) ∧
        (emptyMap.totalSectors + 131072 ≤ 2 ^ 64 → t.CachesExact → emptyMap.CountsAligned))
      (fun _ => emptyMap.MapReadable → ∃ n, Env.reliable.io n = false ∨
        Env.reliable.memory n = false) :=
  rfsBuildLevelCaches_exact_iff Env.reliable emptyMap
    (by rw [emptyMap_totalSectors, emptyMap_mapLength])

end RetroRocket
