import RetroRocket.FreeExtent

/-!
# Which free extents are found

A request that fits in one group is answered whenever one group has the free run for it; a run that
straddles a boundary of groups is not looked for. A larger request is answered when it leaves a
remainder, and when it is a whole number of groups only if it reaches the end of one.
-/

namespace RetroRocket

open RetroRocket.Action

attribute [local irreducible] rfsGroupSize

/-! ## The run search -/

theorem findRunLoop_none {buf : Buffer} {n need : ℕ} (fuel b run runStart : ℕ)
    (hfuel : n ≤ b + fuel)
    (hrun : run < need) (hle : run ≤ b)
    (h : findRunLoop buf n need fuel b run runStart = none) {r : ℕ}
    (hr : b - run ≤ r) (hend : r + need ≤ n) : ∃ i, r ≤ i ∧ i < r + need ∧ bit buf i = true := by
  induction fuel generalizing b run runStart with
  | zero => omega
  | succ fuel ih =>
    unfold findRunLoop at h
    split at h
    · next hlt =>
      split at h
      · dsimp only at h
        split at h
        · cases h
        · next hneed =>
          exact ih (b + 1) (run + 1) _ (by omega) (by omega) (by omega) h (by omega)
      · next hused =>
        -- a run that starts at `b` or below takes in the used bit
        by_cases hpast : b < r
        · exact ih (b + 1) 0 runStart (by omega) (by omega) (by omega) h (by omega)
        · refine ⟨b, by omega, by omega, ?_⟩
          rw [← Bool.not_eq_false]
          exact fun hfree => hused ((scanBit_eq_zero buf b).mpr hfree)
    · omega

theorem findRun_none {buf : Buffer} {n need r : ℕ} (hneed : 0 < need)
    (h : rfsGroupFindRunFrom buf n 0 need = none) (hend : r + need ≤ n) :
    ∃ i, r ≤ i ∧ i < r + need ∧ bit buf i = true := by
  unfold rfsGroupFindRunFrom at h
  rw [if_neg hneed.ne'] at h
  split at h
  · omega
  · exact findRunLoop_none n 0 0 0 (Nat.le_add_left n 0) hneed le_rfl h (Nat.zero_le _) hend

/-! ## One group -/

namespace Volume

/-- The free sectors `s .. s + need - 1` lie in group `g`. -/
def RunIn (v : Volume) (need g s : ℕ) : Prop :=
  4096 * g ≤ s ∧ s + need ≤ 4096 * (g + 1) ∧ v.FreeExtent s need

def RunInGroup (v : Volume) (need : ℕ) : Prop := ∃ g < v.l1Groups, ∃ s, v.RunIn need g s

variable {v : Volume}

theorem RunIn.le_size (hv : v.Geometry) {need g s : ℕ} (hg : g < v.l1Groups)
    (h : v.RunIn need g s) :
    s - 4096 * g + need ≤ rfsGroupSize v g := by
  obtain ⟨hlow, hhigh, hend, -⟩ := h
  rw [hv.groupSize hg]
  omega

theorem RunIn.free (h : v.RunIn need g s) {i : ℕ} (hi : s - 4096 * g ≤ i)
    (hi' : i < s - 4096 * g + need) : v.Free (4096 * g + i) := by
  obtain ⟨hlow, -, -, hfree⟩ := h
  exact hfree _ (by omega) (by omega)

end Volume

/-- What the search of single groups answers: that some group has the run, or that none of `gs`
has it. -/
def GroupAnswer (v : Volume) (need : ℕ) (gs : List ℕ) : Option ℕ → Prop
  | some _ => v.RunInGroup need
  | none => ∀ g ∈ gs, ∀ s, ¬ v.RunIn need g s

theorem GroupAnswer.cons {v : Volume} {need g : ℕ} {gs : List ℕ} {r : Option ℕ}
    (hg : ∀ s, ¬ v.RunIn need g s) (h : GroupAnswer v need gs r) :
    GroupAnswer v need (g :: gs) r := by
  rcases r with _ | s
  · intro g' hg' s
    rcases List.mem_cons.mp hg' with rfl | hmem
    · exact hg s
    · exact h g' hmem s
  · exact h

theorem findInGroup_answer (env : Env) {need : ℕ} (hneed : 0 < need) (gs : List ℕ) (v : Rfs)
    (hv : v.Exact) (hgs : ∀ g ∈ gs, g < v.l1Groups) :
    Post (findInGroup env need gs) v
      (fun r t => t.toVolume = v.toVolume ∧ GroupAnswer v.toVolume need gs r)
      (fun t => t.toVolume = v.toVolume ∧ (v.MapInside → ∃ n, env.io n = false)) := by
  induction gs generalizing v with
  | nil => exact ⟨rfl, fun g hg => absurd hg List.not_mem_nil⟩
  | cons g gs ih =>
    have hg : g < v.l1Groups := hgs g List.mem_cons_self
    have hrest : ∀ g' ∈ gs, g' < v.l1Groups := fun g' h => hgs g' (List.mem_cons_of_mem g h)
    have hsize := hv.toGeometry.groupSize_le hg
    have hgsize := hv.toGeometry.groupSize hg
    -- once group `g` is known to have no run, the rest of the loop answers
    have hnext : ∀ t : Rfs, t.toVolume = v.toVolume → (∀ s, ¬ v.RunIn need g s) →
        Post (findInGroup env need gs) t
          (fun r t => t.toVolume = v.toVolume ∧ GroupAnswer v.toVolume need (g :: gs) r)
          (fun t => t.toVolume = v.toVolume ∧ (v.MapInside → ∃ n, env.io n = false)) := by
      intro t ht hnone
      rw [← ht] at hv hrest hnone ⊢
      exact (ih t hv hrest).mono (fun r t' h => ⟨h.1, h.2.cons hnone⟩) (fun t' h => h)
    simp only [findInGroup, post_bind, post_get]
    split
    · next hfull =>
      refine hnext v rfl fun s hrun => ?_
      have hle := hrun.le_size hv.toGeometry hg
      have hbit : bitsetGet v.l1NotFull g = true :=
        (hv.notFull_iff hg).mpr ⟨s - 4096 * g, by omega, hrun.free le_rfl (by omega)⟩
      rw [hbit] at hfull
      exact Bool.false_ne_true hfull
    · split
      · next hall =>
        have hfree := (hv.allFree_iff hg).mp hall
        split
        · next hle =>
          refine ⟨rfl, g, hg, 4096 * g, le_rfl, by omega, by omega, fun x hx hx' => ?_⟩
          exact Volume.free_of_group hfree hx (by omega)
        · next hlarge =>
          refine hnext v rfl fun s hrun => ?_
          have hle := hrun.le_size hv.toGeometry hg
          omega
      · rw [post_bind]
        refine (rfsLoadGroupSector_post env v g).mono (fun buf t h => ?_)
          (fun t h => ⟨h.1, fun hm => h.2 hm hg⟩)
        obtain ⟨rfl, ht⟩ := h
        split
        · next offset hfound =>
          obtain ⟨hle, hbits⟩ := findRun_spec hfound
          refine ⟨ht, g, hg, 4096 * g + offset, by omega, by omega, by omega, fun x hx hx' => ?_⟩
          have hbit := hbits (x - 4096 * g) (by omega) (by omega)
          rw [v.bit_groupBuf g (by omega), show 4096 * g + (x - 4096 * g) = x by omega] at hbit
          exact hbit
        · next hnone =>
          refine hnext t ht fun s hrun => ?_
          have hle := hrun.le_size hv.toGeometry hg
          obtain ⟨i, hi, hi', hused⟩ := findRun_none hneed hnone hle
          rw [v.bit_groupBuf g (by omega), hrun.free hi hi'] at hused
          exact Bool.false_ne_true hused

/-! ## The whole search of a small request -/

theorem Volume.Exact.not_runIn {v : Volume} (hv : v.Exact) {need sg g s : ℕ} (hneed : 0 < need)
    (hsg : sg < v.l2Groups) (hl2 : bitsetGet v.l2NotFull sg ≠ true) (hg : g ∈ superGroups v sg) :
    ¬ v.RunIn need g s := by
  intro hrun
  have hlt : g < v.l1Groups := (mem_superGroups.mp hg).2.2
  have hle := hrun.le_size hv.toGeometry hlt
  refine hl2 ((hv.l2NotFull sg hsg).mpr ⟨g, hg, ?_⟩)
  exact (hv.notFull_iff hlt).mpr ⟨s - 4096 * g, by omega, hrun.free le_rfl (by omega)⟩

theorem findInSupers_answer (env : Env) {need : ℕ} (hneed : 0 < need) (sgs : List ℕ) (v : Rfs)
    (hv : v.Exact) (hsgs : ∀ sg ∈ sgs, sg < v.l2Groups) :
    Post (findInSupers (findInGroup env need) sgs) v
      (fun r t => t.toVolume = v.toVolume ∧
        GroupAnswer v.toVolume need (sgs.flatMap (superGroups v.toVolume)) r)
      (fun t => t.toVolume = v.toVolume ∧ (v.MapInside → ∃ n, env.io n = false)) := by
  induction sgs generalizing v with
  | nil => exact ⟨rfl, fun g hg => absurd hg List.not_mem_nil⟩
  | cons sg sgs ih =>
    have hsg : sg < v.l2Groups := hsgs sg List.mem_cons_self
    have hrest : ∀ sg' ∈ sgs, sg' < v.l2Groups := fun sg' h => hsgs sg' (List.mem_cons_of_mem sg h)
    have hnext : ∀ t : Rfs, t.toVolume = v.toVolume →
        (∀ g ∈ superGroups v.toVolume sg, ∀ s, ¬ v.RunIn need g s) →
        Post (findInSupers (findInGroup env need) sgs) t
          (fun r t => t.toVolume = v.toVolume ∧
            GroupAnswer v.toVolume need ((sg :: sgs).flatMap (superGroups v.toVolume)) r)
          (fun t => t.toVolume = v.toVolume ∧ (v.MapInside → ∃ n, env.io n = false)) := by
      intro t ht hnone
      rw [← ht] at hv hrest hnone ⊢
      refine (ih t hv hrest).mono (fun r t' h => ⟨h.1, ?_⟩) (fun t' h => h)
      rcases r with _ | s
      · intro g hg s
        rw [List.flatMap_cons, List.mem_append] at hg
        exact hg.elim (fun hmem => hnone g hmem s) (fun hmem => h.2 g hmem s)
      · exact h.2
    simp only [findInSupers, post_bind, post_get]
    split
    · next hl2 => exact hnext v rfl fun g hg s => hv.not_runIn hneed hsg (by simpa using hl2) hg
    · rw [post_bind]
      have hmem : ∀ g ∈ superGroups v.toVolume sg, g < v.l1Groups :=
        fun g hg => (Volume.mem_superGroups.mp hg).2.2
      refine (findInGroup_answer env hneed _ v hv hmem).mono (fun r t h => ?_) (fun t h => h)
      obtain ⟨ht, hr⟩ := h
      rcases r with _ | s
      · exact hnext t ht hr
      · exact ⟨ht, hr⟩

theorem rfsFindFreeExtent_small_answer (env : Env) {need : ℕ} (hpos : 0 < need)
    (hneed : need ≤ 4096) (v : Rfs) (hv : v.Exact) :
    Post (rfsFindFreeExtent env need) v
      (fun _ _ => v.RunInGroup need)
      (fun _ => v.MapInside → (∃ n, env.io n = false) ∨ ¬ v.RunInGroup need) := by
  simp only [rfsFindFreeExtent, post_bind, post_get]
  split
  · omega
  · split
    · next hlarge =>
      refine fun _ => Or.inr ?_
      rintro ⟨g, -, s, -, -, hend, -⟩
      omega
    · rw [post_bind]
      have hsgs : ∀ sg ∈ List.range v.l2Groups, sg < v.l2Groups := fun sg h => List.mem_range.mp h
      refine (findInSupers_answer env hpos _ v hv hsgs).mono (fun r t h => ?_)
        (fun t h hm => Or.inl (h.2 hm))
      obtain ⟨-, hr⟩ := h
      rcases r with _ | s
      · refine fun _ => Or.inr ?_
        rintro ⟨g, hg, s, hrun⟩
        refine hr g (List.mem_flatMap.mpr ⟨g / 1024, ?_, ?_⟩) s hrun
        · have hl2 := hv.l2Groups
          rw [List.mem_range]
          omega
        · exact Volume.mem_superGroups_iff.mpr ⟨hg, rfl⟩
      · exact hr

/-! ## Which requests are answered -/

namespace Volume

variable {v : Volume}

/-- The search looks where the request can be. A request for a whole number of groups must reach
the end of a group or of the volume; any other large request is found wherever it is. -/
def Findable (v : Volume) (need : ℕ) : Prop :=
  if need ≤ 4096 then v.RunInGroup need
  else if need % 4096 = 0 then ∃ g < v.l1Groups, v.Reaches need g
  else 0 < v.l1Groups

/-- The group in which a free extent starts reaches the request, unless that is for whole groups. -/
theorem FreeExtent.reaches (hv : v.Geometry) (hgroups : 0 < v.l1Groups) {s need : ℕ}
    (hlarge : 4096 < need) (hmod : need % 4096 ≠ 0) (h : v.FreeExtent s need) :
    s / 4096 < v.l1Groups ∧ v.Reaches need (s / 4096) := by
  obtain ⟨hend, hfree⟩ := h
  have hg : s / 4096 < v.l1Groups := by
    rcases hv.l1Groups_eq with ⟨-, hl⟩ | ⟨-, hl⟩ <;> omega
  have hsize := hv.groupSize hg
  have htail : v.tailStart (s / 4096) ≤ s - 4096 * (s / 4096) := by
    by_contra hlt
    obtain ⟨hle, hlast, -⟩ := tailStart_eq_iff.mp (rfl : v.tailStart (s / 4096) = _)
    have hused := (hlast (by omega)).1
    rw [v.bit_groupBuf _ (by omega)] at hused
    have hf : v.l0Used (4096 * (s / 4096) + (v.tailStart (s / 4096) - 1)) = false :=
      hfree _ (by omega) (by omega)
    rw [hf] at hused
    exact Bool.false_ne_true hused
  refine ⟨hg, by omega, by omega, fun x hx hx' _ => hfree x (by omega) ?_⟩
  rw [restLength_of_mod_ne hmod] at hx'
  omega

end Volume

def ExtentsComplete (v : Rfs) (need : ℕ) : Prop :=
  ∀ env t, rfsFindFreeExtent env need v = (none, t) →
    (∃ n, env.io n = false) ∨ ¬ ∃ s, v.FreeExtent s need

/-- The search finds a free extent, whenever there is one, exactly for the requests it looks for. -/
theorem rfsFindFreeExtent_complete_iff {v : Rfs} (hv : v.Exact) (hmap : v.MapInside) {need : ℕ}
    (hpos : 1 ≤ need) :
    ExtentsComplete v need ↔ ((∃ s, v.FreeExtent s need) → v.Findable need) := by
  constructor
  · rintro hcomplete ⟨s, hs⟩
    have hnone : ∀ t, rfsFindFreeExtent Env.reliable need v ≠ (none, t) := by
      intro t hrun
      rcases hcomplete _ t hrun with ⟨n, hn⟩ | hnot
      · cases hn
      · exact hnot ⟨s, hs⟩
    rcases hrun : rfsFindFreeExtent Env.reliable need v with ⟨_ | r, t⟩
    · exact absurd hrun (hnone t)
    · unfold Volume.Findable
      split
      · next hsmall => exact (rfsFindFreeExtent_small_answer _ hpos hsmall v hv).of_eq_some hrun
      · next hlarge =>
        have hpost := rfsFindFreeExtent_across_post Env.reliable (not_le.mp hlarge) v hv
        obtain ⟨g, -, hg, hreach, -⟩ := (hpost.of_eq_some hrun).2
        split
        · exact ⟨g, hg, hreach⟩
        · exact Nat.zero_lt_of_lt hg
  · intro hfind env t hrun
    by_cases hex : ∃ s, v.FreeExtent s need
    · have hlook := hfind hex
      unfold Volume.Findable at hlook
      split at hlook
      · next hsmall =>
        have hpost := rfsFindFreeExtent_small_answer env hpos hsmall v hv
        rcases hpost.of_eq_none hrun hmap with hio | hnot
        · exact Or.inl hio
        · exact absurd hlook hnot
      · next hlarge =>
        have hpost := rfsFindFreeExtent_across_post env (not_le.mp hlarge) v hv
        have hreach : ∃ g < v.l1Groups, v.Reaches need g := by
          split at hlook
          · exact hlook
          · next hmod =>
            obtain ⟨s, hs⟩ := hex
            exact ⟨s / 4096, hs.reaches hv.toGeometry hlook (not_le.mp hlarge) hmod⟩
        rcases (hpost.of_eq_none hrun).2 hmap with hio | hnot
        · exact Or.inl hio
        · obtain ⟨g, hg, hg'⟩ := hreach
          exact absurd hg' (hnot g hg)
    · exact Or.inr hex

/-! ## A run over a boundary -/

theorem twoGroups_lt : 8192 < 2 ^ 64 := by decide

def straddledRun : Rfs where
  toVolume := Volume.ofMap 8192 1 (fun x => x < 4095 || 4097 ≤ x) twoGroups_lt
  requests := 0
  allocations := 0
  lastError := .noError

theorem straddledRun_exact : straddledRun.Exact := Volume.ofMap_exact _ _ _ _

theorem straddledRun_totalSectors : straddledRun.totalSectors = 8192 := rfl

theorem straddledRun_mapInside : straddledRun.MapInside := by
  unfold Volume.MapInside
  rw [straddledRun_exact.l1Groups, straddledRun_totalSectors]
  decide

theorem straddledRun_free {x : ℕ} (hx : x < 8192) :
    straddledRun.Free x ↔ x = 4095 ∨ x = 4096 := by
  have hused : straddledRun.l0Used x = (x < 4095 || 4097 ≤ x) := Volume.ofMap_l0Used (by omega)
  unfold Volume.Free
  rw [hused]
  simp only [Bool.or_eq_false_iff, decide_eq_false_iff_not]
  omega

theorem straddledRun_freeExtent : straddledRun.FreeExtent 4095 2 := by
  rw [Volume.FreeExtent, straddledRun_totalSectors]
  exact ⟨by omega, fun x hx hx' => (straddledRun_free (by omega)).mpr (by omega)⟩

theorem straddledRun_not_findable : ¬ straddledRun.Findable 2 := by
  unfold Volume.Findable
  rw [if_pos (by omega)]
  rintro ⟨g, -, s, hlow, hhigh, hend, hfree⟩
  rw [straddledRun_totalSectors] at hend
  have hfirst := (straddledRun_free (by omega)).mp (hfree s le_rfl (by omega))
  have hsecond := (straddledRun_free (by omega)).mp (hfree (s + 1) (by omega) (by omega))
  omega

theorem rfsFindFreeExtent_complete_iff_straddledRun :
    ExtentsComplete straddledRun 2 ↔
      ((∃ s, straddledRun.FreeExtent s 2) → straddledRun.Findable 2) :=
  rfsFindFreeExtent_complete_iff straddledRun_exact straddledRun_mapInside (by decide)

/-- A request for two sectors fails, although sectors 4095 and 4096 are free. -/
theorem straddledRun_incomplete : straddledRun.Exact ∧ straddledRun.MapInside ∧
    2 ≤ straddledRun.totalSectors ∧ straddledRun.FreeExtent 4095 2 ∧
      ∃ t, rfsFindFreeExtent Env.reliable 2 straddledRun = (none, t) := by
  have hpos : 0 < 2 := by decide
  have hpost := rfsFindFreeExtent_small_answer Env.reliable hpos (by decide) straddledRun
    straddledRun_exact
  refine ⟨straddledRun_exact, straddledRun_mapInside, ?_, straddledRun_freeExtent, ?_⟩
  · rw [straddledRun_totalSectors]
    decide
  · rcases hrun : rfsFindFreeExtent Env.reliable 2 straddledRun with ⟨_ | r, t⟩
    · exact ⟨t, rfl⟩
    · have hin := hpost.of_eq_some hrun
      have hnot := straddledRun_not_findable
      unfold Volume.Findable at hnot
      rw [if_pos (by omega)] at hnot
      exact absurd hin hnot

end RetroRocket
