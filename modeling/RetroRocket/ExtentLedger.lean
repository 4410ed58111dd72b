import RetroRocket.FreeExtent
import RetroRocket.MarkExtent
import RetroRocket.Run

/-!
# Extents that are in use

Files and directories get their sectors by `rfs_find_free_extent` and then `rfs_mark_extent`, and
give them back by `rfs_mark_extent`. A call may fail at any sector of the map. The ledger holds the
extents that were handed out and not given back.
-/

namespace RetroRocket

open RetroRocket.Action

structure ExtentLedger where
  volume : Rfs
  owned : List (ℕ × ℕ)

inductive LedgerCall where
  | take (env : Env) (need : ℕ)
  | give (env : Env) (extent : ℕ × ℕ)

/-- Sector `x` is one of the extent's. -/
def InExtent (e : ℕ × ℕ) (x : ℕ) : Prop := e.1 ≤ x ∧ x < e.1 + e.2

/-- How `createfile.c`, `createdirectory.c` and `writefile.c` reserve sectors. -/
def takeExtent (env : Env) (need : ℕ) : Action Rfs ℕ := do
  let start ← rfsFindFreeExtent env need
  rfsMarkExtent env start need true
  pure start

namespace ExtentLedger

variable {s t : ExtentLedger} {c : LedgerCall} {v : Rfs} {e f : ℕ × ℕ} {x : ℕ}

def call (s : ExtentLedger) : LedgerCall → Option ExtentLedger
  | .take env need =>
    match takeExtent env need s.volume with
    | (some start, volume) => some ⟨volume, (start, need) :: s.owned⟩
    | (none, volume) => some ⟨volume, s.owned⟩
  | .give env extent =>
    some ⟨(rfsMarkExtent env extent.1 extent.2 false s.volume).2, s.owned.erase extent⟩

theorem call_isSome (s : ExtentLedger) (c : LedgerCall) : (s.call c).isSome := by
  cases c with
  | take env need =>
    unfold call
    dsimp only
    split <;> rfl
  | give env extent => rfl

/-- A search over several groups meets no used sector in the tail it starts in, and what is given
back was handed out. -/
def Allowed (s : ExtentLedger) : LedgerCall → Prop
  | .take _ need => need ≤ 4096 ∨ s.volume.FirstTailFree need
  | .give _ extent => extent ∈ s.owned

/-! ## The invariant -/

/-- The extents lie in the volume, were free in `v` and are in use. -/
structure Inv (v : Rfs) (s : ExtentLedger) : Prop where
  exact : s.volume.Exact
  totalSectors : s.volume.totalSectors = v.totalSectors
  inside : ∀ e ∈ s.owned, e.1 + e.2 ≤ v.totalSectors
  apart : s.owned.Pairwise fun e f => ∀ x, InExtent e x → ¬ InExtent f x
  used : ∀ x < v.totalSectors, (v.l0Used x = true ∨ ∃ e ∈ s.owned, InExtent e x) →
    s.volume.l0Used x = true
  fresh : ∀ e ∈ s.owned, ∀ x, InExtent e x → v.l0Used x = false

theorem find_post (hv : v.Exact) (env : Env) {need : ℕ}
    (hneed : need ≤ 4096 ∨ v.FirstTailFree need) :
    Post (rfsFindFreeExtent env need) v
      (fun start t => t.toVolume = v.toVolume ∧ v.FreeExtent start need)
      (fun t => t.toVolume = v.toVolume) := by
  have hkept : Post (rfsFindFreeExtent env need) v (fun _ t => t.toVolume = v.toVolume)
      (fun t => t.toVolume = v.toVolume) := by
    by_cases hsmall : need ≤ 4096
    · exact (rfsFindFreeExtent_small_post env hsmall v hv.toGeometry hv.sound.allFreeSound).mono
        (fun _ _ h => h.1) fun _ h => h
    · exact (rfsFindFreeExtent_across_post env (not_le.mp hsmall) v hv).mono
        (fun _ _ h => h.1) fun _ h => h.1
  have hfree : Post (rfsFindFreeExtent env need) v (fun start _ => v.FreeExtent start need)
      (fun _ => True) :=
    post_iff.mpr ⟨fun start t hrun => extentsSound_of_firstTailFree hv hneed env start t hrun,
      fun _ _ => trivial⟩
  exact (hkept.and hfree).mono (fun _ _ h => h) fun _ h => h.1

theorem takeExtent_post (hv : v.Exact) (env : Env) {need : ℕ}
    (hneed : need ≤ 4096 ∨ v.FirstTailFree need) :
    Post (takeExtent env need) v
      (fun start t => v.FreeExtent start need ∧ v.Marked t.toVolume start (start + need) true)
      (fun t => ∃ start p, v.Marked t.toVolume start p true) := by
  simp only [takeExtent, post_bind, post_pure]
  refine (find_post hv env hneed).mono (fun start t h => ?_) fun t h => ?_
  · obtain ⟨hsame, hfree⟩ := h
    have htotal := v.totalSectors_lt
    have hend := hfree.1
    have ht : t.Exact := by
      rw [hsame]
      exact hv
    refine (rfsMarkExtent_post env t ht.toGeometry start need (by omega) true).mono
      (fun _ u hu => ⟨hfree, ?_⟩) fun u hu => ?_
    · rw [hsame, min_eq_left hend] at hu
      exact hu
    · obtain ⟨p, -, -, hmarked, -⟩ := hu
      rw [hsame] at hmarked
      exact ⟨start, p, hmarked⟩
  · refine ⟨0, 0, ?_⟩
    rw [h]
    exact Volume.Marked.refl _ _ _

theorem Inv.marked (h : s.Inv v) {start p : ℕ} {volume : Rfs}
    (hmarked : s.volume.Marked volume.toVolume start p true) : Inv v ⟨volume, s.owned⟩ := by
  refine ⟨hmarked.exact h.exact, hmarked.totalSectors.trans h.totalSectors, h.inside, h.apart,
    fun x hx hused => ?_, h.fresh⟩
  have hold := h.used x hx hused
  have hbit := hmarked.bits x (h.totalSectors.symm ▸ hx)
  rw [hold, ite_self] at hbit
  exact hbit

theorem Inv.take (h : s.Inv v) {env : Env} {need : ℕ} (hallowed : s.Allowed (.take env need))
    (hcall : s.call (.take env need) = some t) : t.Inv v := by
  have hpost := takeExtent_post h.exact env hallowed
  unfold call at hcall
  dsimp only at hcall
  rcases hrun : takeExtent env need s.volume with ⟨_ | start, volume⟩
  · rw [hrun] at hcall
    obtain rfl := Option.some.inj hcall
    obtain ⟨start, p, hmarked⟩ := hpost.of_eq_none hrun
    exact h.marked hmarked
  · rw [hrun] at hcall
    obtain rfl := Option.some.inj hcall
    obtain ⟨⟨hend, hfree⟩, hmarked⟩ := hpost.of_eq_some hrun
    rw [h.totalSectors] at hend
    have hkept := h.marked hmarked
    -- no sector of the new extent is in use before the call
    have hnew : ∀ x, InExtent (start, need) x → s.volume.l0Used x = false :=
      fun x hx => hfree x hx.1 hx.2
    have hlt : ∀ x, InExtent (start, need) x → x < v.totalSectors := fun x hx => hx.2.trans_le hend
    have hunused : ∀ x, InExtent (start, need) x →
        ¬ (v.l0Used x = true ∨ ∃ e ∈ s.owned, InExtent e x) := fun x hx hused =>
      Bool.false_ne_true ((hnew x hx).symm.trans (h.used x (hlt x hx) hused))
    refine ⟨hkept.exact, hkept.totalSectors, List.forall_mem_cons.mpr ⟨hend, h.inside⟩,
      List.pairwise_cons.mpr ⟨fun e he x hx hex => hunused x hx (Or.inr ⟨e, he, hex⟩), h.apart⟩,
      fun x hx hused => ?_, List.forall_mem_cons.mpr ⟨fun x hx => ?_, h.fresh⟩⟩
    · have hbit := hmarked.bits x (h.totalSectors.symm ▸ hx)
      by_cases hin : InExtent (start, need) x
      · exact hbit.trans (if_pos hin)
      · refine hkept.used x hx (hused.imp_right fun ⟨e, he, hex⟩ => ?_)
        rcases List.mem_cons.mp he with rfl | he
        · exact absurd hex hin
        · exact ⟨e, he, hex⟩
    · exact Bool.eq_false_iff.mpr fun hx' => hunused x hx (Or.inl hx')

theorem Inv.give (h : s.Inv v) {env : Env} (he : e ∈ s.owned) :
    Inv v ⟨(rfsMarkExtent env e.1 e.2 false s.volume).2, s.owned.erase e⟩ := by
  have htotal := v.totalSectors_lt
  have hend := h.inside e he
  have hpost := rfsMarkExtent_post env s.volume h.exact.toGeometry e.1 e.2 (by omega) false
  have hmarked : ∃ p, p ≤ e.1 + e.2 ∧ s.volume.Marked
      (rfsMarkExtent env e.1 e.2 false s.volume).2.toVolume e.1 p false := by
    rcases hrun : rfsMarkExtent env e.1 e.2 false s.volume with ⟨_ | _, u⟩
    · obtain ⟨p, -, hp, hmarked, -⟩ := hpost.of_eq_none hrun
      exact ⟨p, hp, hmarked⟩
    · exact ⟨_, min_le_left _ _, hpost.of_eq_some hrun⟩
  obtain ⟨p, hp, hmarked⟩ := hmarked
  -- the others share no sector with the one that is given back
  obtain ⟨hother, hrest⟩ := List.pairwise_cons.mp
    ((List.perm_cons_erase he).pairwise h.apart fun hef x hf hx => hef x hx hf)
  have hsub : ∀ f ∈ s.owned.erase e, f ∈ s.owned := fun f hf => List.mem_of_mem_erase hf
  refine ⟨hmarked.exact h.exact, hmarked.totalSectors.trans h.totalSectors,
    fun f hf => h.inside f (hsub f hf), hrest, fun x hx hused => ?_, fun f hf =>
      h.fresh f (hsub f hf)⟩
  have hout : ¬ (e.1 ≤ x ∧ x < p) := by
    intro hin
    have hex : InExtent e x := ⟨hin.1, hin.2.trans_le hp⟩
    rcases hused with hused | ⟨f, hf, hfx⟩
    · exact Bool.false_ne_true ((h.fresh e he x hex).symm.trans hused)
    · exact hother f hf x hex hfx
  refine (hmarked.bits x (h.totalSectors.symm ▸ hx)).trans ?_
  rw [if_neg hout]
  exact h.used x hx (hused.imp_right fun ⟨f, hf, hfx⟩ => ⟨f, hsub f hf, hfx⟩)

/-- In every run from an exact volume the caches stay exact, the extents in use lie in the volume
and share no sector, and no sector that was in use at the start is handed out or freed. -/
theorem run_owned (hv : v.Exact) (hrun : Run call Allowed ⟨v, []⟩ t) :
    t.volume.Exact ∧ (t.owned.Pairwise fun e f => ∀ x, InExtent e x → ¬ InExtent f x) ∧
      (∀ e ∈ t.owned, e.1 + e.2 ≤ v.totalSectors ∧
        ∀ x, InExtent e x → t.volume.l0Used x = true ∧ v.l0Used x = false) ∧
      ∀ x < v.totalSectors, v.l0Used x = true → t.volume.l0Used x = true := by
  have hinv : t.Inv v := by
    refine hrun.preserved (P := Inv v) ⟨hv, rfl, by simp, List.Pairwise.nil, ?_, by simp⟩ ?_
    · rintro x - (hused | ⟨e, he, -⟩)
      · exact hused
      · cases he
    · intro s t c h hallowed hcall
      cases c with
      | take env need => exact h.take hallowed hcall
      | give env e => exact Option.some.inj hcall ▸ h.give hallowed
  refine ⟨hinv.exact, hinv.apart, fun e he =>
    ⟨hinv.inside e he, fun x hx => ⟨?_, hinv.fresh e he x hx⟩⟩,
    fun x hx hused => hinv.used x hx (Or.inl hused)⟩
  exact hinv.used x (hx.2.trans_le (hinv.inside e he)) (Or.inr ⟨e, he, hx⟩)

def middleTaken : ExtentLedger := Run.next call ⟨middleUsed, []⟩ (.take Env.reliable 100)

theorem run_owned_middleUsed : middleTaken.volume.Exact ∧
    (middleTaken.owned.Pairwise fun e f => ∀ x, InExtent e x → ¬ InExtent f x) ∧
    (∀ e ∈ middleTaken.owned, e.1 + e.2 ≤ middleUsed.totalSectors ∧
      ∀ x, InExtent e x → middleTaken.volume.l0Used x = true ∧ middleUsed.l0Used x = false) ∧
    ∀ x < middleUsed.totalSectors, middleUsed.l0Used x = true →
        middleTaken.volume.l0Used x = true := by
  have hexact : middleUsed.Exact := Volume.ofMap_exact _ _ _ _
  exact run_owned hexact (Run.next_step Run.refl (Or.inl (by decide)) (call_isSome _ _))

end ExtentLedger

end RetroRocket
