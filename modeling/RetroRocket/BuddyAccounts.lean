import Mathlib.Order.Interval.Finset.Nat
import RetroRocket.BuddyShare

/-!
# The accounts of the buddy allocator

A ledger is an allocator with the pointers it has handed out and with the most bytes that live
blocks have had together. The counters of the allocator agree with it as long as no reallocation
leaves its block in place and splits it, since that changes the order of the block and no counter.
-/

namespace RetroRocket

theorem Cell.sum_le {cells : List Cell} (low high : ℕ) (hap : cells.Pairwise Cell.Apart)
    (hin : ∀ c ∈ cells, low ≤ c.start ∧ c.finish ≤ high) :
    (cells.map fun c => 2 ^ c.order).sum ≤ high - low := by
  obtain ⟨S, hS, hcard⟩ : ∃ S : Finset ℕ, (∀ a, a ∈ S ↔ ∃ c ∈ cells, a ∈ c) ∧
      S.card = (cells.map fun c => 2 ^ c.order).sum := by
    clear hin
    induction cells with
    | nil => exact ⟨∅, by simp, by simp⟩
    | cons c cells ih =>
      obtain ⟨hc, hrest⟩ := List.pairwise_cons.mp hap
      obtain ⟨S, hS, hcard⟩ := ih hrest
      have hmem : ∀ a, a ∈ Finset.Ico c.start c.finish ↔ a ∈ c := fun a => Finset.mem_Ico
      have hdisjoint : Disjoint (Finset.Ico c.start c.finish) S := by
        rw [Finset.disjoint_left]
        intro a ha hs
        obtain ⟨d, hd, had⟩ := (hS a).mp hs
        exact (hc d hd).not_mem ((hmem a).mp ha) had
      refine ⟨Finset.Ico c.start c.finish ∪ S, fun a => ?_, ?_⟩
      · rw [Finset.mem_union, hmem, hS, List.exists_mem_cons_iff]
      · rw [Finset.card_union_of_disjoint hdisjoint, hcard, Nat.card_Ico,
          List.map_cons, List.sum_cons,
          Cell.finish, Nat.add_sub_cancel_left]
  have hsub : S ⊆ Finset.Ico low high := by
    intro a ha
    obtain ⟨c, hc, hac⟩ := (hS a).mp ha
    obtain ⟨hlow, hhigh⟩ := hin c hc
    rw [Finset.mem_Ico]
    exact ⟨hlow.trans hac.1, hac.2.trans_le hhigh⟩
  rw [← hcard, ← Nat.card_Ico]
  exact Finset.card_le_card hsub

namespace BuddyAllocator

variable {s t : BuddyAllocator} {pools : List ℕ} {i b k n ptr fuel cur : ℕ}

def blockBytes (s : BuddyAllocator) (ptrs : List ℕ) : ℕ :=
  (ptrs.map fun p => 2 ^ (s.cell p).order).sum

/-! ## The counters -/

structure SameCounters (s t : BuddyAllocator) : Prop where
  current : t.currentBytes = s.currentBytes
  peak : t.peakBytes = s.peakBytes

theorem SameCounters.trans {u : BuddyAllocator} (h : s.SameCounters t) (h' : t.SameCounters u) :
    s.SameCounters u := ⟨h'.current.trans h.current, h'.peak.trans h.peak⟩

theorem splitDown_sameCounters (s : BuddyAllocator) (i b k cur : ℕ) :
    s.SameCounters (splitDown i b k cur s) := by
  induction cur generalizing s with
  | zero => exact ⟨rfl, rfl⟩
  | succ cur ih =>
    rw [splitDown]
    split
    · exact SameCounters.trans (t := s.push i cur (b + 2 ^ cur)) ⟨rfl, rfl⟩ (ih _)
    · exact ⟨rfl, rfl⟩

theorem unlink_sameCounters (s : BuddyAllocator) (i k b : ℕ) (link : BuddyLink) :
    s.SameCounters (s.unlink i k b link) := by
  cases link with
  | head => exact ⟨rfl, rfl⟩
  | next a => exact ⟨rfl, rfl⟩

theorem mergeLoop_sameCounters {r : BuddyAllocator × ℕ × ℕ} (h : mergeLoop i fuel s b k = some r) :
    s.SameCounters r.1 := by
  induction fuel generalizing s b k with
  | zero => cases h
  | succ fuel ih =>
    unfold mergeLoop at h
    dsimp only at h
    split at h
    · cases h
      exact ⟨rfl, rfl⟩
    · split at h
      · cases h
        exact ⟨rfl, rfl⟩
      · obtain ⟨found, -, h⟩ := Option.bind_eq_some_iff.mp h
        cases found with
        | none =>
          cases h
          exact ⟨rfl, rfl⟩
        | some prev => exact (unlink_sameCounters s i k _ prev).trans (ih h)

theorem buddyFree_counters (hptr : ptr ≠ 0) (h : buddyFree s ptr = some t) :
    t.currentBytes = s.currentBytes - 2 ^ (s.mem (sub64 ptr 24)).order ∧
      t.peakBytes = s.peakBytes := by
  rw [buddyFree, if_neg hptr] at h
  obtain ⟨r, hmerge, h⟩ := Option.bind_eq_some_iff.mp h
  cases h
  obtain ⟨hcurrent, hpeak⟩ := mergeLoop_sameCounters hmerge
  refine ⟨?_, hpeak⟩
  have hclamp : (if 2 ^ (s.mem (sub64 ptr 24)).order ≤ s.currentBytes then
      s.currentBytes - 2 ^ (s.mem (sub64 ptr 24)).order else 0) =
        s.currentBytes - 2 ^ (s.mem (sub64 ptr 24)).order := by
    split
    · rfl
    · omega
  exact hcurrent.trans hclamp

inductive Counted (s t : BuddyAllocator) (ptr : ℕ) : Prop
  | failed : ptr = 0 → s.SameCounters t → Counted s t ptr
  | block : ptr ≠ 0 → t.currentBytes = u64 (s.currentBytes + 2 ^ (t.cell ptr).order) →
      t.peakBytes = max t.currentBytes s.peakBytes → Counted s t ptr

theorem Counted.of_grow {p : ℕ} (h : (buddyGrow s p).Counted t ptr) : s.Counted t ptr := by
  cases h with
  | failed hzero hsame => exact .failed hzero ⟨hsame.current, hsame.peak⟩
  | block hne hcurrent hpeak => exact .block hne hcurrent hpeak

theorem takeBlock_counted (s : BuddyAllocator) (i k cur : ℕ) :
    s.Counted (takeBlock s i k cur).2 (takeBlock s i k cur).1 := by
  obtain ⟨hcurrent, hpeak⟩ := splitDown_sameCounters
    (s.setHead i cur (s.mem ((s.region i).freeLists cur)).next) i ((s.region i).freeLists cur) k cur
  have hfirst : (takeBlock s i k cur).1 - 24 = (s.region i).freeLists cur := Nat.add_sub_cancel _ _
  have horder : ((takeBlock s i k cur).2.cell (takeBlock s i k cur).1).order = k := by
    rw [cell, hfirst]
    exact congrArg BuddyHeader.order (store_mem_self _ _ _)
  refine .block (Nat.succ_ne_zero _) ?_ ?_
  · rw [horder]
    exact congrArg (fun c => u64 (c + 2 ^ k)) hcurrent
  · exact congrArg (max _) hpeak

theorem mallocLoop_counted {r : ℕ × BuddyAllocator} (h : mallocLoop n fuel s i pools = some r) :
    s.Counted r.2 r.1 := by
  induction fuel generalizing s i pools with
  | zero => cases h
  | succ fuel ih =>
    rw [mallocLoop.eq_def] at h
    dsimp only at h
    obtain ⟨k, -, h⟩ := Option.bind_eq_some_iff.mp h
    split at h
    · split at h
      · exact ih h
      · cases h
        exact .failed rfl ⟨rfl, rfl⟩
    · cases hfind : findOrder (s.region i) k with
      | some cur =>
        rw [hfind] at h
        cases h
        exact takeBlock_counted s i k cur
      | none =>
        rw [hfind] at h
        dsimp only at h
        split at h
        · exact ih h
        · cases pools with
          | nil =>
            cases h
            exact .failed rfl ⟨rfl, rfl⟩
          | cons pool pools => exact Counted.of_grow (ih h)

theorem buddyMalloc_counted {r : ℕ × BuddyAllocator}
    (h : RetroRocket.buddyMalloc s n pools = some r) :
    s.Counted r.2 r.1 := by
  unfold RetroRocket.buddyMalloc at h
  split at h
  · cases h
    exact .failed rfl ⟨rfl, rfl⟩
  · split at h
    · cases h
      exact .failed rfl ⟨rfl, rfl⟩
    · dsimp only at h
      cases hactive : s.activeRegion with
      | some i =>
        rw [hactive] at h
        exact mallocLoop_counted h
      | none =>
        rw [hactive] at h
        cases pools with
        | nil =>
          cases h
          exact .failed rfl ⟨rfl, rfl⟩
        | cons pool pools => exact Counted.of_grow (mallocLoop_counted h)

/-! ## The bytes of blocks -/

theorem blockBytes_cons (s : BuddyAllocator) (ptr : ℕ) (ptrs : List ℕ) :
    s.blockBytes (ptr :: ptrs) = 2 ^ (s.cell ptr).order + s.blockBytes ptrs := rfl

theorem blockBytes_perm {ptrs ptrs' : List ℕ} (h : ptrs.Perm ptrs') :
    s.blockBytes ptrs = s.blockBytes ptrs' := (h.map _).sum_eq

theorem blockBytes_congr {ptrs : List ℕ} (h : ∀ p ∈ ptrs, (t.cell p).order = (s.cell p).order) :
    t.blockBytes ptrs = s.blockBytes ptrs :=
  congrArg List.sum (List.map_congr_left fun p hp => congrArg (2 ^ ·) (h p hp))

theorem SameOrders.blockBytes (h : s.SameOrders t) (ptrs : List ℕ) :
    t.blockBytes ptrs = s.blockBytes ptrs := blockBytes_congr fun _ _ => (h _).1

end BuddyAllocator

/-! ## Ledgers -/

structure BuddyLedger where
  heap : BuddyAllocator
  live : List ℕ
  highest : ℕ

namespace BuddyLedger

open BuddyAllocator

/-- What a client may call. It writes only where the header read at `a` reaches into a payload. -/
def Allowed (s : BuddyLedger) : BuddyCall → Prop
  | .malloc _ pools => s.heap.FreshPools pools
  | .free ptr => ptr = 0 ∨ ptr ∈ s.live
  | .realloc ptr _ pools => (ptr = 0 ∨ ptr ∈ s.live) ∧ s.heap.FreshPools pools
  | .write a _ => ∃ p ∈ s.live, p < a + 24 ∧ a < (s.heap.cell p).finish

def enter (s : BuddyLedger) (heap : BuddyAllocator) (live : List ℕ) : BuddyLedger :=
  ⟨heap, live,
    max s.highest (s.heap.blockBytes s.live + heap.blockBytes (live.filter (· ∉ s.live)))⟩

def call (s : BuddyLedger) : BuddyCall → Option BuddyLedger
  | .malloc size pools => do
    let (ptr, heap) ← buddyMalloc s.heap size pools
    some (s.enter heap (if ptr = 0 then s.live else ptr :: s.live))
  | .free ptr => do
    let heap ← buddyFree s.heap ptr
    some (s.enter heap (s.live.filter (· ≠ ptr)))
  | .realloc ptr size pools => do
    let (new, heap) ← buddyRealloc s.heap ptr size pools
    let kept := s.live.filter (· ≠ ptr)
    some (s.enter heap (if new ≠ 0 then new :: kept else if size = 0 then kept else s.live))
  | .write a header => some (s.enter (s.heap.store a header) s.live)

/-- After `buddy_init`, on any memory. -/
def init (s : BuddyAllocator) (minOrder maxOrder growOrder : ℕ) : BuddyLedger :=
  ⟨buddyInit s minOrder maxOrder growOrder, [], 0⟩

inductive Run (s : BuddyLedger) : List (BuddyLedger × BuddyCall) → BuddyLedger → Prop
  | refl : Run s [] s
  | step {steps : List (BuddyLedger × BuddyCall)} {t u : BuddyLedger} {c : BuddyCall} :
    Run s steps t → t.Allowed c → t.call c = some u → Run s ((t, c) :: steps) u

structure Exact (s : BuddyLedger) : Prop where
  current : s.heap.currentBytes = s.heap.blockBytes s.live
  peak : s.heap.peakBytes = s.highest

def Shrinks (s : BuddyLedger) : BuddyCall → Prop
  | .realloc ptr size _ => ptr ≠ 0 ∧ size ≠ 0 ∧
    ∃ o < (s.heap.cell ptr).order,
      sizeToOrder (s.heap.region (s.heap.cell ptr).region) (u64 (size + 24)) = some o
  | _ => False

/-! ### The invariant -/

def session (s : BuddyLedger) : BuddySession :=
  ⟨s.heap, s.live.map fun p => (p, 2 ^ (s.heap.cell p).order - 24)⟩

structure Inv (s : BuddyLedger) : Prop where
  session : s.session.Inv
  le_highest : s.heap.blockBytes s.live ≤ s.highest

variable {s t u : BuddyLedger} {heap : BuddyAllocator} {ptr n m : ℕ} {pools : List ℕ}

theorem session_cells (s : BuddyLedger) :
    (s.session.live.map fun p => s.session.heap.cell p.1) = s.live.map s.heap.cell := by
  rw [session, List.map_map]
  rfl

theorem session_inv {live : List (ℕ × ℕ)} {k : ℕ} (h : (⟨heap, live⟩ : BuddySession).Inv) :
    (⟨heap, live.map Prod.fst, k⟩ : BuddyLedger).session.Inv := by
  obtain ⟨⟨F, htiled⟩, hlarge⟩ := h
  refine ⟨⟨F, ?_⟩, fun p hp => ?_⟩
  · rw [session, List.map_map, List.map_map]
    exact htiled
  · rw [session, List.map_map] at hp
    obtain ⟨q, hq, rfl⟩ := List.mem_map.mp hp
    obtain ⟨hlow, hfit⟩ := hlarge q hq
    dsimp only [Function.comp_apply] at hfit ⊢
    exact ⟨hlow, (Nat.sub_add_cancel ((Nat.le_add_left _ _).trans hfit)).le⟩

theorem session_ptrs (s : BuddyLedger) : s.session.live.map Prod.fst = s.live := by
  rw [session, List.map_map]
  exact List.map_id s.live

theorem mem_session (hptr : ptr ∈ s.live) :
    (ptr, 2 ^ (s.heap.cell ptr).order - 24) ∈ s.session.live := List.mem_map_of_mem hptr

theorem blockBytes_lt (h : s.session.Inv) : s.heap.blockBytes s.live < 2 ^ 64 := by
  obtain ⟨F, htiled⟩ := h.tiled
  rw [session_cells] at htiled
  have hle := Cell.sum_le 1 (2 ^ 64) (List.pairwise_append.mp htiled.tiling.apart).2.1
    fun c hc =>
      ⟨htiled.start_pos (List.mem_append_right F hc), htiled.finish_le (List.mem_append_right F hc)⟩
  rw [List.map_map] at hle
  have hsum : s.heap.blockBytes s.live ≤ 2 ^ 64 - 1 := hle
  omega

theorem session_nodup (h : s.session.Inv) : s.live.Nodup := by
  have hdistinct := h.distinct
  rw [session, List.pairwise_map] at hdistinct
  exact hdistinct

theorem blockBytes_focus (h : s.session.Inv) (hptr : ptr ∈ s.live) :
    s.heap.blockBytes s.live =
      2 ^ (s.heap.cell ptr).order + s.heap.blockBytes (s.live.filter (· ≠ ptr)) := by
  have hfilter : s.live.filter (· ≠ ptr) = s.live.erase ptr := by
    rw [(session_nodup h).erase_eq_filter]
    refine List.filter_congr fun p _ => ?_
    rw [Bool.eq_iff_iff, decide_eq_true_iff, bne_iff_ne]
  rw [hfilter, ← blockBytes_cons]
  exact blockBytes_perm (List.perm_cons_erase hptr)

/-! ### The calls -/

structure Keeps (s u : BuddyLedger) : Prop where
  inv : u.Inv
  exact : s.Exact → u.Exact

theorem filter_new {live : List ℕ} (hsub : live ⊆ s.live) : live.filter (· ∉ s.live) = [] :=
  List.filter_eq_nil_iff.mpr fun _ hp hnot => of_decide_eq_true hnot (hsub hp)

theorem Inv.highest (h : s.Inv) {live : List ℕ} (hsub : live ⊆ s.live) :
    (s.enter heap live).highest = s.highest := by
  rw [enter, filter_new hsub]
  exact max_eq_left h.le_highest

theorem highest_new (heap : BuddyAllocator) {live : List ℕ} (hnew : ptr ∉ s.live)
    (hsub : live ⊆ s.live) : (s.enter heap (ptr :: live)).highest =
      max s.highest (s.heap.blockBytes s.live + 2 ^ (heap.cell ptr).order) := by
  have hfilter : (ptr :: live).filter (· ∉ s.live) = [ptr] := by
    rw [List.filter_cons_of_pos (by simpa using hnew), filter_new hsub]
  rw [enter, hfilter]
  rfl

theorem Inv.keeps (h : s.Inv) {live : List ℕ} (k : ℕ) (hsub : live ⊆ s.live)
    (hbytes : heap.blockBytes live = s.heap.blockBytes s.live - k)
    (hcurrent : heap.currentBytes = s.heap.currentBytes - k)
    (hpeak : heap.peakBytes = s.heap.peakBytes)
    (hinv : (s.enter heap live).session.Inv) : s.Keeps (s.enter heap live) := by
  refine ⟨⟨hinv, ?_⟩, fun hexact => ⟨?_, ?_⟩⟩
  · rw [h.highest hsub]
    change heap.blockBytes live ≤ s.highest
    have hle := h.le_highest
    omega
  · change heap.currentBytes = heap.blockBytes live
    rw [hcurrent, hbytes, hexact.current]
  · rw [h.highest hsub]
    exact hpeak.trans hexact.peak

theorem keeps_new (hnew : ptr ∉ s.live)
    (hbytes : heap.blockBytes s.live = s.heap.blockBytes s.live)
    (hcurrent : heap.currentBytes = u64 (s.heap.currentBytes + 2 ^ (heap.cell ptr).order))
    (hpeak : heap.peakBytes = max heap.currentBytes s.heap.peakBytes)
    (hinv : (s.enter heap (ptr :: s.live)).session.Inv) :
    s.Keeps (s.enter heap (ptr :: s.live)) := by
  have hhighest := highest_new heap hnew (List.Subset.refl s.live)
  have hsum : heap.blockBytes (ptr :: s.live) =
      s.heap.blockBytes s.live + 2 ^ (heap.cell ptr).order := by
    rw [blockBytes_cons, hbytes, Nat.add_comm]
  have hlt := blockBytes_lt hinv
  change heap.blockBytes (ptr :: s.live) < 2 ^ 64 at hlt
  rw [hsum] at hlt
  refine ⟨⟨hinv, ?_⟩, fun hexact => ?_⟩
  · rw [hhighest]
    change heap.blockBytes (ptr :: s.live) ≤ _
    rw [hsum]
    exact le_max_right _ _
  · have hcount : heap.currentBytes = s.heap.blockBytes s.live + 2 ^ (heap.cell ptr).order := by
      rw [hcurrent, hexact.current, u64_of_lt hlt]
    refine ⟨hcount.trans hsum.symm, ?_⟩
    rw [hhighest, ← hcount, ← hexact.peak, max_comm]
    exact hpeak

theorem Inv.malloc (h : s.Inv) (n : ℕ) (hpools : s.heap.FreshPools pools) :
    ∃ ptr heap, buddyMalloc s.heap n pools = some (ptr, heap) ∧ (ptr = 0 ∨ ptr ∉ s.live) ∧
      s.Keeps (s.enter heap (if ptr = 0 then s.live else ptr :: s.live)) := by
  obtain ⟨ptr, heap, hrun, hnew, hinv⟩ := h.session.malloc (n := n) hpools
  obtain ⟨F, htiled⟩ := h.session.tiled
  obtain ⟨ptr', heap', hrun', halloc⟩ := htiled.buddyMalloc n hpools
  obtain ⟨rfl, rfl⟩ := Prod.mk.inj (Option.some.inj (hrun.symm.trans hrun'))
  have hlive : ptr = 0 ∨ ptr ∉ s.live :=
    hnew.imp_right fun hother hmem => hother _ (mem_session hmem) rfl
  have hbytes : heap.blockBytes s.live = s.heap.blockBytes s.live := by
    refine blockBytes_congr fun p hp => ?_
    cases halloc with
    | failed hsame => exact (hsame _).1
    | @block _ _ i b k _ htaken _ =>
      have hlow := (h.session.large _ (mem_session hp)).1
      have hne : p ≠ b + 24 := by
        rintro rfl
        exact hlive.resolve_left (Nat.succ_ne_zero _) hp
      dsimp only at hlow
      exact (htaken.other (p - 24) (by omega)).1
  refine ⟨ptr, heap, hrun, hlive, ?_⟩
  cases buddyMalloc_counted hrun with
  | failed hzero hcounters =>
    rw [if_pos hzero] at hinv ⊢
    have hinv' := session_inv (k := (s.enter heap s.live).highest) hinv
    rw [session_ptrs] at hinv'
    exact h.keeps 0 (List.Subset.refl _) hbytes hcounters.current hcounters.peak hinv'
  | block hne hcurrent hpeak =>
    rw [if_neg hne] at hinv ⊢
    have hinv' := session_inv (k := (s.enter heap (ptr :: s.live)).highest) hinv
    rw [List.map_cons, session_ptrs] at hinv'
    exact keeps_new (hlive.resolve_left hne) hbytes hcurrent hpeak hinv'

theorem Inv.ne_zero (h : s.Inv) (hptr : ptr ∈ s.live) : ptr ≠ 0 := by
  have hlow := (h.session.large _ (mem_session hptr)).1
  dsimp only at hlow
  omega

theorem Inv.filter_zero (h : s.Inv) : s.live.filter (· ≠ 0) = s.live :=
  List.filter_eq_self.mpr fun _ hp => decide_eq_true (h.ne_zero hp)

theorem session_filter (s : BuddyLedger) (ptr : ℕ) :
    (s.session.live.filter (·.1 ≠ ptr)).map Prod.fst = s.live.filter (· ≠ ptr) := by
  rw [session, List.filter_map, List.map_map]
  exact List.map_id _

theorem Inv.header (h : s.Inv) (hptr : ptr ∈ s.live) : sub64 ptr 24 = ptr - 24 := by
  have hmem := mem_session hptr
  have hlow := (h.session.large _ hmem).1
  obtain ⟨F, htiled⟩ := h.session.focus hmem
  dsimp only at hlow
  have hheader := htiled.header_eq
  rwa [Nat.sub_add_cancel hlow] at hheader

theorem Inv.free (h : s.Inv) (hptr : ptr = 0 ∨ ptr ∈ s.live) :
    ∃ heap, buddyFree s.heap ptr = some heap ∧ (∀ p, (heap.cell p).order = (s.heap.cell p).order) ∧
      s.Keeps (s.enter heap (s.live.filter (· ≠ ptr))) := by
  rcases hptr with rfl | hptr
  · refine ⟨s.heap, if_pos rfl, fun _ => rfl, ?_⟩
    rw [h.filter_zero]
    exact h.keeps 0 (List.Subset.refl _) rfl rfl rfl h.session
  · have hmem := mem_session hptr
    obtain ⟨heap, hrun, hinv⟩ := h.session.free (Or.inr ⟨_, hmem⟩)
    obtain ⟨F, htiled⟩ := h.session.focus hmem
    obtain ⟨heap', F', hrun', -, hsame⟩ := htiled.buddyFree rfl rfl
    have hlow := (h.session.large _ hmem).1
    dsimp only at hlow
    rw [Nat.sub_add_cancel hlow] at hrun'
    obtain rfl := Option.some.inj (hrun.symm.trans hrun')
    obtain ⟨hcurrent, hpeak⟩ := buddyFree_counters (h.ne_zero hptr) hrun
    rw [h.header hptr] at hcurrent
    refine ⟨heap, hrun, fun p => (hsame _).1, h.keeps (2 ^ (s.heap.cell ptr).order)
      (fun _ hp => List.mem_of_mem_filter hp) ?_ hcurrent hpeak ?_⟩
    · rw [blockBytes_focus h.session hptr, Nat.add_sub_cancel_left]
      exact hsame.blockBytes _
    · have hinv' := session_inv
        (k := (s.enter heap (s.live.filter (· ≠ ptr))).highest) hinv
      rw [session_filter] at hinv'
      exact hinv'

theorem Inv.move (h : s.Inv) (hptr : ptr ∈ s.live) (n : ℕ) (hpools : s.heap.FreshPools pools) :
    ∃ new heap, buddyMalloc s.heap n pools = some (new, heap) ∧
      ((new = 0 ∧ s.Keeps (s.enter heap s.live)) ∨
        (new ≠ 0 ∧ ∃ heap', buddyFree heap ptr = some heap' ∧
          s.Keeps (s.enter heap' (new :: s.live.filter (· ≠ ptr))))) := by
  obtain ⟨new, heap, hmalloc, hnew, hkeeps⟩ := h.malloc n hpools
  refine ⟨new, heap, hmalloc, ?_⟩
  by_cases hzero : new = 0
  · rw [if_pos hzero] at hkeeps
    exact Or.inl ⟨hzero, hkeeps⟩
  · rw [if_neg hzero] at hkeeps
    have hnew := hnew.resolve_left hzero
    obtain ⟨heap', hfree, horder, hfreed⟩ :=
      hkeeps.inv.free (Or.inr (List.mem_cons_of_mem new hptr))
    have hne : new ≠ ptr := by
      rintro rfl
      exact hnew hptr
    have hlive : (new :: s.live).filter (· ≠ ptr) = new :: s.live.filter (· ≠ ptr) :=
      List.filter_cons_of_pos (by simpa using hne)
    have hhighest : (s.enter heap (new :: s.live)).enter heap' (new :: s.live.filter (· ≠ ptr)) =
        s.enter heap' (new :: s.live.filter (· ≠ ptr)) := by
      have hkept : s.live.filter (· ≠ ptr) ⊆ s.live := fun _ hp => List.mem_of_mem_filter hp
      have hsame :
        ((s.enter heap (new :: s.live)).enter heap' (new :: s.live.filter (· ≠ ptr))).highest =
          (s.enter heap' (new :: s.live.filter (· ≠ ptr))).highest := by
        rw [hkeeps.inv.highest (List.cons_subset_cons new hkept), highest_new heap' hnew hkept,
          highest_new heap hnew (List.Subset.refl s.live), horder new]
        rfl
      exact congrArg (BuddyLedger.mk heap' (new :: s.live.filter (· ≠ ptr))) hsame
    refine Or.inr ⟨hzero, heap', hfree, ?_⟩
    change (s.enter heap (new :: s.live)).Keeps
      ((s.enter heap (new :: s.live)).enter heap' ((new :: s.live).filter (· ≠ ptr))) at hfreed
    rw [hlive, hhighest] at hfreed
    exact ⟨hfreed.inv, fun hexact => hfreed.exact (hkeeps.exact hexact)⟩

theorem Inv.shrink (h : s.Inv) (hptr : ptr ∈ s.live) {o : ℕ} (hmin : s.heap.minOrder ≤ o)
    (ho : o < (s.heap.cell ptr).order) {heap : BuddyAllocator}
    (hheap : splitDown (s.heap.cell ptr).region (ptr - 24) o (s.heap.cell ptr).order
      (s.heap.store (ptr - 24) { s.heap.mem (ptr - 24) with order := o }) = heap) :
    (s.enter heap (ptr :: s.live.filter (· ≠ ptr))).Inv ∧
      (s.Exact → ¬ (s.enter heap (ptr :: s.live.filter (· ≠ ptr))).Exact) := by
  have hmem := mem_session hptr
  obtain ⟨F, htiled⟩ := h.session.focus hmem
  have hset := htiled.setHeader (ptr - 24) { s.heap.mem (ptr - 24) with order := o } rfl
  obtain ⟨F', -, horders⟩ := BuddyAllocator.Tiled.splitDown _ hset ho.le
  have hsame :
      (s.heap.store (ptr - 24) { s.heap.mem (ptr - 24) with order := o }).SameOrders heap := by
    rw [← hheap]
    exact horders
  have hcounters : s.heap.SameCounters heap := by
    rw [← hheap]
    exact SameCounters.trans
      (t := s.heap.store (ptr - 24) { s.heap.mem (ptr - 24) with order := o })
      ⟨rfl, rfl⟩ (splitDown_sameCounters _ _ _ _ _)
  have hroom : 0 + 24 ≤ 2 ^ o := by
    have hpow : 2 ^ 5 ≤ 2 ^ o := Nat.pow_le_pow_right (by omega) (htiled.orders.min.trans hmin)
    omega
  have hinv : (⟨heap, (ptr, 0) :: s.session.live.filter (·.1 ≠ ptr)⟩ : BuddySession).Inv := by
    rw [← hheap]
    exact h.session.shrink hmem ho.le hroom
  have hself : (heap.cell ptr).order = o := by
    rw [cell, (hsame _).1, store_mem_self]
  have hkept : heap.blockBytes (s.live.filter (· ≠ ptr)) =
      s.heap.blockBytes (s.live.filter (· ≠ ptr)) := by
    refine blockBytes_congr fun p hp => ?_
    have hne := of_decide_eq_true (List.mem_filter.mp hp).2
    have hlow := (h.session.large _ (mem_session (List.mem_of_mem_filter hp))).1
    have hlow' := (h.session.large _ hmem).1
    dsimp only at hlow hlow'
    exact ((hsame _).1).trans (congrArg BuddyHeader.order (store_mem_of_ne _ _ (by omega)))
  have hlt : 2 ^ o < 2 ^ (s.heap.cell ptr).order := Nat.pow_lt_pow_right (by omega) ho
  have hbytes : heap.blockBytes (ptr :: s.live.filter (· ≠ ptr)) < s.heap.blockBytes s.live := by
    rw [blockBytes_cons, hself, hkept, blockBytes_focus h.session hptr]
    omega
  have hsub : ptr :: s.live.filter (· ≠ ptr) ⊆ s.live :=
    List.cons_subset.mpr ⟨hptr, fun _ hp => List.mem_of_mem_filter hp⟩
  refine ⟨⟨?_, ?_⟩, fun hexact hexact' => ?_⟩
  · have hinv' := session_inv (k := (s.enter heap (ptr :: s.live.filter (· ≠ ptr))).highest) hinv
    rw [List.map_cons, session_filter] at hinv'
    exact hinv'
  · rw [h.highest hsub]
    exact hbytes.le.trans h.le_highest
  · have hcurrent : heap.currentBytes = heap.blockBytes (ptr :: s.live.filter (· ≠ ptr)) :=
      hexact'.current
    rw [hcounters.current, hexact.current] at hcurrent
    omega

theorem Inv.minOrder_le (h : s.Inv) (hptr : ptr ∈ s.live) {o : ℕ}
    (ho : sizeToOrder (s.heap.region (s.heap.cell ptr).region) n = some o) :
    s.heap.minOrder ≤ o := by
  obtain ⟨F, htiled⟩ := h.session.focus (mem_session hptr)
  have hregion := htiled.free_region (List.mem_append_right F List.mem_cons_self)
  exact (htiled.uniform _ hregion).2.1.symm.le.trans (sizeToOrder_ge ho)

theorem Inv.keeps_focus (h : s.Inv) (hptr : ptr ∈ s.live) :
    s.Keeps (s.enter s.heap (ptr :: s.live.filter (· ≠ ptr))) := by
  have hperm := BuddySession.perm_cons_filter h.session.distinct (mem_session hptr)
  have hinv := session_inv (k := (s.enter s.heap (ptr :: s.live.filter (· ≠ ptr))).highest)
    (BuddySession.Inv.perm h.session hperm)
  rw [List.map_cons, session_filter] at hinv
  refine h.keeps 0 (List.cons_subset.mpr ⟨hptr, fun _ hp => List.mem_of_mem_filter hp⟩) ?_
    rfl rfl hinv
  rw [blockBytes_cons, ← blockBytes_focus h.session hptr]
  rfl

theorem Inv.realloc (h : s.Inv) (hptr : ptr = 0 ∨ ptr ∈ s.live) (hpools : s.heap.FreshPools pools)
    {new : ℕ} (hrun : buddyRealloc s.heap ptr n pools = some (new, heap)) {live : List ℕ}
    (hlive : live = if new ≠ 0 then new :: s.live.filter (· ≠ ptr) else
      if n = 0 then s.live.filter (· ≠ ptr) else s.live) :
    (s.enter heap live).Inv ∧
      (s.Exact → ((s.enter heap live).Exact ↔ ¬ s.Shrinks (.realloc ptr n pools))) := by
  have hkept : ∀ {t : BuddyLedger}, s.Keeps t → ¬ s.Shrinks (.realloc ptr n pools) →
      t.Inv ∧ (s.Exact → (t.Exact ↔ ¬ s.Shrinks (.realloc ptr n pools))) :=
    fun hkeeps hnot => ⟨hkeeps.inv, fun hexact => iff_of_true (hkeeps.exact hexact) hnot⟩
  unfold buddyRealloc at hrun
  split at hrun
  · next hzero =>
    obtain ⟨new', heap', hmalloc, -, hkeeps⟩ := h.malloc n hpools
    obtain ⟨rfl, rfl⟩ := Prod.mk.inj (Option.some.inj (hmalloc.symm.trans hrun))
    rw [hzero, h.filter_zero, ite_self, ite_not] at hlive
    rw [hlive]
    exact hkept hkeeps fun hshrinks => hshrinks.1 hzero
  · next hne =>
    have hptr := hptr.resolve_left hne
    split at hrun
    · next hsize =>
      obtain ⟨heap', hfree, -, hkeeps⟩ := h.free (Or.inr hptr)
      rw [hfree] at hrun
      obtain ⟨rfl, rfl⟩ := Prod.mk.inj (Option.some.inj hrun)
      rw [if_neg (not_not.mpr rfl), if_pos hsize] at hlive
      rw [hlive]
      exact hkept hkeeps fun hshrinks => hshrinks.2.1 hsize
    · next hsize =>
      dsimp only at hrun
      rw [h.header hptr] at hrun
      obtain ⟨o, horder, hrun⟩ := Option.bind_eq_some_iff.mp hrun
      have hshrinks : s.Shrinks (.realloc ptr n pools) ↔ o < (s.heap.cell ptr).order := by
        constructor
        · rintro ⟨-, -, o', hlt, horder'⟩
          obtain rfl := Option.some.inj (horder.symm.trans horder')
          exact hlt
        · intro hlt
          exact ⟨hne, hsize, o, hlt, horder⟩
      split at hrun
      · next hsame =>
        obtain ⟨rfl, rfl⟩ := Prod.mk.inj (Option.some.inj hrun)
        rw [if_pos hne] at hlive
        rw [hlive]
        exact hkept (h.keeps_focus hptr) (fun hshrinks' => (hshrinks.mp hshrinks').ne hsame)
      · split at hrun
        · next hlt =>
          obtain ⟨rfl, hheap⟩ := Prod.mk.inj (Option.some.inj hrun)
          rw [if_pos hne] at hlive
          rw [hlive]
          obtain ⟨hinv, hnot⟩ := h.shrink hptr (h.minOrder_le hptr horder) hlt hheap
          exact ⟨hinv, fun hexact => iff_of_false (hnot hexact) (not_not.mpr (hshrinks.mpr hlt))⟩
        · next hlt =>
          obtain ⟨new', heap', hmalloc, hmove⟩ := h.move hptr n hpools
          rw [hmalloc] at hrun
          simp only [Option.bind_eq_bind, Option.bind_some] at hrun
          rcases hmove with ⟨hzero, hkeeps⟩ | ⟨hnew, heap'', hfree, hkeeps⟩
          · rw [if_pos hzero] at hrun
            obtain ⟨rfl, rfl⟩ := Prod.mk.inj (Option.some.inj hrun)
            rw [if_neg (not_not.mpr rfl), if_neg hsize] at hlive
            rw [hlive]
            exact hkept hkeeps (fun hshrinks' => hlt (hshrinks.mp hshrinks'))
          · rw [if_neg hnew, hfree] at hrun
            obtain ⟨rfl, rfl⟩ := Prod.mk.inj (Option.some.inj hrun)
            rw [if_pos hnew] at hlive
            rw [hlive]
            exact hkept hkeeps (fun hshrinks' => hlt (hshrinks.mp hshrinks'))

theorem Inv.session_allowed (h : s.Inv) {a : ℕ} {header : BuddyHeader}
    (hallowed : s.Allowed (.write a header)) : s.session.Allowed (.write a header) := by
  obtain ⟨p, hp, hlow, hhigh⟩ := hallowed
  have hmem := mem_session hp
  obtain ⟨hge, hlarge⟩ := h.session.large _ hmem
  have hfinish : (s.heap.cell p).finish = p - 24 + 2 ^ (s.heap.cell p).order := rfl
  rw [hfinish] at hhigh
  have hpayload : a < p + (2 ^ (s.heap.cell p).order - 24) := by
    change 24 ≤ p at hge
    change 2 ^ (s.heap.cell p).order - 24 + 24 ≤ 2 ^ (s.heap.cell p).order at hlarge
    omega
  exact ⟨_, hmem, hlow, hpayload⟩

theorem Inv.write (h : s.Inv) {a : ℕ} {header : BuddyHeader}
    (hallowed : s.Allowed (.write a header)) :
    s.Keeps (s.enter (s.heap.store a header) s.live) := by
  have hwrite := h.session_allowed hallowed
  have hinv := session_inv (k := (s.enter (s.heap.store a header) s.live).highest)
    (h.session.write hwrite)
  rw [session_ptrs] at hinv
  have hcells : ∀ p ∈ s.live, (s.heap.store a header).cell p = s.heap.cell p := by
    intro p hp
    have hcell := h.session.write_cell hwrite (mem_session hp)
    exact hcell
  exact h.keeps 0 (List.Subset.refl _)
    (blockBytes_congr fun p hp => congrArg Cell.order (hcells p hp)) rfl rfl hinv

theorem Inv.call (h : s.Inv) {c : BuddyCall} (hallowed : s.Allowed c) (hcall : s.call c = some u) :
    u.Inv ∧ (s.Exact → (u.Exact ↔ ¬ s.Shrinks c)) := by
  cases c with
  | malloc size pools =>
    obtain ⟨ptr, heap, hrun, -, hkeeps⟩ := h.malloc size hallowed
    rw [BuddyLedger.call, hrun] at hcall
    obtain rfl := Option.some.inj hcall
    exact ⟨hkeeps.inv, fun hexact => iff_of_true (hkeeps.exact hexact) not_false⟩
  | free ptr =>
    obtain ⟨heap, hrun, -, hkeeps⟩ := h.free hallowed
    rw [BuddyLedger.call, hrun] at hcall
    obtain rfl := Option.some.inj hcall
    exact ⟨hkeeps.inv, fun hexact => iff_of_true (hkeeps.exact hexact) not_false⟩
  | realloc ptr size pools =>
    obtain ⟨⟨new, heap⟩, hrun, hu⟩ := Option.bind_eq_some_iff.mp hcall
    obtain rfl := Option.some.inj hu
    exact h.realloc hallowed.1 hallowed.2 hrun rfl
  | write a header =>
    have hkeeps := h.write hallowed
    obtain rfl := Option.some.inj hcall
    exact ⟨hkeeps.inv, fun hexact => iff_of_true (hkeeps.exact hexact) not_false⟩

/-! ### Runs -/

theorem init_inv (s : BuddyAllocator) {minOrder maxOrder growOrder : ℕ}
    (hok : BuddyOrders minOrder maxOrder growOrder) : (init s minOrder maxOrder growOrder).Inv :=
  ⟨BuddySession.init_inv s hok, Nat.le_refl 0⟩

theorem init_exact (s : BuddyAllocator) {minOrder maxOrder growOrder : ℕ}
    (hok : BuddyOrders minOrder maxOrder growOrder) :
    (init s minOrder maxOrder growOrder).Exact := by
  unfold init
  rw [BuddySession.buddyInit_eq s hok]
  exact ⟨rfl, rfl⟩

theorem Run.inv {steps : List (BuddyLedger × BuddyCall)} (h : s.Run steps t) (hs : s.Inv) :
    t.Inv := by
  induction h with
  | refl => exact hs
  | step _ hallowed hcall ih => exact (ih.call hallowed hcall).1

/-- The counters are right all along a run if and only if none of its calls shrinks a block. -/
theorem exact_iff_not_shrinks (s : BuddyAllocator) {minOrder maxOrder growOrder : ℕ}
    (hok : BuddyOrders minOrder maxOrder growOrder) {steps : List (BuddyLedger × BuddyCall)}
    (hrun : (init s minOrder maxOrder growOrder).Run steps t) :
    (t.Exact ∧ ∀ p ∈ steps, p.1.Exact) ↔ ∀ p ∈ steps, ¬ p.1.Shrinks p.2 := by
  induction hrun with
  | refl => exact iff_of_true ⟨init_exact s hok, by simp⟩ (by simp)
  | @step steps t u c hrun hallowed hcall ih =>
    obtain ⟨-, hstep⟩ := (hrun.inv (init_inv s hok)).call hallowed hcall
    rw [List.forall_mem_cons, List.forall_mem_cons, ← ih]
    constructor
    · rintro ⟨hu, ht, hsteps⟩
      exact ⟨(hstep ht).mp hu, ht, hsteps⟩
    · rintro ⟨hnot, ht, hsteps⟩
      exact ⟨(hstep ht).mpr hnot, ht, hsteps⟩

def after (s : BuddyLedger) (c : BuddyCall) : BuddyLedger := (s.call c).getD s

theorem Run.after {steps : List (BuddyLedger × BuddyCall)} {c : BuddyCall} (h : s.Run steps t)
    (hallowed : t.Allowed c) (hcall : (t.call c).isSome) : s.Run ((t, c) :: steps) (t.after c) := by
  refine h.step hallowed ?_
  obtain ⟨u, hu⟩ := Option.isSome_iff_exists.mp hcall
  unfold BuddyLedger.after
  rw [hu, Option.getD_some]

def empty : BuddyLedger := init BuddySession.noAllocator 5 12 12

def oneBlock : BuddyLedger := empty.after (.malloc 100 [4096])

theorem run_oneBlock : empty.Run [(empty, .malloc 100 [4096])] oneBlock := by
  refine Run.refl.after ⟨fun p hp => ?_, List.pairwise_singleton _ _⟩ (by decide)
  obtain rfl := List.mem_singleton.mp hp
  exact ⟨by decide, by decide, nofun⟩

theorem run_realloc (size : ℕ) (hcall : (oneBlock.call (.realloc 4120 size [])).isSome) :
    empty.Run [(oneBlock, .realloc 4120 size []), (empty, .malloc 100 [4096])]
      (oneBlock.after (.realloc 4120 size [])) :=
  run_oneBlock.after ⟨Or.inr (by decide), nofun, List.Pairwise.nil⟩ hcall

theorem exact_iff_not_shrinks_moved : (oneBlock.after (.realloc 4120 200 [])).Exact ∧
    ∀ p ∈ [(oneBlock, BuddyCall.realloc 4120 200 []), (empty, .malloc 100 [4096])], p.1.Exact := by
  refine (exact_iff_not_shrinks BuddySession.noAllocator
    ⟨by decide, by decide, by decide, by decide⟩ (run_realloc 200 (by decide +kernel))).mpr
      fun p hp => ?_
  rcases List.mem_cons.mp hp with rfl | hp
  · rintro ⟨-, -, o, hlt, horder⟩
    have height :
      sizeToOrder (oneBlock.heap.region (oneBlock.heap.cell 4120).region) (u64 (200 + 24)) =
        some 8 := by decide +kernel
    have hseven : (oneBlock.heap.cell 4120).order = 7 := by decide +kernel
    obtain rfl := Option.some.inj (horder.symm.trans height)
    rw [hseven] at hlt
    omega
  · obtain rfl := List.mem_singleton.mp hp
    exact not_false

/-- 100 bytes take a block of 128, and 64 of them are left of it for 10. -/
theorem not_exact_shrunk : ¬ ∀ (s : BuddyAllocator) (minOrder maxOrder growOrder : ℕ),
    BuddyOrders minOrder maxOrder growOrder → ∀ steps t,
      (init s minOrder maxOrder growOrder).Run steps t → t.Exact := by
  intro h
  have hexact := h _ _ _ _ ⟨by decide, by decide, by decide, by decide⟩ _ _
    (run_realloc 10 (by decide +kernel))
  exact absurd hexact.current (by decide +kernel)

end BuddyLedger

end RetroRocket
