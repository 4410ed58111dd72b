import RetroRocket.HeapBlocks

/-!
# Runs of the kernel heap

A session is the allocator with the regions it was given and the pointers it has handed out. The
client may allocate, free what is live, add a region that is disjoint from the others, and write to
its payloads, which changes any header read at an address that reaches into one. In a run whose
calls are all `Safe` the heap keeps its integrity. A free that merges away the block of the cursor
is not safe, and from there on blocks are handed out twice.
-/

namespace RetroRocket

/-- The sum in `allocator_round_up` does not wrap, so the result is no smaller. -/
theorem le_allocatorRoundUp {v a : ℕ} (ha : a < 2 ^ 64) (hsum : v + (a - 1) < 2 ^ 64) :
    v ≤ allocatorRoundUp v a := by
  unfold allocatorRoundUp
  split
  · exact le_rfl
  · next hne =>
    dsimp only
    generalize hmask : BitVec.ofNat 64 a - 1 = mask
    have hm : mask.toNat = a - 1 := by
      have hone : (1 : BitVec 64).toNat = 1 := rfl
      rw [← hmask, BitVec.toNat_sub, BitVec.toNat_ofNat, hone]
      omega
    have hx : (BitVec.ofNat 64 v + mask).toNat = v + (a - 1) := by
      rw [BitVec.toNat_add, BitVec.toNat_ofNat, hm]
      omega
    generalize BitVec.ofNat 64 v + mask = x at hx
    have hadd := toNat_and_not_add x mask
    have hlow : (x &&& mask).toNat ≤ mask.toNat := by
      rw [BitVec.toNat_and]
      exact Nat.and_le_right
    omega

structure Session where
  heap : Allocator
  regions : List Region
  live : List (ℕ × ℕ)

inductive Call where
  | alloc (size : ℕ)
  | free (ptr : ℕ)
  | addRegion (reg : Region)
  | write (a : ℕ) (header : Header)

namespace Session

/-- What a client may call: it frees live pointers, registers a region once, and writes only where
the header read at `a` reaches into a payload it holds. -/
def Allowed (s : Session) : Call → Prop
  | .alloc size => size < 2 ^ 64
  | .free ptr => ∃ n, (ptr, n) ∈ s.live
  | .addRegion reg => ∀ r ∈ s.regions, reg.Disjoint r
  | .write a _ => ∃ p ∈ s.live, p.1 < a + 24 ∧ a < p.1 + p.2

def call (s : Session) : Call → Option Session
  | .alloc size => do
    let (ptr, heap) ← allocatorAlloc s.heap size
    some { s with heap := heap, live := if ptr = 0 then s.live else (ptr, size) :: s.live }
  | .free ptr => do
    let (_, heap) ← allocatorFree s.heap ptr
    some { s with heap := heap, live := s.live.filter (·.1 ≠ ptr) }
  | .addRegion reg => do
    let (ok, heap) ← allocatorAddRegion s.heap reg.start reg.size
    some { s with heap := heap, regions := if ok then reg :: s.regions else s.regions }
  | .write a header => some { s with heap := s.heap.store a header }

/-- After `allocator_init`, on any memory. -/
def init (mem : ℕ → Header) (reg : Region) (alignment : ℕ) : Session where
  heap := allocatorInit mem reg.start reg.size alignment
  regions := [reg]
  live := []

/-- The sessions that calls satisfying `safe` lead to. -/
inductive Run (safe : Session → Call → Prop) (s : Session) : Session → Prop
  | refl : Run safe s s
  | step {t u : Session} {c : Call} : Run safe s t → t.Allowed c → safe t c → t.call c = some u →
      Run safe s u

def Payload (s : Session) (ptr a : ℕ) : Prop :=
  ptr ≤ a ∧ a < ptr + allocatorUsableSize s.heap ptr

structure Integrity (s : Session) : Prop where
  blocks : ∃ xs, s.heap.Blocks s.regions xs ∧ s.heap.cursor ∈ xs
  disjoint : s.live.Pairwise fun p q => ∀ a, s.Payload p.1 a → ¬ s.Payload q.1 a
  inside : ∀ p ∈ s.live, ∀ a, s.Payload p.1 a → ∃ r ∈ s.regions, a ∈ r
  large : ∀ p ∈ s.live, p.2 ≤ allocatorUsableSize s.heap p.1

/-- The rounding unit of `allocator_alloc`. -/
def unit (s : Session) : ℕ := if s.heap.alignment ≠ 0 then s.heap.alignment else 8

def Safe (s : Session) : Call → Prop
  | .alloc size => size + (s.unit - 1) < 2 ^ 64 ∧
      allocatorRoundUp size s.unit + 48 + s.heap.alignment < 2 ^ 64
  | .free ptr => s.heap.KeepsCursorForward (ptr - 24) ∧ s.heap.KeepsCursorBackward (ptr - 24)
  | .addRegion reg =>
      ¬ (s.heap.cursor = reg.start + reg.size ∧ (s.heap.mem s.heap.cursor).free = true)
  | .write _ _ => True

/-! ## The invariant -/

structure Inv (s : Session) (xs : List ℕ) : Prop where
  blocks : s.heap.Blocks s.regions xs
  cursor : s.heap.cursor ∈ xs
  alignment : s.heap.alignment < 2 ^ 64
  live : ∀ p ∈ s.live, ∃ x ∈ xs, p.1 = x + 24 ∧ (s.heap.mem x).free = false ∧
    p.2 ≤ (s.heap.mem x).size
  distinct : s.live.Pairwise fun p q => p.1 ≠ q.1

variable {s t u : Session} {xs ys : List ℕ}

theorem usableSize_eq (heap : Allocator) {x : ℕ} (hx : x < 2 ^ 64) :
    allocatorUsableSize heap (x + 24) = (heap.mem x).size := by
  have hsub : sub64 (x + 24) 24 = x := by
    unfold sub64 u64
    omega
  unfold allocatorUsableSize
  rw [if_neg (by omega), hsub]

theorem Inv.block (h : s.Inv xs) {p : ℕ × ℕ} (hp : p ∈ s.live) : ∃ x ∈ xs, p.1 = x + 24 ∧
    (s.heap.mem x).free = false ∧ p.2 ≤ (s.heap.mem x).size ∧
    allocatorUsableSize s.heap p.1 = (s.heap.mem x).size := by
  obtain ⟨x, hx, hpx, hused, hsize⟩ := h.live p hp
  have hend := h.blocks.end_le hx
  unfold Allocator.blockEnd at hend
  refine ⟨x, hx, hpx, hused, hsize, ?_⟩
  rw [hpx, usableSize_eq _ (by omega)]

theorem Inv.integrity (h : s.Inv xs) : s.Integrity := by
  refine ⟨⟨xs, h.blocks, h.cursor⟩, ?_, fun p hp a ha => ?_, fun p hp => ?_⟩
  · refine h.distinct.imp_of_mem fun {p q} hp hq hne a hpa hqa => ?_
    obtain ⟨x, hx, hpx, -, -, hxu⟩ := h.block hp
    obtain ⟨y, hy, hqy, -, -, hyu⟩ := h.block hq
    unfold Payload at hpa hqa
    have hxy : x ≠ y := by
      rintro rfl
      exact hne (hpx.trans hqy.symm)
    have hside := h.blocks.side_of_ne hx hy hxy
    unfold Allocator.blockEnd at hside
    omega
  · obtain ⟨x, hx, hpx, -, -, hxu⟩ := h.block hp
    unfold Payload at ha
    exact h.blocks.inside x hx a (by omega) (by unfold Allocator.blockEnd; omega)
  · obtain ⟨x, -, -, -, hsize, hxu⟩ := h.block hp
    rwa [hxu]

theorem Inv.live_kept (h : s.Inv xs) {heap : Allocator} (hkept : s.heap.Kept xs heap ys) :
    ∀ p ∈ s.live, ∃ x ∈ ys, p.1 = x + 24 ∧ (heap.mem x).free = false ∧ p.2 ≤ (heap.mem x).size := by
  intro p hp
  obtain ⟨x, hx, hpx, hfree, hsize⟩ := h.live p hp
  obtain ⟨hy, hfree', hsize'⟩ := hkept x hx hfree
  exact ⟨x, hy, hpx, hfree', hsize'.symm ▸ hsize⟩

theorem Inv.alloc (h : s.Inv xs) {size : ℕ} (hsafe : s.Safe (.alloc size)) :
    ∃ u ys, s.call (.alloc size) = some u ∧ u.Inv ys := by
  obtain ⟨hsum, hwrap⟩ := hsafe
  have hle := le_allocatorRoundUp (v := size) (a := s.unit)
    (by unfold unit; split <;> have := h.alignment <;> omega) hsum
  obtain ⟨ptr, t, hrun, hcase⟩ := Allocator.allocatorAlloc_spec h.blocks h.cursor rfl hwrap
  simp only [Session.call, hrun, Option.bind_eq_bind, Option.bind_some]
  rcases hcase with ⟨rfl, rfl⟩ | ⟨x, ys, rfl, hx, hxfree, hre, hcur, hxy, hused, hsize⟩
  · exact ⟨_, xs, rfl, h⟩
  · rw [if_neg (by omega)]
    refine ⟨_, ys, rfl, ⟨hre.blocks, hcur, ?_, ?_, ?_⟩⟩
    · exact hre.alignment.symm ▸ h.alignment
    · intro p hp
      rcases List.mem_cons.mp hp with rfl | hp
      · exact ⟨x, hxy, rfl, hused, hle.trans hsize⟩
      · exact h.live_kept hre.kept p hp
    · rw [List.pairwise_cons]
      refine ⟨fun p hp hpx => ?_, h.distinct⟩
      -- the block was free, so no live pointer is its payload
      obtain ⟨y, hy, hpy, hyfree, -⟩ := h.live p hp
      obtain rfl : x = y := by omega
      rw [hxfree] at hyfree
      cases hyfree

theorem Inv.free (h : s.Inv xs) {ptr : ℕ} (hlive : s.Allowed (.free ptr))
    (hsafe : s.Safe (.free ptr)) : ∃ u ys, s.call (.free ptr) = some u ∧ u.Inv ys := by
  obtain ⟨n, hmem⟩ := hlive
  obtain ⟨x, hx, hpx, hused, -⟩ := h.live _ hmem
  dsimp only at hpx
  subst hpx
  obtain ⟨hforward, hbackward⟩ := hsafe
  rw [Nat.add_sub_cancel] at hforward hbackward
  obtain ⟨k, t, ys, hrun, hre, hcur⟩ :=
    Allocator.allocatorFree_spec h.blocks h.cursor hx hused hforward hbackward
  simp only [Session.call, hrun, Option.bind_eq_bind, Option.bind_some]
  refine ⟨_, ys, rfl, ⟨hre.blocks, hcur, ?_, fun p hp => ?_, h.distinct.filter _⟩⟩
  · exact hre.alignment.symm ▸ h.alignment
  · obtain ⟨hp, hne⟩ := List.mem_filter.mp hp
    obtain ⟨y, hy, hpy, hyfree, hysize⟩ := h.live p hp
    have hyx : y ≠ x := by
      rintro rfl
      simp [hpy] at hne
    obtain ⟨hyy, hyfree', hysize'⟩ := hre.kept y hy (by rwa [Allocator.store_mem_of_ne _ _ hyx])
    rw [Allocator.store_mem_of_ne _ _ hyx] at hysize'
    exact ⟨y, hyy, hpy, hyfree', hysize'.symm ▸ hysize⟩

theorem Inv.addRegion (h : s.Inv xs) {reg : Region} (hdisj : s.Allowed (.addRegion reg))
    (hsafe : s.Safe (.addRegion reg)) : ∃ u ys, s.call (.addRegion reg) = some u ∧ u.Inv ys := by
  obtain ⟨ok, t, ys, hrun, hre, hcur⟩ :=
    Allocator.allocatorAddRegion_spec h.blocks h.cursor hdisj hsafe
  simp only [Session.call, hrun, Option.bind_eq_bind, Option.bind_some]
  refine ⟨_, ys, rfl, ⟨hre.blocks, hcur, ?_, h.live_kept hre.kept, h.distinct⟩⟩
  exact hre.alignment.symm ▸ h.alignment

theorem Inv.write (h : s.Inv xs) {a : ℕ} {header : Header} (hmem : s.Allowed (.write a header)) :
    ∃ u ys, s.call (.write a header) = some u ∧ u.Inv ys := by
  obtain ⟨p, hp, hlow, hhigh⟩ := hmem
  obtain ⟨x, hx, hpx, -, hsize⟩ := h.live p hp
  have hnot : a ∉ xs := by
    intro ha
    have hside := h.blocks.side_of_ne hx ha (by omega)
    unfold Allocator.blockEnd at hside
    omega
  have hre := h.blocks.store_of_not_mem hnot header
  exact ⟨_, xs, rfl, ⟨hre.blocks, h.cursor, h.alignment, h.live_kept hre.kept, h.distinct⟩⟩

theorem Inv.call (h : s.Inv xs) {c : Call} (hallowed : s.Allowed c) (hsafe : s.Safe c) :
    ∃ u ys, s.call c = some u ∧ u.Inv ys := by
  cases c with
  | alloc size => exact h.alloc hsafe
  | free ptr => exact h.free hallowed hsafe
  | addRegion reg => exact h.addRegion hallowed hsafe
  | write a header => exact h.write hallowed

theorem init_inv (mem : ℕ → Header) {reg : Region} (hstart : reg.start ≠ 0) (hsize : 24 ≤ reg.size)
    {alignment : ℕ} (halign : alignment < 2 ^ 64) : (init mem reg alignment).Inv [reg.start] := by
  have hmem : (init mem reg alignment).heap.mem reg.start = ⟨sub64 reg.size 24, true, 0⟩ :=
    Function.update_self _ _ _
  have hsub : sub64 reg.size 24 = reg.size - 24 := by
    have := reg.end_le
    unfold sub64 u64
    omega
  refine ⟨⟨⟨rfl, hstart, ?_⟩, List.pairwise_singleton _ _, fun x hx a hxa ha => ?_⟩,
    List.mem_singleton_self _, halign, fun p hp => absurd hp List.not_mem_nil, List.Pairwise.nil⟩
  · change (_ : Header).next = 0
    rw [hmem]
  · obtain rfl := List.mem_singleton.mp hx
    refine ⟨reg, List.mem_singleton_self _, hxa, ?_⟩
    unfold Allocator.blockEnd at ha
    rw [hmem] at ha
    dsimp only at ha
    omega

theorem Inv.run (h : s.Inv xs) (hrun : s.Run Safe t) : ∃ ys, t.Inv ys := by
  induction hrun with
  | refl => exact ⟨xs, h⟩
  | step _ hallowed hsafe hcall ih =>
    obtain ⟨ys, hinv⟩ := ih
    obtain ⟨u, zs, hrun, hu⟩ := hinv.call hallowed hsafe
    obtain rfl := Option.some.inj (hrun.symm.trans hcall)
    exact ⟨zs, hu⟩

/-- In a run of safe calls the heap keeps its integrity, and every further safe call returns. -/
theorem run_integrity (mem : ℕ → Header) (reg : Region) (alignment : ℕ) (hstart : reg.start ≠ 0)
    (hsize : 24 ≤ reg.size) (halign : alignment < 2 ^ 64)
    (hrun : (init mem reg alignment).Run Safe t) :
    t.Integrity ∧ ∀ c, t.Allowed c → t.Safe c → (t.call c).isSome := by
  obtain ⟨ys, hinv⟩ := (init_inv mem hstart hsize halign).run hrun
  refine ⟨hinv.integrity, fun c hallowed hsafe => ?_⟩
  obtain ⟨u, -, hcall, -⟩ := hinv.call hallowed hsafe
  rw [hcall]
  rfl

/-! ## A stale cursor -/

def after (s : Session) (c : Call) : Session := (s.call c).getD s

theorem Run.after {safe : Session → Call → Prop} {c : Call} (h : s.Run safe t)
    (hallowed : t.Allowed c)
    (hsafe : safe t c) (hcall : (t.call c).isSome) : s.Run safe (t.after c) := by
  refine h.step hallowed hsafe ?_
  obtain ⟨u, hu⟩ := Option.isSome_iff_exists.mp hcall
  unfold Session.after
  rw [hu, Option.getD_some]

def smallHeap : Session := init (fun _ => ⟨0, false, 0⟩) ⟨4096, 1024, by decide⟩ 8

def staleCursor : Session := ((smallHeap.after (.alloc 64)).after (.alloc 64)).after (.free 4208)

def handedOutTwice : Session := (staleCursor.after (.alloc 64)).after (.alloc 800)

theorem handedOutTwice_run : smallHeap.Run (fun _ _ => True) handedOutTwice := by
  have h₁ : smallHeap.Run (fun _ _ => True) (smallHeap.after (.alloc 64)) :=
    Run.refl.after (show 64 < 2 ^ 64 by decide) trivial (by decide)
  have h₂ := h₁.after (c := .alloc 64) (show 64 < 2 ^ 64 by decide) trivial (by decide)
  have h₃ := h₂.after (c := .free 4208) ⟨64, by decide⟩ trivial (by decide)
  have h₄ := h₃.after (c := .alloc 64) (show 64 < 2 ^ 64 by decide) trivial (by decide)
  exact h₄.after (c := .alloc 800) (show 800 < 2 ^ 64 by decide) trivial (by decide)

/-- The two last payloads share address 4296. -/
theorem handedOutTwice_not_integrity :
    smallHeap.Run (fun _ _ => True) handedOutTwice ∧ ¬ handedOutTwice.Integrity := by
  refine ⟨handedOutTwice_run, fun hintegrity => ?_⟩
  have hlive : handedOutTwice.live = [(4208, 800), (4296, 64), (4120, 64)] := by decide
  have hfirst : allocatorUsableSize handedOutTwice.heap 4208 = 800 := by decide
  have hsecond : allocatorUsableSize handedOutTwice.heap 4296 = 64 := by decide
  have hdisjoint := hintegrity.disjoint
  rw [hlive, List.pairwise_cons] at hdisjoint
  refine hdisjoint.1 (4296, 64) (by simp) 4296 ?_ ?_
  · unfold Payload
    rw [hfirst]
    omega
  · unfold Payload
    rw [hsecond]
    omega

def smallHeapFreed : Session :=
  ((smallHeap.after (.alloc 64)).after (.alloc 64)).after (.free 4120)

theorem run_integrity_smallHeap : smallHeapFreed.Integrity ∧
    ∀ c, smallHeapFreed.Allowed c → smallHeapFreed.Safe c → (smallHeapFreed.call c).isSome := by
  have h₁ : smallHeap.Run Safe (smallHeap.after (.alloc 64)) :=
    Run.refl.after (show 64 < 2 ^ 64 by decide) ⟨by decide, by decide⟩ (by decide)
  have h₂ := h₁.after (c := .alloc 64) (show 64 < 2 ^ 64 by decide) ⟨by decide, by decide⟩
    (by decide)
  have hcursor : Safe ((smallHeap.after (.alloc 64)).after (.alloc 64)) (.free 4120) := by
    unfold Safe Allocator.KeepsCursorForward Allocator.KeepsCursorBackward
    decide
  have h₃ := h₂.after (c := .free 4120) ⟨64, by decide⟩ hcursor (by decide)
  exact run_integrity (fun _ => ⟨0, false, 0⟩) ⟨4096, 1024, by decide⟩ 8 (by decide) (by decide)
    (by decide) h₃

end Session

end RetroRocket
