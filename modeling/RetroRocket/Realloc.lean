import RetroRocket.HeapRun
import RetroRocket.KernelHeap

/-!
# Growing and shrinking a block of the kernel heap

`krealloc` allocates, copies as many bytes as the new size says, and frees. The copy reads the old
block from its start, so it stays inside exactly when the new size is not above the old usable size.
Headers that the allocator writes lie in free blocks or in blocks it joins (`allocatorAlloc_stores`,
`allocatorFree_stores`), and never over a payload.
-/

namespace RetroRocket

namespace Allocator

variable {s t : Allocator} {regions : List Region} {xs : List ℕ} {x a : ℕ}

/-! ## Where headers are written -/

def Stores (mem mem' : ℕ → Header) (P : ℕ → Prop) : Prop := ∀ a, mem' a ≠ mem a → P a

section Stores

variable {mem mem' mem'' : ℕ → Header} {P Q : ℕ → Prop}

theorem Stores.refl (mem : ℕ → Header) (P : ℕ → Prop) : Stores mem mem P :=
  fun _ ha => absurd rfl ha

theorem stores_store (s : Allocator) {x : ℕ} (h : Header) (hx : P x) :
    Stores s.mem (s.store x h).mem P := by
  intro a ha
  by_cases hne : a = x
  · exact hne ▸ hx
  · exact absurd (s.store_mem_of_ne h hne) ha

theorem Stores.mono (h : Stores mem mem' P) (hPQ : ∀ a, P a → Q a) : Stores mem mem' Q :=
  fun a ha => hPQ a (h a ha)

theorem Stores.trans (h : Stores mem mem' P) (h' : Stores mem' mem'' P) : Stores mem mem'' P := by
  intro a ha
  by_cases hsame : mem' a = mem a
  · exact h' a (hsame ▸ ha)
  · exact h a hsame

end Stores

theorem allocatorAlloc_stores {size n ptr : ℕ} (hs : s.Blocks regions xs) (hcur : s.cursor ∈ xs)
    (hround : allocatorRoundUp size (if s.alignment ≠ 0 then s.alignment else 8) = n)
    (hwrap : n + 48 + s.alignment < 2 ^ 64) (hrun : allocatorAlloc s size = some (ptr, t)) :
    Stores s.mem t.mem
      fun a => ∃ x ∈ xs, (s.mem x).free = true ∧ x ≤ a ∧ a + 24 ≤ s.blockEnd x := by
  obtain ⟨c, hc, hcase⟩ := findBlock_spec hs hcur n
  unfold allocatorAlloc at hrun
  rw [hround] at hrun
  dsimp only at hrun
  rw [hc] at hrun
  dsimp only [Option.bind_eq_bind, Option.bind_some] at hrun
  by_cases hzero : c = 0
  · rw [if_pos hzero] at hrun
    cases hrun
    exact Stores.refl _ _
  obtain ⟨hcx, hfree, hsize⟩ := hcase.resolve_left hzero
  have hend := hs.end_le hcx
  rw [if_neg hzero] at hrun
  have hself : c ≤ c ∧ c + 24 ≤ s.blockEnd c := by
    unfold blockEnd
    omega
  have hsplit : Stores s.mem (splitBlock s c n).mem fun a => c ≤ a ∧ a + 24 ≤ s.blockEnd c := by
    have htotal : u64 (n + 24) = n + 24 := u64_of_lt (by omega)
    have hsum : u64 (n + 24 + (24 + s.alignment)) = n + 24 + (24 + s.alignment) :=
      u64_of_lt (by omega)
    unfold splitBlock
    dsimp only
    rw [htotal, hsum]
    split_ifs with hfit
    · have hrest : c ≤ u64 (c + (n + 24)) ∧ u64 (c + (n + 24)) + 24 ≤ s.blockEnd c := by
        unfold blockEnd at hend ⊢
        rw [u64_of_lt (by omega)]
        omega
      exact (stores_store s _ hrest).trans (stores_store _ _ hself)
    · exact Stores.refl _ _
  cases hrun
  exact (hsplit.trans (stores_store _ _ hself)).mono fun a ha => ⟨c, hcx, hfree, ha⟩

theorem forwardMerge_stores (s : Allocator) (h next : ℕ) :
    Stores s.mem (forwardMerge s h next).1.mem (· = h) ∧
      ((forwardMerge s h next).1.mem h).free = (s.mem h).free := by
  unfold forwardMerge
  split_ifs
  · refine ⟨stores_store s _ rfl, ?_⟩
    rw [store_mem_self]
  · exact ⟨Stores.refl _ _, rfl⟩

theorem backwardMerge_stores (s : Allocator) (prev h : ℕ) :
    Stores s.mem (backwardMerge s prev h).1.mem
      fun a => a = prev ∧ prev ≠ 0 ∧ (s.mem prev).free = true := by
  unfold backwardMerge
  split_ifs with hmerge
  · exact stores_store s _ ⟨rfl, hmerge.1, hmerge.2.1⟩
  · exact Stores.refl _ _

/-- Joining a free block with its neighbours writes its header and that of the free block before. -/
theorem allocatorCoalesceLocal_stores (hs : s.Blocks regions xs) (hx : x ∈ xs)
    (hrun : allocatorCoalesceLocal s x = some t) :
    Stores s.mem t.mem (fun a => a = x ∨ a ∈ xs ∧ a ≠ x ∧ (s.mem a).free = true) ∧
      (t.mem x).free = (s.mem x).free := by
  obtain ⟨l, r, rfl⟩ := List.append_of_mem hx
  obtain ⟨hprev, hcase, hxl⟩ := hs.findPrev_eq
  generalize l.getLast?.getD 0 = prev at hprev hcase
  unfold allocatorCoalesceLocal at hrun
  rw [hprev] at hrun
  dsimp only [Option.bind_eq_bind, Option.bind_some] at hrun
  obtain ⟨hforward, hfree⟩ := forwardMerge_stores s x (s.mem x).next
  generalize forwardMerge s x (s.mem x).next = s₁ at *
  have hbackward := backwardMerge_stores s₁.1 prev x
  generalize backwardMerge s₁.1 prev x = s₂ at *
  have hmem : t.mem = s₂.1.mem := by
    split_ifs at hrun <;> cases hrun <;> rfl
  have hprevx : prev ≠ 0 → prev ∈ l ++ x :: r ∧ prev ≠ x := fun hne =>
    have hpl := hcase.resolve_left hne
    ⟨List.mem_append_left _ hpl, fun hpx => hxl (hpx ▸ hpl)⟩
  have hback : Stores s₁.1.mem s₂.1.mem fun a => a ∈ l ++ x :: r ∧ a ≠ x ∧
      (s.mem a).free = true := by
    refine hbackward.mono fun a ⟨hap, hne, hpfree⟩ => ?_
    obtain ⟨hpmem, hpx⟩ := hprevx hne
    subst hap
    refine ⟨hpmem, hpx, ?_⟩
    by_contra hnot
    exact hpx (hforward a fun hsame => hnot (hsame ▸ hpfree))
  rw [hmem]
  refine ⟨(hforward.mono fun a ha => Or.inl ha).trans (hback.mono fun a ha => Or.inr ha), ?_⟩
  by_contra hne
  exact (hback x fun hsame => hne (by rw [hsame, hfree])).2.1 rfl

theorem allocatorFree_stores {n : ℕ} (hs : s.Blocks regions xs) (hx : x ∈ xs)
    (hused : (s.mem x).free = false) (hrun : allocatorFree s (x + 24) = some (n, t)) :
    Stores s.mem t.mem (fun a => a = x ∨ a ∈ xs ∧ (s.mem a).free = true) ∧
      (t.mem x).free = true := by
  have hend := hs.end_le hx
  have hheader : sub64 (x + 24) 24 = x := by
    unfold blockEnd at hend
    unfold sub64 u64
    omega
  unfold allocatorFree at hrun
  rw [if_neg (by omega)] at hrun
  dsimp only at hrun
  rw [hheader, if_neg (by rw [hused]; exact Bool.false_ne_true), Option.bind_eq_bind] at hrun
  obtain ⟨u, hu, htu⟩ := Option.bind_eq_some_iff.mp hrun
  obtain ⟨-, rfl⟩ := Prod.mk.inj (Option.some.inj htu)
  obtain ⟨hstores, hfree⟩ := allocatorCoalesceLocal_stores (hs.store_free x true) hx hu
  rw [store_mem_self] at hfree
  refine ⟨(stores_store s _ (Or.inl rfl)).trans (hstores.mono fun a ha => ?_), hfree⟩
  rcases ha with rfl | ⟨hmem, hne, hafree⟩
  · exact Or.inl rfl
  · rw [store_mem_of_ne _ _ hne] at hafree
    exact Or.inr ⟨hmem, hafree⟩

/-! ## Room -/

/-- A search of the whole list that finds nothing has seen only blocks that are in use or too
small. -/
theorem findSuitable_zero {mem : ℕ → Header} {size fuel : ℕ}
    (hlink : Linked 0 (fun b => (mem b).next) a xs 0)
    (hrun : allocatorFindSuitable mem size fuel a = some 0) :
    ∀ b ∈ xs, (mem b).free = true → (mem b).size < size := by
  induction fuel generalizing a xs with
  | zero => cases hrun
  | succ fuel ih =>
    unfold allocatorFindSuitable at hrun
    cases xs with
    | nil => simp
    | cons b xs =>
      obtain ⟨rfl, hne, hrest⟩ := hlink
      rw [if_neg hne] at hrun
      split_ifs at hrun with hfit
      · cases hrun
        exact absurd rfl hne
      · intro c hc hfree
        rcases List.mem_cons.mp hc with rfl | hc
        · exact not_le.mp fun hle => hfit ⟨hfree, hle⟩
        · exact ih hrest hrun c hc hfree

theorem allocatorAlloc_eq_zero_iff {size n ptr : ℕ} (hs : s.Blocks regions xs)
    (hcur : s.cursor ∈ xs)
    (hround : allocatorRoundUp size (if s.alignment ≠ 0 then s.alignment else 8) = n)
    (hrun : allocatorAlloc s size = some (ptr, t)) :
    ptr = 0 ↔ ∀ x ∈ xs, (s.mem x).free = true → (s.mem x).size < n := by
  obtain ⟨c, hc, hcase⟩ := findBlock_spec hs hcur n
  unfold allocatorAlloc at hrun
  rw [hround] at hrun
  dsimp only at hrun
  rw [hc] at hrun
  dsimp only [Option.bind_eq_bind, Option.bind_some] at hrun
  by_cases hzero : c = 0
  · rw [if_pos hzero] at hrun
    cases hrun
    refine iff_of_true rfl ?_
    subst hzero
    unfold findBlock at hc
    rw [if_pos (hs.pos hcur).ne'] at hc
    obtain ⟨d, hd, hnext⟩ := Option.bind_eq_some_iff.mp hc
    split_ifs at hnext with hwrap
    · exact findSuitable_zero hs.linked hnext
    · cases hnext
      have hhead : s.cursor = s.head := not_not.mp fun hne => hwrap ⟨rfl, hne⟩
      rw [hhead] at hd
      exact findSuitable_zero hs.linked hd
  · rw [if_neg hzero] at hrun
    cases hrun
    obtain ⟨hcx, hfree, hsize⟩ := hcase.resolve_left hzero
    exact iff_of_false (by omega) fun h => absurd (h c hcx hfree) (by omega)

/-! ## Bytes and headers over one another -/

theorem exists_of_overwritten {old new : ℕ → Header} {b : ℕ} (h : overwritten old new b = true) :
    ∃ a, new a ≠ old a ∧ a ≤ b ∧ b < a + 24 := by
  obtain ⟨k, hk, hbyte⟩ := List.any_eq_true.mp h
  rw [List.mem_range] at hk
  simp only [decide_eq_true_eq] at hbyte
  exact ⟨b - k, hbyte.2, by omega, by omega⟩

theorem Blocks.congr (hs : s.Blocks regions xs) (hhead : t.head = s.head)
    (hmem : ∀ x ∈ xs, t.mem x = s.mem x) : t.Blocks regions xs := by
  have hend : ∀ x ∈ xs, t.blockEnd x = s.blockEnd x := by
    intro x hx
    unfold blockEnd
    rw [hmem x hx]
  refine ⟨?_, ?_, fun x hx b hxb hb => ?_⟩
  · rw [hhead]
    refine hs.linked.congr fun x hx => ?_
    unfold next
    rw [hmem x hx]
  · refine hs.apart.imp_of_mem fun {x y} hx _ hxy => ?_
    rwa [hend x hx]
  · rw [hend x hx] at hb
    exact hs.inside x hx b hxb hb

theorem Blocks.overlay_mem (hs : s.Blocks regions xs) (hx : x ∈ xs) {n : ℕ}
    (hn : n ≤ (s.mem x).size) (header : ℕ → Header) :
    ∀ y ∈ xs, (s.overlay header (x + 24) n).mem y = s.mem y := by
  intro y hy
  have hclear : ¬ (x + 24 < y + 24 ∧ y < x + 24 + n) := by
    by_cases hxy : y = x
    · omega
    · have hside := hs.side_of_ne hy hx hxy
      unfold blockEnd at hside
      omega
  unfold overlay
  dsimp only
  rw [if_neg hclear]

theorem Blocks.keepsCursor_congr (hs : s.Blocks regions xs) (hx : x ∈ xs) (hcur : s.cursor ∈ xs)
    (hhead : t.head = s.head) (hcursor : t.cursor = s.cursor) (hmem : ∀ y ∈ xs, t.mem y = s.mem y) :
    (t.KeepsCursorForward x ↔ s.KeepsCursorForward x) ∧
      (t.KeepsCursorBackward x ↔ s.KeepsCursorBackward x) := by
  have hend : ∀ y ∈ xs, t.blockEnd y = s.blockEnd y := by
    intro y hy
    unfold blockEnd
    rw [hmem y hy]
  have ht := hs.congr hhead hmem
  obtain ⟨l, r, rfl⟩ := List.append_of_mem hx
  obtain ⟨hprev, hcase, -⟩ := hs.findPrev_eq
  have hprev' := ht.findPrev_eq.1
  constructor
  · unfold KeepsCursorForward
    rw [hcursor, hend x hx, hmem _ hcur]
  · unfold KeepsCursorBackward
    rw [hcursor, hprev, hprev']
    refine imp_congr_right fun _ => forall_congr' fun prev => imp_congr_right fun hp => ?_
    obtain rfl := Option.some.inj hp
    rcases hcase with hzero | hl
    · simp only [hzero, ne_eq, not_true_eq_false, false_and]
    · have hmeml := List.mem_append_left (x :: r) hl
      rw [hmem _ hmeml, hend _ hmeml]

end Allocator

namespace Session

variable {s t : Session} {xs : List ℕ} {p q : ℕ × ℕ} {a b n : ℕ}

/-! ## Blocks behind live pointers -/

theorem Inv.payload_clear (h : s.Inv xs) (hp : p ∈ s.live) {x : ℕ} (hx : x ∈ xs)
    (hne : x + 24 ≠ p.1) (hb : s.Payload p.1 b) : b < x ∨ s.heap.blockEnd x ≤ b := by
  obtain ⟨y, hy, hpy, -, -, husable⟩ := h.block hp
  unfold Payload at hb
  have hside := h.blocks.side_of_ne hx hy (by omega)
  unfold Allocator.blockEnd at hside ⊢
  omega

theorem Inv.ne_of_free (h : s.Inv xs) (hp : p ∈ s.live) {x : ℕ}
    (hfree : (s.heap.mem x).free = true) :
    x + 24 ≠ p.1 := by
  obtain ⟨y, -, hpy, hused, -⟩ := h.block hp
  intro hx
  obtain rfl : x = y := by omega
  rw [hused] at hfree
  cases hfree

theorem Inv.overlay (h : s.Inv xs) (hp : p ∈ s.live) (header : ℕ → Header) (hn : n ≤ p.2) :
    ({ s with heap := s.heap.overlay header p.1 n } : Session).Inv xs ∧
      ∀ y ∈ xs, (s.heap.overlay header p.1 n).mem y = s.heap.mem y := by
  obtain ⟨x, hx, hpx, -, hsize, -⟩ := h.block hp
  have hmem := h.blocks.overlay_mem hx (hn.trans hsize) header
  rw [← hpx] at hmem
  refine ⟨⟨h.blocks.congr rfl hmem, h.cursor, h.alignment, fun q hq => ?_, h.distinct⟩, hmem⟩
  obtain ⟨y, hy, hqy, hused, hysize⟩ := h.live q hq
  exact ⟨y, hy, hqy, by rwa [hmem y hy], by rwa [hmem y hy]⟩

end Session

namespace ByteHeap

open Allocator

variable {s u v : ByteHeap} {t : Session} {xs : List ℕ} {q : ℕ × ℕ} {b n p ptr : ℕ}

/-- The block at `ptr` has the size and the bytes it had. -/
def SameBlock (s u : ByteHeap) (ptr : ℕ) : Prop :=
  allocatorUsableSize u.heap.heap ptr = allocatorUsableSize s.heap.heap ptr ∧
    ∀ b, ptr ≤ b → b < ptr + allocatorUsableSize s.heap.heap ptr → u.bytes b = s.bytes b

theorem SameBlock.trans (h : s.SameBlock u ptr) (h' : u.SameBlock v ptr) : s.SameBlock v ptr := by
  refine ⟨h'.1.trans h.1, fun b hlow hhigh => ?_⟩
  rw [h'.2 b hlow (by rwa [h.1]), h.2 b hlow hhigh]

theorem settle_bytes {P : ℕ → Prop} (byte : ℕ → Byte) {k : KernelHeap}
    (hstores : Stores s.heap.heap.mem k.heap.mem P) (hclear : ∀ a, P a → b < a ∨ a + 24 ≤ b) :
    (s.settle byte k).bytes b = s.bytes b := by
  refine if_neg fun hover => ?_
  obtain ⟨a, hne, hab, hba⟩ := exists_of_overwritten hover
  have := hclear a (hstores a hne)
  omega

theorem settle_alloc (h : t.Inv xs) (hheap : s.heap.heap = t.heap) (hsafe : t.Safe (.alloc n))
    {k : KernelHeap} (hrun : allocatorAlloc t.heap n = some (p, k.heap)) (hq : q ∈ t.live)
    (byte : ℕ → Byte) : s.SameBlock (s.settle byte k) q.1 := by
  obtain ⟨y, hy, hqy, hused, -, husable⟩ := h.block hq
  have hyend := h.blocks.end_le hy
  unfold blockEnd at hyend
  constructor
  · obtain ⟨ptr, heap, hrun', hcase⟩ :=
      allocatorAlloc_spec h.blocks h.cursor rfl hsafe.2
    obtain ⟨rfl, rfl⟩ := Prod.mk.inj (Option.some.inj (hrun.symm.trans hrun'))
    change allocatorUsableSize k.heap q.1 = _
    rw [hheap]
    rcases hcase with ⟨-, hsame⟩ | ⟨x, ys, -, -, -, hre, -⟩
    · rw [hsame]
    · rw [husable, hqy, Session.usableSize_eq _ (by omega), (hre.kept y hy hused).2.2]
  · intro b hlow hhigh
    rw [hheap] at hhigh
    have hstores := allocatorAlloc_stores h.blocks h.cursor rfl hsafe.2 hrun
    rw [← hheap] at hstores
    refine settle_bytes byte hstores fun a hstored => ?_
    obtain ⟨x, hx, hfree, hxa, hend⟩ := hstored
    rw [hheap] at hfree hend
    have hclear := h.payload_clear hq hx (h.ne_of_free hq hfree) ⟨hlow, hhigh⟩
    omega

theorem memcpy_same (h : t.Inv xs) (hheap : s.heap.heap = t.heap) (hp : (p, n) ∈ t.live)
    (hq : q ∈ t.live) (hne : q.1 ≠ p) (header : ℕ → Header) (src : ℕ) :
    s.SameBlock (s.memcpy header p src n) q.1 := by
  obtain ⟨y, hy, hqy, -, -, husable⟩ := h.block hq
  obtain ⟨x, hx, hpx, -, hsize, -⟩ := h.block hp
  have hyend := h.blocks.end_le hy
  unfold blockEnd at hyend
  constructor
  · change allocatorUsableSize (s.heap.heap.overlay header p n) q.1 = _
    rw [hheap, husable, hqy,
      Session.usableSize_eq _ (by omega), (h.overlay hp header le_rfl).2 y hy]
  · intro b hlow hhigh
    rw [hheap] at hhigh
    refine if_neg fun hin => ?_
    have hclear := h.payload_clear hq hx (by omega) ⟨hlow, hhigh⟩
    unfold blockEnd at hclear
    dsimp only at hpx hsize
    omega

theorem settle_free (h : t.Inv xs) (hheap : s.heap.heap = t.heap) (hptr : t.Allowed (.free ptr))
    (hsafe : t.Safe (.free ptr)) {k : KernelHeap} {m : ℕ}
    (hrun : allocatorFree t.heap ptr = some (m, k.heap)) (hq : q ∈ t.live) (hne : q.1 ≠ ptr)
    (byte : ℕ → Byte) : s.SameBlock (s.settle byte k) q.1 ∧
    (k.heap.mem (ptr - 24)).free = true := by
  obtain ⟨y, hy, hqy, hused, -, husable⟩ := h.block hq
  obtain ⟨size, hlive⟩ := hptr
  obtain ⟨x, hx, hpx, hxused, -⟩ := h.block hlive
  dsimp only at hpx
  subst hpx
  have hyend := h.blocks.end_le hy
  unfold blockEnd at hyend
  have hyx : y ≠ x := by omega
  obtain ⟨hstores, hfreed⟩ := allocatorFree_stores h.blocks hx hxused hrun
  refine ⟨⟨?_, fun b hlow hhigh => ?_⟩, by rwa [Nat.add_sub_cancel]⟩
  · obtain ⟨hforward, hbackward⟩ := hsafe
    rw [Nat.add_sub_cancel] at hforward hbackward
    obtain ⟨m', heap, ys, hrun', hre, -⟩ :=
      allocatorFree_spec h.blocks h.cursor hx hxused hforward hbackward
    obtain ⟨-, rfl⟩ := Prod.mk.inj (Option.some.inj (hrun.symm.trans hrun'))
    have hkept := hre.kept y hy (by rwa [store_mem_of_ne _ _ hyx])
    rw [store_mem_of_ne _ _ hyx] at hkept
    change allocatorUsableSize k.heap q.1 = _
    rw [hheap, husable, hqy, Session.usableSize_eq _ (by omega), hkept.2.2]
  · rw [hheap] at hhigh
    rw [← hheap] at hstores
    refine settle_bytes byte hstores fun a hstored => ?_
    have hclear : a ∈ xs → a + 24 ≠ q.1 → b < a ∨ a + 24 ≤ b := by
      intro ha haq
      have hside := h.payload_clear hq ha haq ⟨hlow, hhigh⟩
      unfold blockEnd at hside
      omega
    rcases hstored with rfl | ⟨ha, hafree⟩
    · exact hclear hx (by omega)
    · rw [hheap] at hafree
      exact hclear ha (h.ne_of_free hq hafree)

/-! ## The law of `krealloc` -/

/-- A free block is large enough for `n` bytes. -/
def HasRoom (t : Session) (n : ℕ) : Prop :=
  ∃ xs, t.heap.Blocks t.regions xs ∧
    ∃ x ∈ xs, (t.heap.mem x).free = true ∧ allocatorRoundUp n t.unit ≤ (t.heap.mem x).size

/-- What `krealloc` of the live block at `ptr` to `n` bytes is to do when it returns `p`. -/
structure KreallocLaw (t : Session) (s : ByteHeap) (ptr n p : ℕ) (u : ByteHeap) : Prop where
  reads : ∃ rs, u.reads = rs ++ s.reads ∧
    ∀ r ∈ rs, ∀ a, r.1 ≤ a → a < r.1 + r.2 → t.Payload ptr a
  copied : p ≠ 0 → n ≤ allocatorUsableSize u.heap.heap p ∧
    ∀ i < min (allocatorUsableSize t.heap ptr) n, u.bytes (p + i) = s.bytes (ptr + i)
  freed : p ≠ 0 →
    (⟨u.heap.heap, t.regions, (p, n) :: t.live.filter (·.1 ≠ ptr)⟩ : Session).Integrity ∧
      (u.heap.heap.mem (ptr - 24)).free = true
  others : ∀ q ∈ t.live, q.1 ≠ ptr → s.SameBlock u q.1
  failed : p = 0 → u.heap.heap = t.heap ∧ u.bytes = s.bytes

/-- Both halves of the call are safe, and `kfree` takes the pointer. -/
structure ReallocSafe (t : Session) (s : ByteHeap) (ptr n : ℕ) : Prop where
  alloc : t.Safe (.alloc n)
  free : ∀ u, t.call (.alloc n) = some u → u.Safe (.free ptr)
  high : ¬ (s.heap.lowHeapStart ≤ ptr ∧ ptr < s.heap.lowHeapMax)

theorem kmalloc_of_alloc {k : KernelHeap} {heap : Allocator}
    (hrun : allocatorAlloc k.heap n = some (p, heap)) :
    ∃ k', k.kmalloc n = some (p, k') ∧ k'.heap = heap ∧ k'.lowHeapStart = k.lowHeapStart ∧
      k'.lowHeapMax = k.lowHeapMax := by
  unfold KernelHeap.kmalloc
  rw [hrun]
  exact ⟨_, rfl, rfl, rfl, rfl⟩

theorem kfree_of_free {k : KernelHeap} {heap : Allocator} {m : ℕ} (hptr : ptr ≠ 0)
    (hhigh : ¬ (k.lowHeapStart ≤ ptr ∧ ptr < k.lowHeapMax))
    (hrun : allocatorFree k.heap ptr = some (m, heap)) :
    ∃ k', k.kfree ptr = some k' ∧ k'.heap = heap := by
  unfold KernelHeap.kfree
  rw [if_neg hptr, if_neg hhigh, hrun]
  exact ⟨_, rfl, rfl⟩

/-- When `kmalloc` fails nothing else happens. -/
theorem krealloc_fails (hheap : s.heap.heap = t.heap)
    (hrun : allocatorAlloc t.heap n = some (0, t.heap)) (o : Overlap) :
    ∃ u, s.krealloc o ptr n = some (0, u) ∧ KreallocLaw t s ptr n 0 u := by
  obtain ⟨k, hk, hkheap, -⟩ := kmalloc_of_alloc (k := s.heap) (by rw [hheap]; exact hrun)
  have hbytes : ∀ b, (s.settle o.allocated k).bytes b = s.bytes b := by
    intro b
    refine settle_bytes (P := fun _ => False) _ (fun a ha => ha ?_) fun a ha => ha.elim
    rw [hkheap, hheap]
  refine ⟨s.settle o.allocated k, ?_, ?_⟩
  · simp only [krealloc, hk, Option.bind_eq_bind, Option.bind_some, or_true, if_true]
  exact {
    reads := ⟨[], rfl, by simp⟩
    copied := fun hne => absurd rfl hne
    freed := fun hne => absurd rfl hne
    others := fun q _ _ => ⟨congrArg (allocatorUsableSize · q.1) (hkheap.trans hheap.symm),
      fun b _ _ => hbytes b⟩
    failed := fun _ => ⟨hkheap, funext hbytes⟩ }

theorem krealloc_moves (h : t.Inv xs) (hheap : s.heap.heap = t.heap)
    (hlive : t.Allowed (.free ptr)) (hsafe : ReallocSafe t s ptr n) (o : Overlap) {heap : Allocator}
    (hrun : allocatorAlloc t.heap n = some (p, heap)) (hp : p ≠ 0) :
    ∃ u, s.krealloc o ptr n = some (p, u) ∧ u.reads = (ptr, n) :: s.reads ∧
      (n ≤ allocatorUsableSize t.heap ptr → KreallocLaw t s ptr n p u) := by
  obtain ⟨k, hk, hkheap, hklow, hkmax⟩ := kmalloc_of_alloc (k := s.heap) (by rw [hheap]; exact hrun)
  subst hkheap
  -- the block is allocated
  obtain ⟨t₁, ys, hcall, hinv₁⟩ := h.alloc hsafe.alloc
  have hfreeSafe := hsafe.free t₁ hcall
  simp only [Session.call, hrun, Option.bind_eq_bind, Option.bind_some, if_neg hp] at hcall
  obtain rfl := Option.some.inj hcall
  obtain ⟨m, hmem⟩ := hlive
  have hmem₁ : (ptr, m) ∈ (p, n) :: t.live := List.mem_cons_of_mem _ hmem
  have hne : ptr ≠ p := by
    intro hpp
    exact (List.pairwise_cons.mp hinv₁.distinct).1 _ hmem hpp.symm
  have hsame₁ : ∀ q ∈ t.live, s.SameBlock (s.settle o.allocated k) q.1 :=
    fun q hq => settle_alloc h hheap hsafe.alloc hrun hq o.allocated
  generalize hs₁ : s.settle o.allocated k = s₁ at hsame₁
  have hheap₁ : s₁.heap.heap = k.heap := hs₁ ▸ rfl
  -- its payload is written
  obtain ⟨hinv₂, hnodes⟩ := hinv₁.overlay (p := (p, n)) List.mem_cons_self o.header le_rfl
  have hsame₂ : ∀ q ∈ t.live, q.1 ≠ p → s₁.SameBlock (s₁.memcpy o.header p ptr n) q.1 :=
    fun q hq hqp => memcpy_same hinv₁ hheap₁ List.mem_cons_self (List.mem_cons_of_mem _ hq) hqp _ _
  generalize hs₂ : s₁.memcpy o.header p ptr n = s₂ at hsame₂
  have hheap₂ : s₂.heap.heap = k.heap.overlay o.header p n := by
    rw [← hs₂, ← hheap₁]
    rfl
  -- and the old block is freed
  obtain ⟨x, hx, hpx, -⟩ := hinv₁.block hmem₁
  have hkeeps := hinv₁.blocks.keepsCursor_congr (t := k.heap.overlay o.header p n) hx hinv₁.cursor
    rfl rfl hnodes
  have hsafe₂ : ({ t with heap := k.heap.overlay o.header p n, live := (p, n) :: t.live } :
      Session).Safe (.free ptr) := by
    have hx24 : ptr - 24 = x := by
      dsimp only at hpx
      omega
    obtain ⟨hforward, hbackward⟩ := hfreeSafe
    rw [hx24] at hforward hbackward
    refine ⟨?_, ?_⟩ <;> rw [hx24]
    · exact hkeeps.1.mpr hforward
    · exact hkeeps.2.mpr hbackward
  obtain ⟨t₃, zs, hcall₃, hinv₃⟩ := hinv₂.free ⟨m, hmem₁⟩ hsafe₂
  obtain ⟨⟨size, freed⟩, hfree, heq⟩ := Option.bind_eq_some_iff.mp hcall₃
  obtain rfl := Option.some.inj heq
  have hptr : ptr ≠ 0 := by
    dsimp only at hpx
    omega
  obtain ⟨k₃, hk₃, hk₃heap⟩ := kfree_of_free (k := s₂.heap) hptr
    (by rw [← hs₂, ← hs₁]; exact hklow ▸ hkmax ▸ hsafe.high) (by rw [hheap₂]; exact hfree)
  subst hk₃heap
  have hsame₃ : ∀ q ∈ (p, n) :: t.live, q.1 ≠ ptr →
      s₂.SameBlock (s₂.settle o.freed k₃) q.1 ∧ (k₃.heap.mem (ptr - 24)).free = true :=
    fun q hq hqne => settle_free hinv₂ hheap₂ ⟨m, hmem₁⟩ hsafe₂ hfree hq hqne o.freed
  refine ⟨s₂.settle o.freed k₃, ?_, ?_, fun hle => ?_⟩
  · simp only [krealloc, hk, Option.bind_eq_bind, Option.bind_some, hptr, hp, or_self, if_false,
      hs₁, hs₂, hk₃]
  · change s₂.reads = _
    rw [← hs₂, ← hs₁]
    rfl
  have hlast : ((p, n) :: t.live).filter (·.1 ≠ ptr) = (p, n) :: t.live.filter (·.1 ≠ ptr) :=
    List.filter_cons_of_pos (by simpa using hne.symm)
  have hintegrity := hinv₃.integrity
  simp only [hlast] at hintegrity
  obtain ⟨hsamep, hfreed⟩ := hsame₃ (p, n) List.mem_cons_self hne.symm
  have hlarge : n ≤ allocatorUsableSize k₃.heap p := hintegrity.large (p, n) List.mem_cons_self
  refine {
    reads := ⟨[(ptr, n)], ?_, fun r hr a hlow hhigh => ?_⟩
    copied := fun _ => ⟨hlarge, fun i hi => ?_⟩
    freed := fun _ => ⟨hintegrity, hfreed⟩
    others := fun q hq hqne => ?_
    failed := fun hzero => absurd hzero hp }
  · change s₂.reads = _
    rw [← hs₂, ← hs₁]
    rfl
  · obtain rfl := List.mem_singleton.mp hr
    exact ⟨hlow, hhigh.trans_le (Nat.add_le_add_left hle ptr)⟩
  · obtain ⟨y, hy, hpy, -, -, husable⟩ := h.block hmem
    have hend := h.blocks.end_le hy
    unfold blockEnd at hend
    dsimp only at hpy husable
    have hin : p ≤ p + i ∧ p + i < p + n := by omega
    calc (s₂.settle o.freed k₃).bytes (p + i)
      _ = s₂.bytes (p + i) := hsamep.2 _ hin.1 (hin.2.trans_le (by
        rw [← hsamep.1]
        exact Nat.add_le_add_left hlarge p))
      _ = s₁.bytes (u64 (ptr + (p + i - p))) := by
        rw [← hs₂]
        exact if_pos hin
      _ = s₁.bytes (ptr + i) := by rw [Nat.add_sub_cancel_left, u64_of_lt (by omega)]
      _ = s.bytes (ptr + i) :=
        (hsame₁ _ hmem).2 _ (Nat.le_add_right ptr i) (by rw [hheap]; dsimp only; omega)
  · have hqp : q.1 ≠ p := fun hqp => (List.pairwise_cons.mp hinv₁.distinct).1 q hq hqp.symm
    exact ((hsame₁ q hq).trans (hsame₂ q hq hqp)).trans
      (hsame₃ q (List.mem_cons_of_mem _ hq) hqne).1

/-- In every run the call obeys its law exactly when the block is not to grow over its usable size
or there is no room for it to move to. -/
theorem krealloc_law_iff (mem : ℕ → Header) (reg : Region) (alignment : ℕ) (hstart : reg.start ≠ 0)
    (hsize : 24 ≤ reg.size) (halign : alignment < 2 ^ 64)
    (hrun : (Session.init mem reg alignment).Run Session.Safe t) (hheap : s.heap.heap = t.heap)
    (hlive : t.Allowed (.free ptr)) (hsafe : ReallocSafe t s ptr n) (o : Overlap) :
    ∃ p u, s.krealloc o ptr n = some (p, u) ∧
      (KreallocLaw t s ptr n p u ↔ n ≤ allocatorUsableSize t.heap ptr ∨ ¬ HasRoom t n) := by
  obtain ⟨xs, h⟩ := (Session.init_inv mem hstart hsize halign).run hrun
  obtain ⟨p, heap, halloc, hcase⟩ := allocatorAlloc_spec h.blocks h.cursor rfl hsafe.alloc.2
  have hzero := allocatorAlloc_eq_zero_iff h.blocks h.cursor rfl halloc
  have hroom : HasRoom t n ↔ p ≠ 0 := by
    rw [Ne, hzero]
    push Not
    constructor
    · rintro ⟨ys, hys, x, hx, hfree, hfit⟩
      rw [hys.linked.unique h.blocks.linked] at hx
      exact ⟨x, hx, hfree, hfit⟩
    · rintro ⟨x, hx, hfree, hfit⟩
      exact ⟨xs, h.blocks, x, hx, hfree, hfit⟩
  by_cases hp : p = 0
  · have hsame : heap = t.heap := by
      rcases hcase with ⟨-, hsame⟩ | ⟨x, ys, hpx, -⟩
      · exact hsame
      · omega
    subst hp hsame
    obtain ⟨u, hu, hlaw⟩ := krealloc_fails hheap halloc o
    exact ⟨0, u, hu, iff_of_true hlaw (Or.inr fun hyes => hroom.mp hyes rfl)⟩
  · obtain ⟨u, hu, hreads, hlaw⟩ := krealloc_moves h hheap hlive hsafe o halloc hp
    refine ⟨p, u, hu, fun hall => Or.inl ?_, fun hor => ?_⟩
    · obtain ⟨rs, hrs, hin⟩ := hall.reads
      rw [hreads] at hrs
      have hsame : [(ptr, n)] ++ s.reads = rs ++ s.reads := hrs
      obtain rfl : [(ptr, n)] = rs := List.append_cancel_right hsame
      by_contra hlt
      have hover := hin (ptr, n) List.mem_cons_self (ptr + allocatorUsableSize t.heap ptr)
        (Nat.le_add_right _ _) (Nat.add_lt_add_left (not_le.mp hlt) ptr)
      exact lt_irrefl _ hover.2
    · exact hlaw (hor.resolve_right fun hnot => hnot (hroom.mpr hp))

def oneBlock : Session := Session.smallHeap.after (.alloc 8)

def oneBlockHeap : ByteHeap where
  heap :=
    { heap := oneBlock.heap
      lowHeapStart := 0x100000
      lowHeapMax := 0x100000 + lowHeapSize
      lowMemCur := 0x100000
      heaplen := 1000
      allocated := 8
      regions := [(4096, 1024)] }
  bytes _ := 0
  reads := []

def zeroOverlap : Overlap := ⟨fun _ => 0, fun _ => 0, fun _ => ⟨0, false, 0⟩⟩

theorem oneBlock_run : Session.smallHeap.Run Session.Safe oneBlock :=
  Session.Run.refl.after (show 8 < 2 ^ 64 by decide) ⟨by decide, by decide⟩ (by decide)

/-- Growing 8 bytes to 100 reads 92 bytes behind the block. -/
theorem oneBlock_overread : Session.smallHeap.Run Session.Safe oneBlock ∧
    oneBlock.Allowed (.free 4120) ∧ ∃ p u,
      oneBlockHeap.krealloc zeroOverlap 4120 100 = some (p, u) ∧
      ¬ KreallocLaw oneBlock oneBlockHeap 4120 100 p u := by
  refine ⟨oneBlock_run, ⟨8, by decide⟩, ?_⟩
  have hreads :
      (oneBlockHeap.krealloc zeroOverlap 4120 100).map (·.2.reads) = some [(4120, 100)] := by
    decide
  obtain ⟨⟨p, u⟩, hu, hu_reads⟩ := Option.map_eq_some_iff.mp hreads
  refine ⟨p, u, hu, fun hlaw => ?_⟩
  obtain ⟨rs, hrs, hin⟩ := hlaw.reads
  have husable : allocatorUsableSize oneBlock.heap 4120 = 8 := by decide
  obtain rfl : [(4120, 100)] = rs := by
    rw [← hu_reads, hrs]
    exact List.append_nil rs
  have hover := hin (4120, 100) List.mem_cons_self 4128 (by decide) (by decide)
  unfold Session.Payload at hover
  omega

theorem krealloc_law_iff_oneBlock : ∃ p u, oneBlockHeap.krealloc zeroOverlap 4120 4 = some (p, u) ∧
    (KreallocLaw oneBlock oneBlockHeap 4120 4 p u ↔
      4 ≤ allocatorUsableSize oneBlock.heap 4120 ∨ ¬ HasRoom oneBlock 4) := by
  refine krealloc_law_iff (fun _ => ⟨0, false, 0⟩) ⟨4096, 1024, by decide⟩ 8 (by decide) (by decide)
    (by decide) oneBlock_run rfl ⟨8, by decide⟩ ⟨⟨by decide, by decide⟩, fun u hu => ?_, by decide⟩
    zeroOverlap
  obtain rfl : oneBlock.after (.alloc 4) = u := by
    unfold Session.after
    rw [hu, Option.getD_some]
  have hcursor : (oneBlock.after (.alloc 4)).heap.cursor = 4160 := by decide
  have hend : (oneBlock.after (.alloc 4)).heap.blockEnd 4096 = 4128 := by decide
  refine ⟨fun hforward => ?_, fun hbackward => ?_⟩
  · exact absurd ((hcursor.symm.trans hforward.1).trans hend) (by decide)
  · exact absurd (hcursor.symm.trans hbackward) (by decide)

end ByteHeap

end RetroRocket
