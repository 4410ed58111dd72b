import Mathlib.Data.List.Pairwise
import RetroRocket.Heap
import RetroRocket.LinkedList

/-!
# The block list of the kernel heap

`Blocks` says that the list from the head runs through `xs` in address order, that no block reaches
into the next one, and that all blocks lie in the registered regions. Each operation on the list
keeps it, and `Kept` the blocks in use.
-/

namespace RetroRocket

structure Region where
  start : ℕ
  size : ℕ
  end_le : start + size ≤ 2 ^ 64

instance : Membership ℕ Region := ⟨fun r a => r.start ≤ a ∧ a < r.start + r.size⟩

namespace Region

theorem lt_of_mem {r : Region} {a : ℕ} (h : a ∈ r) : a < 2 ^ 64 := h.2.trans_le r.end_le

def Disjoint (r r' : Region) : Prop := ∀ a, a ∈ r → ¬ a ∈ r'

end Region

namespace Allocator

def blockEnd (s : Allocator) (x : ℕ) : ℕ := x + 24 + (s.mem x).size

def next (s : Allocator) (x : ℕ) : ℕ := (s.mem x).next

structure Blocks (s : Allocator) (regions : List Region) (xs : List ℕ) : Prop where
  linked : Linked 0 s.next s.head xs 0
  apart : xs.Pairwise fun x y => s.blockEnd x ≤ y
  inside : ∀ x ∈ xs, ∀ a, x ≤ a → a < s.blockEnd x → ∃ r ∈ regions, a ∈ r

variable {s t u : Allocator} {regions : List Region} {xs ys zs l r : List ℕ} {x y h : ℕ}

theorem Blocks.end_le (hs : s.Blocks regions xs) (hx : x ∈ xs) : s.blockEnd x ≤ 2 ^ 64 := by
  obtain ⟨r, -, hr⟩ := hs.inside x hx (s.blockEnd x - 1)
    (by unfold blockEnd; omega) (by unfold blockEnd; omega)
  have := Region.lt_of_mem hr
  omega

theorem Blocks.pos (hs : s.Blocks regions xs) (hx : x ∈ xs) : 0 < x :=
  Nat.pos_of_ne_zero (hs.linked.ne_null hx)

theorem Blocks.nodup (hs : s.Blocks regions xs) : xs.Nodup := by
  refine hs.apart.imp fun {a b} hab => ?_
  unfold blockEnd at hab
  omega

theorem Blocks.side_of_ne (hs : s.Blocks regions xs) (hx : x ∈ xs) (hy : y ∈ xs) (hne : x ≠ y) :
    s.blockEnd x ≤ y ∨ s.blockEnd y ≤ x := by
  have hsymm : xs.Pairwise fun x y => s.blockEnd x ≤ y ∨ s.blockEnd y ≤ x :=
    hs.apart.imp fun h => Or.inl h
  have : Std.Symm fun x y => s.blockEnd x ≤ y ∨ s.blockEnd y ≤ x := ⟨fun _ _ h => h.symm⟩
  exact hsymm.forall hx hy hne

theorem Blocks.length_lt (hs : s.Blocks regions xs) : xs.length < 2 ^ 64 := by
  have hzero : 0 ∉ xs := fun h => absurd (hs.pos h) (lt_irrefl 0)
  refine length_lt_of_nodup hs.nodup hzero (fun x hx => ?_) (Nat.two_pow_pos 64)
  have := hs.end_le hx
  unfold blockEnd at this
  omega

def Kept (s : Allocator) (xs : List ℕ) (t : Allocator) (ys : List ℕ) : Prop :=
  ∀ x ∈ xs, (s.mem x).free = false →
    x ∈ ys ∧ (t.mem x).free = false ∧ (t.mem x).size = (s.mem x).size

theorem Kept.refl (s : Allocator) (xs : List ℕ) : s.Kept xs s xs := fun _ hx hf => ⟨hx, hf, rfl⟩

theorem Kept.trans (h : s.Kept xs t ys) (h' : t.Kept ys u zs) : s.Kept xs u zs := by
  intro x hx hf
  obtain ⟨hy, hft, hst⟩ := h x hx hf
  obtain ⟨hz, hfu, hsu⟩ := h' x hy hft
  exact ⟨hz, hfu, hsu.trans hst⟩

/-! ## Headers and the list -/

@[simp] theorem store_mem_self (s : Allocator) (a : ℕ) (hd : Header) : (s.store a hd).mem a = hd :=
  Function.update_self _ _ _

theorem store_mem_of_ne (s : Allocator) {a b : ℕ} (hd : Header) (hb : b ≠ a) :
    (s.store a hd).mem b = s.mem b := Function.update_of_ne hb _ _

@[simp] theorem store_head (s : Allocator) (a : ℕ) (hd : Header) :
    (s.store a hd).head = s.head := rfl

@[simp] theorem store_cursor (s : Allocator) (a : ℕ) (hd : Header) :
    (s.store a hd).cursor = s.cursor := rfl

theorem store_next (s : Allocator) (a : ℕ) (hd : Header) :
    (s.store a hd).next = Function.update s.next a hd.next := by
  funext b
  unfold next
  by_cases hb : b = a
  · rw [hb, store_mem_self, Function.update_self]
  · rw [store_mem_of_ne s hd hb, Function.update_of_ne hb]

theorem store_blockEnd_of_ne (s : Allocator) {a b : ℕ} (hd : Header) (hb : b ≠ a) :
    (s.store a hd).blockEnd b = s.blockEnd b := by
  unfold blockEnd
  rw [store_mem_of_ne s hd hb]

theorem Blocks.store_free (hs : s.Blocks regions xs) (x : ℕ) (free : Bool) :
    (s.store x { s.mem x with free := free }).Blocks regions xs := by
  have hend : ∀ b, (s.store x { s.mem x with free := free }).blockEnd b = s.blockEnd b := by
    intro b
    by_cases hb : b = x
    · unfold blockEnd
      rw [hb, store_mem_self]
    · exact s.store_blockEnd_of_ne _ hb
  have hnext : (s.store x { s.mem x with free := free }).next = s.next := by
    rw [store_next]
    exact Function.update_eq_self x s.next
  refine ⟨?_, ?_, ?_⟩
  · rw [hnext]
    exact hs.linked
  · simp only [hend]
    exact hs.apart
  · simp only [hend]
    exact hs.inside

theorem Blocks.next_eq (hs : s.Blocks regions (l ++ x :: r)) :
    (s.mem x).next = r.head?.getD 0 := hs.linked.next_eq

/-- Only blocks behind `x` in the list start at or behind its end. -/
theorem Blocks.end_le_of_mem (hs : s.Blocks regions (l ++ x :: r)) (hy : y ∈ r) :
    s.blockEnd x ≤ y :=
  List.rel_of_pairwise_cons (List.pairwise_append.mp hs.apart).2.1 hy

theorem Blocks.lt_of_mem (hs : s.Blocks regions (l ++ x :: r)) (hy : y ∈ l) :
    s.blockEnd y ≤ x :=
  (List.pairwise_append.mp hs.apart).2.2 y hy x List.mem_cons_self

/-! ## Merging -/

theorem Blocks.merge (hs : s.Blocks regions (l ++ x :: y :: r)) (hy : (s.mem y).free = true)
    (hx : (s.mem x).free = true) (hend : s.blockEnd x = y) :
    (s.store x { s.mem x with
        size := u64 ((s.mem x).size + (24 + (s.mem y).size)), next := (s.mem y).next }).Blocks
        regions (l ++ x :: r) ∧
      s.Kept (l ++ x :: y :: r) (s.store x { s.mem x with
        size := u64 ((s.mem x).size + (24 + (s.mem y).size)), next := (s.mem y).next })
        (l ++ x :: r) := by
  have hyend := hs.end_le (x := y) (by simp)
  have hnodup := hs.nodup
  have hxpos := hs.pos (x := x) (by simp)
  have hsum : u64 ((s.mem x).size + (24 + (s.mem y).size)) =
      (s.mem x).size + (24 + (s.mem y).size) := by
    apply u64_of_lt
    unfold blockEnd at hyend hend
    omega
  rw [hsum]
  generalize ht : s.store x { s.mem x with
    size := (s.mem x).size + (24 + (s.mem y).size), next := (s.mem y).next } = t
  have htx : t.blockEnd x = s.blockEnd y := by
    rw [← ht]
    unfold blockEnd at hend ⊢
    rw [store_mem_self]
    dsimp only
    omega
  have hto : ∀ b, b ≠ x → t.mem b = s.mem b := by
    intro b hb
    rw [← ht, store_mem_of_ne s _ hb]
  have htend : ∀ b, b ≠ x → t.blockEnd b = s.blockEnd b := by
    intro b hb
    unfold blockEnd
    rw [hto b hb]
  have hxl : ∀ b ∈ l, b ≠ x := by
    rintro b hb rfl
    have := hs.lt_of_mem hb
    unfold blockEnd at this
    omega
  have hxr : ∀ b ∈ y :: r, b ≠ x := by
    rintro b hb rfl
    have := hs.end_le_of_mem hb
    unfold blockEnd at this
    omega
  obtain ⟨hl, hcons, hcross⟩ := List.pairwise_append.mp hs.apart
  obtain ⟨hxall, hyr⟩ := List.pairwise_cons.mp hcons
  obtain ⟨hyall, hr⟩ := List.pairwise_cons.mp hyr
  refine ⟨⟨?_, ?_, ?_⟩, ?_⟩
  · have hlink := hs.linked.remove hnodup
    rw [← ht, store_next]
    exact hlink
  · rw [List.pairwise_append, List.pairwise_cons]
    refine ⟨hl.imp_of_mem fun ha _ hab => ?_, ⟨fun b hb => ?_, hr.imp_of_mem fun ha _ hab => ?_⟩,
      fun a ha b hb => ?_⟩
    · rwa [htend _ (hxl _ ha)]
    · rw [htx]
      exact hyall b hb
    · rwa [htend _ (hxr _ (List.mem_cons_of_mem y ha))]
    · rw [htend a (hxl a ha)]
      rcases List.mem_cons.mp hb with rfl | hb
      · exact hcross a ha b List.mem_cons_self
      · exact hcross a ha b (List.mem_cons_of_mem _ (List.mem_cons_of_mem _ hb))
  · intro b hb a hba ha
    by_cases hbx : b = x
    · subst hbx
      rw [htx] at ha
      by_cases hlow : a < y
      · exact hs.inside b (by simp) a hba (by omega)
      · exact hs.inside y (by simp) a (not_lt.mp hlow) ha
    · rw [htend b hbx] at ha
      refine hs.inside b ?_ a hba ha
      simp only [List.mem_append, List.mem_cons] at hb ⊢
      tauto
  · intro b hb hfree
    have hbx : b ≠ x := by
      rintro rfl
      rw [hx] at hfree
      cases hfree
    have hby : b ≠ y := by
      rintro rfl
      rw [hy] at hfree
      cases hfree
    rw [hto b hbx]
    refine ⟨?_, hfree, rfl⟩
    simp only [List.mem_append, List.mem_cons] at hb ⊢
    tauto

/-! ## Splitting -/

theorem Blocks.split (hs : s.Blocks regions (l ++ x :: r)) (hx : (s.mem x).free = true) (size : ℕ)
    (hsize : size + 24 ≤ (s.mem x).size) (hy : y = x + 24 + size) :
    ((s.store y ⟨(s.mem x).size - (size + 24), true, (s.mem x).next⟩).store x
        { s.mem x with size := size, next := y }).Blocks regions (l ++ x :: y :: r) ∧
      s.Kept (l ++ x :: r) ((s.store y ⟨(s.mem x).size - (size + 24), true, (s.mem x).next⟩).store x
        { s.mem x with size := size, next := y }) (l ++ x :: y :: r) := by
  have hnodup := hs.nodup
  have hxy : y ≠ x := by omega
  generalize ht : (s.store y ⟨(s.mem x).size - (size + 24), true, (s.mem x).next⟩).store x
    { s.mem x with size := size, next := y } = t
  have htx : t.blockEnd x = y := by
    rw [← ht]
    unfold blockEnd
    rw [store_mem_self]
    exact hy.symm
  have hty : t.blockEnd y = s.blockEnd x := by
    rw [← ht]
    unfold blockEnd
    rw [store_mem_of_ne _ _ hxy, store_mem_self]
    dsimp only
    omega
  have hyl : ∀ b ∈ l, b ≠ y := by
    rintro b hb rfl
    have := hs.lt_of_mem hb
    unfold blockEnd at this
    omega
  have hyr : ∀ b ∈ r, b ≠ y := by
    rintro b hb rfl
    have := hs.end_le_of_mem hb
    unfold blockEnd at this
    omega
  have hxl : ∀ b ∈ l, b ≠ x := by
    rintro b hb rfl
    have := hs.lt_of_mem hb
    unfold blockEnd at this
    omega
  have hxr : ∀ b ∈ r, b ≠ x := by
    rintro b hb rfl
    have := hs.end_le_of_mem hb
    unfold blockEnd at this
    omega
  have hto : ∀ b, b ≠ x → b ≠ y → t.mem b = s.mem b := by
    intro b hbx hby
    rw [← ht, store_mem_of_ne _ _ hbx, store_mem_of_ne _ _ hby]
  have htend : ∀ b, b ≠ x → b ≠ y → t.blockEnd b = s.blockEnd b := by
    intro b hbx hby
    unfold blockEnd
    rw [hto b hbx hby]
  have hxend : y + 24 ≤ s.blockEnd x := by
    unfold blockEnd
    omega
  obtain ⟨hl, hcons, hcross⟩ := List.pairwise_append.mp hs.apart
  obtain ⟨hxall, hr⟩ := List.pairwise_cons.mp hcons
  refine ⟨⟨?_, ?_, ?_⟩, ?_⟩
  · have hlink := hs.linked.insert hnodup (y := y) (fun hmem => ?_) (by omega)
    · rw [← ht, store_next, store_next]
      exact hlink
    · simp only [List.mem_append, List.mem_cons] at hmem
      rcases hmem with hmem | hmem | hmem
      · exact hyl y hmem rfl
      · exact hxy hmem
      · exact hyr y hmem rfl
  · rw [List.pairwise_append, List.pairwise_cons, List.pairwise_cons]
    refine ⟨hl.imp_of_mem fun ha _ hab => ?_, ⟨fun b hb => ?_, fun b hb => ?_,
      hr.imp_of_mem fun ha _ hab => ?_⟩, fun a ha b hb => ?_⟩
    · rwa [htend _ (hxl _ ha) (hyl _ ha)]
    · rw [htx]
      rcases List.mem_cons.mp hb with rfl | hb
      · exact le_rfl
      · exact (by omega : y ≤ s.blockEnd x).trans (hxall b hb)
    · rw [hty]
      exact hxall b hb
    · rwa [htend _ (hxr _ ha) (hyr _ ha)]
    · rw [htend a (hxl a ha) (hyl a ha)]
      rcases List.mem_cons.mp hb with rfl | hb
      · exact hcross a ha b List.mem_cons_self
      · rcases List.mem_cons.mp hb with rfl | hb
        · exact (hcross a ha x List.mem_cons_self).trans (by omega)
        · exact hcross a ha b (List.mem_cons_of_mem _ hb)
  · intro b hb a hba ha
    by_cases hbx : b = x
    · subst hbx
      rw [htx] at ha
      exact hs.inside b (by simp) a hba (by omega)
    · by_cases hby : b = y
      · subst hby
        rw [hty] at ha
        exact hs.inside x (by simp) a (by omega) ha
      · rw [htend b hbx hby] at ha
        refine hs.inside b ?_ a hba ha
        simp only [List.mem_append, List.mem_cons] at hb ⊢
        tauto
  · intro b hb hfree
    have hbx : b ≠ x := by
      rintro rfl
      rw [hx] at hfree
      cases hfree
    have hby : b ≠ y := by
      simp only [List.mem_append, List.mem_cons] at hb
      rcases hb with hb | hb | hb
      · exact hyl b hb
      · exact absurd hb hbx
      · exact hyr b hb
    rw [hto b hbx hby]
    refine ⟨?_, hfree, rfl⟩
    simp only [List.mem_append, List.mem_cons] at hb ⊢
    tauto

/-! ## Walks along the list -/

theorem findSuitable_spec (mem : ℕ → Header) (size fuel : ℕ) {a : ℕ}
    (hlink : Linked 0 (fun b => (mem b).next) a xs 0) (hfuel : xs.length < fuel) :
    ∃ c, allocatorFindSuitable mem size fuel a = some c ∧
      (c = 0 ∨ c ∈ xs ∧ (mem c).free = true ∧ size ≤ (mem c).size) := by
  induction fuel generalizing a xs with
  | zero => omega
  | succ fuel ih =>
    unfold allocatorFindSuitable
    cases xs with
    | nil =>
      rw [if_pos (linked_nil.mp hlink)]
      exact ⟨0, rfl, Or.inl rfl⟩
    | cons b xs =>
      obtain ⟨rfl, hne, hrest⟩ := hlink
      rw [if_neg hne]
      split
      · next hfit => exact ⟨a, rfl, Or.inr ⟨List.mem_cons_self, hfit⟩⟩
      · obtain ⟨c, hc, hcase⟩ := ih hrest (by simpa using hfuel)
        refine ⟨c, hc, hcase.imp_right fun hin => ⟨List.mem_cons_of_mem a hin.1, hin.2⟩⟩

theorem findPrevLoop_spec (mem : ℕ → Header) (fuel prev : ℕ) {a : ℕ}
    (hlink : Linked 0 (fun b => (mem b).next) a (l ++ h :: r) 0) (hl : h ∉ l)
    (hfuel : l.length < fuel) :
    findPrevLoop mem h fuel a prev = some (l.getLast?.getD prev) := by
  induction fuel generalizing a prev l with
  | zero => omega
  | succ fuel ih =>
    unfold findPrevLoop
    cases l with
    | nil =>
      rw [hlink.1, if_neg (fun hc => hc.2 rfl)]
      rfl
    | cons b l =>
      obtain ⟨rfl, hb, hrest⟩ := hlink
      rw [List.mem_cons, not_or] at hl
      rw [if_pos ⟨hb, fun hab => hl.1 hab.symm⟩, ih a hrest hl.2 (by simpa using hfuel),
        List.getLast?_cons, Option.getD_some]

theorem insertPosition_spec (mem : ℕ → Header) (fuel : ℕ) {a : ℕ}
    (hlink : Linked 0 (fun b => (mem b).next) a xs 0) (ha : a ≠ 0) (hah : a < h)
    (hfuel : xs.length < fuel) :
    ∃ l c r, xs = l ++ c :: r ∧ insertPosition mem h fuel a = some c ∧ c < h ∧
      (∀ b ∈ l, b < h) ∧ ∀ b, r.head? = some b → h ≤ b := by
  induction fuel generalizing a xs with
  | zero => omega
  | succ fuel ih =>
    unfold insertPosition
    cases xs with
    | nil => exact absurd hlink ha
    | cons b xs =>
      obtain ⟨rfl, -, hrest⟩ := hlink
      split
      · next hnext =>
        obtain ⟨l, c, r, rfl, hrun, hc, hl, hr⟩ := ih hrest hnext.1 hnext.2 (by simpa using hfuel)
        refine ⟨a :: l, c, r, rfl, hrun, hc, fun b hb => ?_, hr⟩
        rcases List.mem_cons.mp hb with rfl | hb
        · exact hah
        · exact hl b hb
      · next hnext =>
        refine ⟨[], a, xs, rfl, rfl, hah, fun b hb => absurd hb List.not_mem_nil, fun b hb => ?_⟩
        have hab : (mem a).next = b := hrest.head.trans (by rw [hb, Option.getD_some])
        have hb0 : b ≠ 0 := hrest.ne_null (List.mem_of_mem_head? hb)
        rw [hab, not_and, not_lt] at hnext
        exact hnext hb0

/-! ## A new region -/

theorem Blocks.side (hs : s.Blocks regions xs) {reg : Region}
    (hdisj : ∀ r ∈ regions, reg.Disjoint r) (hx : x ∈ xs) (hpos : 0 < reg.size) :
    x < reg.start ∧ s.blockEnd x ≤ reg.start ∨ reg.start < x ∧ reg.start + reg.size ≤ x := by
  have hlt : x < s.blockEnd x := by
    unfold blockEnd
    omega
  have hout : ∀ a, x ≤ a → a < s.blockEnd x → ¬ (reg.start ≤ a ∧ a < reg.start + reg.size) := by
    intro a hxa ha hmem
    obtain ⟨r, hr, har⟩ := hs.inside x hx a hxa ha
    exact hdisj r hr a hmem har
  have hx := hout x le_rfl hlt
  by_cases hlow : x < reg.start
  · have hstart := hout reg.start hlow.le
    omega
  · omega

theorem Blocks.add (hs : s.Blocks regions (l ++ r)) {reg : Region}
    (hdisj : ∀ r ∈ regions, reg.Disjoint r) (hsize : 24 < reg.size)
    (hl : ∀ b ∈ l, b < reg.start) (hr : ∀ b ∈ r, reg.start ≤ b)
    (hlink : Linked 0 t.next t.head (l ++ reg.start :: r) 0)
    (hmem : ∀ b, b ≠ reg.start → (t.mem b).size = (s.mem b).size)
    (hreg : (t.mem reg.start).size = reg.size - 24) :
    t.Blocks (reg :: regions) (l ++ reg.start :: r) := by
  have hside := fun b hb => hs.side hdisj (x := b) hb (by omega)
  have hregEnd : t.blockEnd reg.start = reg.start + reg.size := by
    unfold blockEnd
    omega
  have hend : ∀ b, b ≠ reg.start → t.blockEnd b = s.blockEnd b := by
    intro b hb
    unfold blockEnd
    rw [hmem b hb]
  have hbelow : ∀ b ∈ l, t.blockEnd b ≤ reg.start := by
    intro b hb
    have := hside b (List.mem_append_left r hb)
    have := hl b hb
    rw [hend b (by omega)]
    omega
  have habove : ∀ b ∈ r, reg.start < b ∧ reg.start + reg.size ≤ b := by
    intro b hb
    have := hside b (List.mem_append_right l hb)
    have := hr b hb
    omega
  obtain ⟨hll, hrr, hlr⟩ := List.pairwise_append.mp hs.apart
  refine ⟨hlink, ?_, fun b hb a hba ha => ?_⟩
  · rw [List.pairwise_append, List.pairwise_cons]
    refine ⟨hll.imp_of_mem fun ha _ hab => ?_, ⟨fun b hb => ?_, hrr.imp_of_mem fun ha _ hab => ?_⟩,
      fun a ha b hb => ?_⟩
    · rwa [hend _ (hl _ ha).ne]
    · rw [hregEnd]
      exact (habove b hb).2
    · rwa [hend _ (habove _ ha).1.ne']
    · rcases List.mem_cons.mp hb with rfl | hb
      · exact hbelow a ha
      · rw [hend a (hl a ha).ne]
        exact hlr a ha b hb
  · by_cases hbr : b = reg.start
    · subst hbr
      rw [hregEnd] at ha
      exact ⟨reg, List.mem_cons_self, hba, ha⟩
    · rw [hend b hbr] at ha
      have hb' : b ∈ l ++ r := by
        simp only [List.mem_append, List.mem_cons] at hb ⊢
        tauto
      obtain ⟨r', hr', har⟩ := hs.inside b hb' a hba ha
      exact ⟨r', List.mem_cons_of_mem _ hr', har⟩

structure Inserted (s t : Allocator) (reg : Region) : Prop where
  cursor : t.cursor = s.cursor
  alignment : t.alignment = s.alignment
  free : (t.mem reg.start).free = true
  size : (t.mem reg.start).size = reg.size - 24
  others : ∀ b, b ≠ reg.start →
    (t.mem b).size = (s.mem b).size ∧ (t.mem b).free = (s.mem b).free

theorem Inserted.kept {reg : Region} (h : s.Inserted t reg) (hnot : reg.start ∉ xs)
    (hsub : ∀ b ∈ xs, b ∈ ys) : s.Kept xs t ys := by
  intro b hb hfree
  have hne : b ≠ reg.start := by
    rintro rfl
    exact hnot hb
  exact ⟨hsub b hb, (h.others b hne).2.trans hfree, (h.others b hne).1⟩

theorem insertRegion_spec (hs : s.Blocks regions xs) {reg : Region}
    (hdisj : ∀ r ∈ regions, reg.Disjoint r) (hsize : 24 < reg.size) (hstart : reg.start ≠ 0) :
    ∃ t ys, allocatorInsertRegion (s.store reg.start ⟨reg.size - 24, true, 0⟩) reg.start = some t ∧
      t.Blocks (reg :: regions) ys ∧ (∀ b ∈ xs, b ∈ ys) ∧ reg.start ∈ ys ∧ reg.start ∉ xs ∧
      s.Inserted t reg := by
  have hside := fun b hb => hs.side hdisj (x := b) hb (by omega)
  have hnot : reg.start ∉ xs := by
    intro hmem
    have := hside _ hmem
    omega
  unfold allocatorInsertRegion
  split
  · next hfirst =>
    rw [store_head] at hfirst
    have hbelow : ∀ b ∈ xs, reg.start ≤ b := by
      intro b hb
      cases xs with
      | nil => cases hb
      | cons c xs =>
        obtain ⟨hhead, hc, -⟩ := hs.linked
        rcases hfirst with h0 | hlt
        · exact absurd (hhead.symm.trans h0) hc
        · rcases List.mem_cons.mp hb with rfl | hb
          · omega
          · have := hs.end_le_of_mem (l := []) hb
            unfold blockEnd at this
            omega
    refine ⟨_, reg.start :: xs, rfl, ?_, fun b hb => List.mem_cons_of_mem _ hb,
      List.mem_cons_self, hnot, ?_⟩
    · refine hs.add (l := []) hdisj hsize (fun b hb => absurd hb List.not_mem_nil) hbelow ?_
        (fun b hb => ?_) ?_
      · have hlink := hs.linked.push hnot hstart
        change Linked 0 ((s.store reg.start _).store reg.start _).next reg.start _ 0
        rw [store_next, store_next, Function.update_idem]
        exact hlink
      · change (((s.store reg.start _).store reg.start _).mem b).size = _
        rw [store_mem_of_ne _ _ hb, store_mem_of_ne _ _ hb]
      · change (((s.store reg.start _).store reg.start _).mem reg.start).size = _
        rw [store_mem_self, store_mem_self]
    · refine ⟨rfl, rfl, ?_, ?_, fun b hb => ?_⟩
      · change (((s.store reg.start _).store reg.start _).mem reg.start).free = _
        rw [store_mem_self, store_mem_self]
      · change (((s.store reg.start _).store reg.start _).mem reg.start).size = _
        rw [store_mem_self, store_mem_self]
      · change (((s.store reg.start _).store reg.start _).mem b).size = _ ∧
          (((s.store reg.start _).store reg.start _).mem b).free = _
        rw [store_mem_of_ne _ _ hb, store_mem_of_ne _ _ hb]
        exact ⟨rfl, rfl⟩
  · next hfirst =>
    rw [store_head, not_or, not_lt] at hfirst
    have hlink : Linked 0 (fun b => ((s.store reg.start ⟨reg.size - 24, true, 0⟩).mem b).next)
        s.head xs 0 := by
      refine hs.linked.congr fun b hb => ?_
      have hne : b ≠ reg.start := by
        rintro rfl
        exact hnot hb
      rw [store_mem_of_ne _ _ hne]
      rfl
    have hhead : s.head < reg.start := by
      refine lt_of_le_of_ne hfirst.2 fun h => hnot ?_
      cases xs with
      | nil => exact absurd hs.linked hfirst.1
      | cons c xs => exact h ▸ hs.linked.1 ▸ List.mem_cons_self
    obtain ⟨l, c, r, rfl, hrun, hc, hl, hr⟩ := insertPosition_spec _ (2 ^ 64) hlink hfirst.1 hhead
      hs.length_lt
    have hcne : c ≠ reg.start := hc.ne
    have hxs : l ++ c :: r = (l ++ [c]) ++ r := by simp
    have hys : l ++ c :: reg.start :: r = (l ++ [c]) ++ reg.start :: r := by simp
    have habove : ∀ b ∈ r, reg.start ≤ b := by
      intro b hb
      cases r with
      | nil => cases hb
      | cons d r =>
        have hd := hr d rfl
        rcases List.mem_cons.mp hb with rfl | hb
        · exact hd
        · rw [hxs] at hs
          have := hs.end_le_of_mem hb
          unfold blockEnd at this
          omega
    rw [store_head, hrun]
    refine ⟨_, l ++ c :: reg.start :: r, rfl, ?_, fun b hb => ?_, by simp, hnot, ?_⟩
    · rw [hys]
      rw [hxs] at hs
      refine hs.add hdisj hsize (fun b hb => ?_) habove ?_ (fun b hb => ?_) ?_
      · rcases List.mem_append.mp hb with hb | hb
        · exact hl b hb
        · rw [List.mem_singleton.mp hb]
          exact hc
      · rw [← hxs] at hs
        have hinsert := hs.linked.insert hs.nodup hnot hstart
        rw [← hys, store_next, store_next, store_next, Function.update_idem,
          store_mem_of_ne _ _ hcne]
        exact hinsert
      · by_cases hbc : b = c
        · rw [hbc, store_mem_self, store_mem_of_ne _ _ hcne, store_mem_of_ne _ _ hcne]
        · rw [store_mem_of_ne _ _ hbc, store_mem_of_ne _ _ hb, store_mem_of_ne _ _ hb]
      · rw [store_mem_of_ne _ _ hcne.symm, store_mem_self, store_mem_self]
    · simp only [List.mem_append, List.mem_cons] at hb ⊢
      tauto
    · refine ⟨rfl, rfl, ?_, ?_, fun b hb => ?_⟩
      · rw [store_mem_of_ne _ _ hcne.symm, store_mem_self, store_mem_self]
      · rw [store_mem_of_ne _ _ hcne.symm, store_mem_self, store_mem_self]
      · by_cases hbc : b = c
        · rw [hbc, store_mem_self, store_mem_of_ne _ _ hcne, store_mem_of_ne _ _ hcne]
          exact ⟨rfl, rfl⟩
        · rw [store_mem_of_ne _ _ hbc, store_mem_of_ne _ _ hb, store_mem_of_ne _ _ hb]
          exact ⟨rfl, rfl⟩

/-! ## Coalescing -/

theorem Blocks.findPrev_eq (hs : s.Blocks regions (l ++ x :: r)) :
    allocatorFindPrev s x = some (l.getLast?.getD 0) ∧
      (l.getLast?.getD 0 = 0 ∨ l.getLast?.getD 0 ∈ l) ∧
      x ∉ l := by
  have hx : x ∉ l := fun hl =>
    (List.nodup_append.mp hs.nodup).2.2 x hl x List.mem_cons_self rfl
  have hlen := hs.length_lt
  rw [List.length_append] at hlen
  refine ⟨findPrevLoop_spec s.mem (2 ^ 64) 0 hs.linked hx (by omega), ?_, hx⟩
  rcases List.eq_nil_or_concat l with rfl | ⟨l, p, rfl⟩
  · exact Or.inl rfl
  · exact Or.inr (by simp)

/-- The cursor is not on the block behind `h` that a forward merge would take in. -/
def KeepsCursorForward (s : Allocator) (h : ℕ) : Prop :=
  ¬ (s.cursor = s.blockEnd h ∧ (s.mem s.cursor).free = true)

/-- The cursor is not on `h` when a backward merge would take `h` in. -/
def KeepsCursorBackward (s : Allocator) (h : ℕ) : Prop :=
  s.cursor = h → ∀ prev, allocatorFindPrev s h = some prev →
    ¬ (prev ≠ 0 ∧ (s.mem prev).free = true ∧ s.blockEnd prev = h)

theorem u64_blockEnd_eq (hs : s.Blocks regions xs) (hx : x ∈ xs) (hy : y ∈ xs) :
    u64 (x + 24 + (s.mem x).size) = y ↔ s.blockEnd x = y := by
  have hend := hs.end_le hx
  have hyend := hs.end_le hy
  have hpos := hs.pos hy
  unfold blockEnd at hend hyend ⊢
  unfold u64
  omega

/-- The blocks `xs` have become `ys`, those in use unchanged. -/
structure Rearranged (s : Allocator) (regions : List Region) (xs : List ℕ) (t : Allocator)
    (ys : List ℕ) : Prop where
  blocks : t.Blocks regions ys
  kept : s.Kept xs t ys
  alignment : t.alignment = s.alignment

theorem forwardMerge_spec (hs : s.Blocks regions (l ++ h :: r)) (hfree : (s.mem h).free = true)
    (hcur : s.cursor ∈ l ++ h :: r) (hkeep : s.KeepsCursorForward h) :
    ∃ r', s.Rearranged regions (l ++ h :: r) (forwardMerge s h (s.mem h).next).1 (l ++ h :: r') ∧
      s.cursor ∈ l ++ h :: r' ∧
      (forwardMerge s h (s.mem h).next).1.cursor = s.cursor ∧
      ((forwardMerge s h (s.mem h).next).1.mem h).free = true ∧
      (∀ b, b ≠ h → (forwardMerge s h (s.mem h).next).1.mem b = s.mem b) := by
  unfold forwardMerge
  split
  · next hmerge =>
    obtain ⟨hne, hnfree, hend⟩ := hmerge
    rw [hs.next_eq] at hne hnfree hend ⊢
    cases r with
    | nil => exact absurd rfl hne
    | cons y r =>
      rw [List.head?_cons, Option.getD_some] at hne hnfree hend ⊢
      rw [u64_blockEnd_eq hs (by simp) (by simp)] at hend
      obtain ⟨hblocks, hkept⟩ := hs.merge hnfree hfree hend
      refine ⟨r, ⟨hblocks, hkept, rfl⟩, ?_, rfl, ?_, fun b hb => store_mem_of_ne _ _ hb⟩
      · have hcy : s.cursor ≠ y := fun hc => hkeep ⟨hc.trans hend.symm, hc ▸ hnfree⟩
        simp only [List.mem_append, List.mem_cons] at hcur ⊢
        tauto
      · rw [store_mem_self]
        exact hfree
  · exact ⟨r, ⟨hs, Kept.refl _ _, rfl⟩, hcur, rfl, hfree, fun b _ => rfl⟩

theorem backwardMerge_spec (hs : s.Blocks regions (l ++ h :: r)) (hfree : (s.mem h).free = true) :
    ∃ ys, s.Rearranged regions (l ++ h :: r) (backwardMerge s (l.getLast?.getD 0) h).1 ys ∧
      (backwardMerge s (l.getLast?.getD 0) h).2 ∈ ys ∧
      (backwardMerge s (l.getLast?.getD 0) h).1.cursor = s.cursor ∧
      ∀ b ∈ l ++ h :: r, b ∉ ys → b = h ∧ l.getLast?.getD 0 ≠ 0 ∧
        (s.mem (l.getLast?.getD 0)).free = true ∧ s.blockEnd (l.getLast?.getD 0) = h := by
  unfold backwardMerge
  split
  · next hmerge =>
    obtain ⟨hne, hpfree, hend⟩ := hmerge
    rcases List.eq_nil_or_concat l with rfl | ⟨l, p, rfl⟩
    · exact absurd rfl hne
    · rw [List.concat_eq_append] at hs hne hpfree hend ⊢
      rw [List.getLast?_concat, Option.getD_some] at hne hpfree hend ⊢
      rw [List.append_assoc, List.singleton_append] at hs ⊢
      rw [u64_blockEnd_eq hs (by simp) (by simp)] at hend
      obtain ⟨hblocks, hkept⟩ := hs.merge hfree hpfree hend
      refine ⟨l ++ p :: r, ⟨hblocks, hkept, rfl⟩, by simp, rfl, fun b hb hnot => ?_⟩
      refine ⟨?_, hne, hpfree, hend⟩
      simp only [List.mem_append, List.mem_cons] at hb hnot
      tauto
  · exact ⟨l ++ h :: r, ⟨hs, Kept.refl _ _, rfl⟩, by simp, rfl, fun b hb hnot => absurd hb hnot⟩

theorem coalesceLocal_spec (hs : s.Blocks regions xs) (hh : h ∈ xs) (hfree : (s.mem h).free = true)
    (hcur : s.cursor ∈ xs) (hforward : s.KeepsCursorForward h)
    (hbackward : s.KeepsCursorBackward h) :
    ∃ t ys, allocatorCoalesceLocal s h = some t ∧ s.Rearranged regions xs t ys ∧ t.cursor ∈ ys := by
  obtain ⟨l, r, rfl⟩ := List.append_of_mem hh
  obtain ⟨hprev, hpcase, hl⟩ := hs.findPrev_eq
  obtain ⟨r', hfwd, hcur₁, hcursor₁, hfree₁, hothers⟩ :=
    forwardMerge_spec hs hfree hcur hforward
  have hrun : allocatorCoalesceLocal s h =
      (fun s₁ => (fun s₂ => some (if s₂.1.cursor = 0 ∨ s₂.1.cursor = s₁.2
        then { s₂.1 with cursor := s₂.2 } else s₂.1)) (backwardMerge s₁.1 (l.getLast?.getD 0) h))
        (forwardMerge s h (s.mem h).next) := by
    unfold allocatorCoalesceLocal
    rw [hprev]
    rfl
  rw [hrun]
  generalize forwardMerge s h (s.mem h).next = s₁ at *
  dsimp only
  obtain ⟨ys, hbwd, hlast, hcursor₂, hgone⟩ := backwardMerge_spec hfwd.blocks hfree₁
  generalize backwardMerge s₁.1 (l.getLast?.getD 0) h = s₂ at *
  have hcurys : s.cursor ∈ ys := by
    by_contra hnot
    obtain ⟨hch, hpne, hpfree, hpend⟩ := hgone _ hcur₁ hnot
    have hpl := hpcase.resolve_left hpne
    have hph : l.getLast?.getD 0 ≠ h := fun hph => hl (hph ▸ hpl)
    refine hbackward hch _ hprev ⟨hpne, ?_, ?_⟩
    · rwa [hothers _ hph] at hpfree
    · unfold blockEnd at hpend ⊢
      rwa [hothers _ hph] at hpend
  have hcoal : s.Rearranged regions (l ++ h :: r) s₂.1 ys :=
    ⟨hbwd.blocks, hfwd.kept.trans hbwd.kept, hbwd.alignment.trans hfwd.alignment⟩
  split
  · refine ⟨_, ys, rfl, ⟨⟨?_, ?_, ?_⟩, hcoal.kept, hcoal.alignment⟩, hlast⟩
    · exact hcoal.blocks.linked
    · exact hcoal.blocks.apart
    · exact hcoal.blocks.inside
  · refine ⟨_, ys, rfl, hcoal, ?_⟩
    rw [hcursor₂, hcursor₁]
    exact hcurys

/-! ## The calls -/

theorem Blocks.head_mem (hs : s.Blocks regions xs) (hx : x ∈ xs) : s.head ∈ xs := by
  cases xs with
  | nil => cases hx
  | cons y xs => exact hs.linked.1 ▸ List.mem_cons_self

theorem findBlock_spec (hs : s.Blocks regions xs) (hcur : s.cursor ∈ xs) (size : ℕ) :
    ∃ c, findBlock s size = some c ∧
      (c = 0 ∨ c ∈ xs ∧ (s.mem c).free = true ∧ size ≤ (s.mem c).size) := by
  have hlen := hs.length_lt
  obtain ⟨l, r, hlr⟩ := List.append_of_mem hcur
  obtain ⟨b, -, hlink⟩ := linked_append.mp (hlr ▸ hs.linked)
  have hb : b = s.cursor := hlink.1
  rw [hb] at hlink
  have hrlen : (s.cursor :: r).length < 2 ^ 64 := by
    rw [hlr, List.length_append] at hlen
    omega
  obtain ⟨c, hc, hcase⟩ := findSuitable_spec s.mem size (2 ^ 64) hlink hrlen
  have hsub : ∀ d ∈ s.cursor :: r, d ∈ xs := by
    intro d hd
    rw [hlr]
    exact List.mem_append_right l hd
  unfold findBlock
  rw [if_pos (hs.pos hcur).ne']
  dsimp only
  rw [hc]
  dsimp only [Option.bind_eq_bind, Option.bind_some]
  split
  · obtain ⟨d, hd, hdcase⟩ := findSuitable_spec s.mem size (2 ^ 64) hs.linked hlen
    exact ⟨d, hd, hdcase⟩
  · exact ⟨c, rfl, hcase.imp_right fun h => ⟨hsub c h.1, h.2⟩⟩

theorem splitBlock_spec (hs : s.Blocks regions xs) (hx : x ∈ xs) (hfree : (s.mem x).free = true)
    {size : ℕ} (hsize : size ≤ (s.mem x).size) (hwrap : size + 48 + s.alignment < 2 ^ 64) :
    ∃ ys, s.Rearranged regions xs (splitBlock s x size) ys ∧ x ∈ ys ∧
      ((splitBlock s x size).mem x).free = true ∧ size ≤ ((splitBlock s x size).mem x).size := by
  have htotal : u64 (size + 24) = size + 24 := u64_of_lt (by omega)
  have hsum : u64 (size + 24 + (24 + s.alignment)) = size + 24 + (24 + s.alignment) :=
    u64_of_lt (by omega)
  unfold splitBlock
  dsimp only
  rw [htotal, hsum]
  split
  · next hfit =>
    have hend := hs.end_le hx
    unfold blockEnd at hend
    have hnext : u64 (x + (size + 24)) = x + 24 + size := by
      rw [u64_of_lt (by omega)]
      omega
    have hrest : sub64 (s.mem x).size (size + 24) = (s.mem x).size - (size + 24) :=
      sub64_of_le (by omega) (by omega)
    have hne : x ≠ x + 24 + size := by omega
    obtain ⟨l, r, rfl⟩ := List.append_of_mem hx
    obtain ⟨hblocks, hkept⟩ := hs.split hfree size (by omega) rfl
    rw [hnext, hrest, store_mem_of_ne s _ hne]
    refine ⟨_, ⟨hblocks, hkept, rfl⟩, by simp, ?_, ?_⟩
    · rw [store_mem_self]
      exact hfree
    · rw [store_mem_self]
  · exact ⟨xs, ⟨hs, Kept.refl s xs, rfl⟩, hx, hfree, hsize⟩

theorem allocatorAlloc_spec (hs : s.Blocks regions xs) (hcur : s.cursor ∈ xs) {size size' : ℕ}
    (hround : allocatorRoundUp size (if s.alignment ≠ 0 then s.alignment else 8) = size')
    (hwrap : size' + 48 + s.alignment < 2 ^ 64) :
    ∃ ptr t, allocatorAlloc s size = some (ptr, t) ∧
      (ptr = 0 ∧ t = s ∨ ∃ x ys, ptr = x + 24 ∧ x ∈ xs ∧ (s.mem x).free = true ∧
        s.Rearranged regions xs t ys ∧ t.cursor ∈ ys ∧ x ∈ ys ∧ (t.mem x).free = false ∧
        size' ≤ (t.mem x).size) := by
  obtain ⟨c, hc, hcase⟩ := findBlock_spec hs hcur size'
  unfold allocatorAlloc
  rw [hround]
  dsimp only
  rw [hc]
  dsimp only [Option.bind_eq_bind, Option.bind_some]
  split
  · exact ⟨0, s, rfl, Or.inl ⟨rfl, rfl⟩⟩
  · next hne =>
    obtain ⟨hcx, hfree, hsize⟩ := hcase.resolve_left hne
    obtain ⟨ys, hre, hcy, hfree', hsize'⟩ := splitBlock_spec hs hcx hfree hsize hwrap
    generalize splitBlock s c size' = t at *
    have hblocks := hre.blocks.store_free c false
    refine ⟨_, _, rfl, Or.inr ⟨c, ys, rfl, hcx, hfree, ⟨⟨?_, ?_, ?_⟩, ?_, hre.alignment⟩, ?_, hcy,
      ?_, ?_⟩⟩
    · exact hblocks.linked
    · exact hblocks.apart
    · exact hblocks.inside
    · refine hre.kept.trans fun b hb hbfree => ?_
      have hbc : b ≠ c := by
        rintro rfl
        rw [hfree'] at hbfree
        cases hbfree
      change b ∈ ys ∧ ((t.store c _).mem b).free = false ∧ ((t.store c _).mem b).size = _
      rw [store_mem_of_ne _ _ hbc]
      exact ⟨hb, hbfree, rfl⟩
    · obtain ⟨l, r, rfl⟩ := List.append_of_mem hcy
      have hnext := hblocks.next_eq
      dsimp only
      rw [hnext]
      cases r with
      | nil => exact hblocks.head_mem hcy
      | cons d r =>
        rw [List.head?_cons, Option.getD_some, if_pos (hblocks.pos (by simp)).ne']
        simp
    · change ((t.store c _).mem c).free = false
      rw [store_mem_self]
    · change size' ≤ ((t.store c _).mem c).size
      rw [store_mem_self]
      exact hsize'

theorem allocatorFree_spec (hs : s.Blocks regions xs) (hcur : s.cursor ∈ xs) (hx : x ∈ xs)
    (hused : (s.mem x).free = false) (hforward : s.KeepsCursorForward x)
    (hbackward : s.KeepsCursorBackward x) :
    ∃ n t ys, allocatorFree s (x + 24) = some (n, t) ∧
      (s.store x { s.mem x with free := true }).Rearranged regions xs t ys ∧ t.cursor ∈ ys := by
  have hend := hs.end_le hx
  have hheader : sub64 (x + 24) 24 = x := by
    unfold blockEnd at hend
    unfold sub64 u64
    omega
  have hblocks := hs.store_free x true
  have hothers : ∀ b, b ≠ x → (s.store x { s.mem x with free := true }).mem b = s.mem b :=
    fun b hb => store_mem_of_ne _ _ hb
  have hendx : (s.store x { s.mem x with free := true }).blockEnd x = s.blockEnd x := by
    unfold blockEnd
    rw [store_mem_self]
  have hforward' : (s.store x { s.mem x with free := true }).KeepsCursorForward x := by
    rintro ⟨hc, hcfree⟩
    rw [store_cursor, hendx] at hc
    have hcx : s.cursor ≠ x := by
      rw [hc]
      unfold blockEnd
      omega
    rw [store_cursor, hothers _ hcx] at hcfree
    exact hforward ⟨hc, hcfree⟩
  have hbackward' : (s.store x { s.mem x with free := true }).KeepsCursorBackward x := by
    obtain ⟨l, r, rfl⟩ := List.append_of_mem hx
    obtain ⟨hprev, hcase, hxl⟩ := hs.findPrev_eq
    rw [hblocks.findPrev_eq.1.symm] at hprev
    rintro hc prev hrun ⟨hne, hpfree, hpend⟩
    have hpx : prev ≠ x := by
      rintro rfl
      rw [hblocks.findPrev_eq.1] at hrun
      obtain rfl := Option.some.inj hrun
      rcases hcase with h0 | hmem
      · exact hne h0
      · exact hxl hmem
    rw [hothers prev hpx] at hpfree
    rw [store_blockEnd_of_ne _ _ hpx] at hpend
    exact hbackward hc prev (hprev.trans hrun) ⟨hne, hpfree, hpend⟩
  obtain ⟨t, ys, hrun, hre, hcur'⟩ := coalesceLocal_spec hblocks hx (by rw [store_mem_self]) hcur
    hforward' hbackward'
  refine ⟨(s.mem x).size, t, ys, ?_, hre, hcur'⟩
  unfold allocatorFree
  rw [if_neg (by omega)]
  dsimp only
  rw [hheader, if_neg (by rw [hused]; exact Bool.false_ne_true), hrun, store_mem_self]
  rfl

theorem allocatorAddRegion_spec (hs : s.Blocks regions xs) (hcur : s.cursor ∈ xs) {reg : Region}
    (hdisj : ∀ r ∈ regions, reg.Disjoint r)
    (hkeep : ¬ (s.cursor = reg.start + reg.size ∧ (s.mem s.cursor).free = true)) :
    ∃ ok t ys, allocatorAddRegion s reg.start reg.size = some (ok, t) ∧
      s.Rearranged (if ok then reg :: regions else regions) xs t ys ∧ t.cursor ∈ ys := by
  unfold allocatorAddRegion
  split
  · exact ⟨false, s, xs, rfl, ⟨hs, Kept.refl s xs, rfl⟩, hcur⟩
  · next hreg =>
    rw [not_or, not_le] at hreg
    have hsub : sub64 reg.size 24 = reg.size - 24 := by
      have := reg.end_le
      exact sub64_of_le hreg.2.le (by omega)
    obtain ⟨t, ys, hinsert, hblocks, hsubset, hmem, hnot, hins⟩ :=
      insertRegion_spec hs hdisj hreg.2 hreg.1
    have hcne : s.cursor ≠ reg.start := fun h => hnot (h ▸ hcur)
    have hforward : t.KeepsCursorForward reg.start := by
      rintro ⟨hc, hcfree⟩
      rw [hins.cursor] at hc hcfree
      rw [(hins.others _ hcne).2] at hcfree
      refine hkeep ⟨hc.trans ?_, hcfree⟩
      unfold blockEnd
      rw [hins.size]
      omega
    have hbackward : t.KeepsCursorBackward reg.start := by
      intro hc
      rw [hins.cursor] at hc
      exact absurd hc hcne
    obtain ⟨u, zs, hrun, hre, hcur'⟩ := coalesceLocal_spec hblocks hmem hins.free
      (hins.cursor ▸ hsubset _ hcur) hforward hbackward
    rw [hsub]
    dsimp only
    rw [hinsert]
    dsimp only [Option.bind_eq_bind, Option.bind_some]
    rw [hrun]
    dsimp only [Option.bind_some]
    rw [if_neg (hre.blocks.pos hcur').ne']
    exact ⟨true, u, zs, rfl, ⟨hre.blocks, (hins.kept hnot hsubset).trans hre.kept,
      hre.alignment.trans hins.alignment⟩, hcur'⟩

theorem Blocks.store_of_not_mem (hs : s.Blocks regions xs) {a : ℕ} (ha : a ∉ xs) (hd : Header) :
    s.Rearranged regions xs (s.store a hd) xs := by
  have hne : ∀ b ∈ xs, b ≠ a := by
    rintro b hb rfl
    exact ha hb
  have hend : ∀ b ∈ xs, (s.store a hd).blockEnd b = s.blockEnd b :=
    fun b hb => store_blockEnd_of_ne s hd (hne b hb)
  refine ⟨⟨?_, ?_, fun b hb c hbc hc => ?_⟩, fun b hb hfree => ?_, rfl⟩
  · rw [store_next]
    exact hs.linked.update_of_not_mem ha
  · refine hs.apart.imp_of_mem fun {b c} hb _ hbc => ?_
    rwa [hend b hb]
  · rw [hend b hb] at hc
    exact hs.inside b hb c hbc hc
  · rw [store_mem_of_ne _ _ (hne b hb)]
    exact ⟨hb, hfree, rfl⟩

end Allocator

end RetroRocket
