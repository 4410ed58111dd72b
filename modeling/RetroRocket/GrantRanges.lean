import Mathlib.Data.List.Pairwise
import RetroRocket.MemoryGrants

/-!
# The ranges that the grants hold

The tree of grants is a red-black tree in the order of its ranges, and holds what has been added and
not removed. The ranges are disjoint, so the search for an address meets the only one that may have
it.
-/

namespace RetroRocket

namespace MemoryGrants

open Links RbTree RbPath

variable {g g' : MemoryGrants} {l : List ℕ} {base length : ℕ} {fuel : ℕ} {s : Links ℕ}

def range (g : MemoryGrants) (i : ℕ) : ℕ × ℕ := (g.base i, g.last i)

/-- The grants are a red-black tree with the nodes `l` in the order of their ranges, and these are
the nodes that are allocated. -/
structure Holds (g : MemoryGrants) (l : List ℕ) : Prop where
  tree : g.links.IsTree l
  nodes : g.nodes.Perm l
  sorted : l.Pairwise fun i j => g.last i < g.base j
  valid : ∀ i ∈ l, 0 < g.base i ∧ g.base i ≤ g.last i

theorem Holds.base_lt (h : g.Holds l) : l.Pairwise fun i j => g.base i < g.base j :=
  h.sorted.imp_of_mem fun hi _ hlt => Nat.lt_of_le_of_lt (h.valid _ hi).2 hlt

theorem Holds.meet (h : g.Holds l) {i j addr : ℕ} (hi : i ∈ l) (hj : j ∈ l)
    (hmem : g.base i ≤ addr ∧ addr ≤ g.last i) (hmem' : g.base j ≤ addr ∧ addr ≤ g.last j) :
    i = j := by
  by_contra hne
  have hsymm : Std.Symm fun i j => g.last i < g.base j ∨ g.last j < g.base i :=
    ⟨fun _ _ h => h.symm⟩
  have hpair : l.Pairwise fun i j => g.last i < g.base j ∨ g.last j < g.base i :=
    h.sorted.imp Or.inl
  rcases hpair.forall hi hj hne with hlt | hlt <;> omega

theorem Holds.base_inj (h : g.Holds l) {i j : ℕ} (hi : i ∈ l) (hj : j ∈ l)
    (heq : g.base i = g.base j) : i = j := by
  have hvalid := h.valid i hi
  have hvalid' := h.valid j hj
  exact h.meet hi hj ⟨Nat.le_refl (g.base i), hvalid.2⟩ (by omega)

theorem Holds.length_lt (h : g.Holds l) : l.length < g.fuel := by
  unfold MemoryGrants.fuel
  rw [h.nodes.length_eq]
  exact Nat.lt_succ_self _

theorem Holds.graded (h : g.Holds l) (base : ℕ) : Graded (g.compareBase base) l := by
  have hsorted : l.Pairwise fun i j => compare (g.base i) (g.base j) = .lt :=
    h.base_lt.imp fun hlt => Nat.compare_eq_lt.mpr hlt
  exact Graded.of_sorted hsorted base

theorem grandparent_eq {z p k : ℕ} (hz : s.parent z = some p) (hp : s.parent p = some k) :
    grandparent s z k = some k := by
  unfold grandparent
  rw [hz]
  exact hp

/-! ## The loop that looks for null pointers -/

theorem deleteSibling_eq {d : Side} {q w w' : ℕ} {s' : Links ℕ}
    (h : eraseSibling d q w s = some (w', s')) :
    deleteSibling d q (some w) s = some (some w', s') := by
  unfold eraseSibling at h
  unfold deleteSibling
  change (if s.red w then _ else _) = _
  split at h
  · next hred =>
    obtain ⟨t, hrotate, h⟩ := Option.bind_eq_some_iff.mp h
    obtain ⟨k, hk, h⟩ := Option.bind_eq_some_iff.mp h
    cases h
    rw [if_pos hred, Option.bind_eq_bind, Option.bind_some, hrotate, Option.bind_eq_bind,
      Option.bind_some, hk]
  · next hred =>
    cases h
    rw [if_neg hred]

/-- Where the loop of the library has a result, no null pointer is met, and this one has the
same. -/
theorem deleteLoop_eq {x xParent : Option ℕ} {r : Option ℕ × Links ℕ}
    (h : eraseLoop fuel x xParent s = some r) : deleteLoop fuel x xParent s = some r := by
  induction fuel generalizing x xParent s with
  | zero => cases h
  | succ fuel ih =>
    unfold eraseLoop at h
    cases xParent with
    | none =>
      unfold deleteLoop
      split at h
      · exact h
      · cases h
    | some q =>
      unfold deleteLoop
      by_cases hend : x = s.root ∨ s.isRed x = true
      · rw [if_pos hend]
        rwa [if_pos hend.symm] at h
      · rw [if_neg hend]
        rw [if_neg fun h' => hend h'.symm] at h
        obtain ⟨q', hq, h⟩ := Option.bind_eq_some_iff.mp h
        cases hq
        obtain ⟨w, hw, h⟩ := Option.bind_eq_some_iff.mp h
        obtain ⟨⟨w', s'⟩, hsibling, h⟩ := Option.bind_eq_some_iff.mp h
        have hdelete := deleteSibling_eq hsibling
        rw [← hw] at hdelete
        dsimp only at h ⊢
        rw [hdelete, Option.bind_eq_bind, Option.bind_some]
        dsimp only
        split at h
        · next hfinish =>
          rw [if_pos hfinish]
          exact h
        · next hfinish =>
          rw [if_neg hfinish]
          exact ih h

/-! ## One call -/

theorem above_eq (p : RbPath ℕ) : (link p).map (·.2) = above p := by
  cases p <;> rfl

theorem add_spec (h : g.Holds l) {node : ℕ} (hnode : node ∉ g.nodes) (hbase : 0 < base)
    (hlength : 0 < length) (hend : base + length ≤ 2 ^ 64)
    (hdisjoint : ∀ i ∈ l, base + length ≤ g.base i ∨ g.last i < base) :
    ∃ g' l', g.add base length (some node) = some (g', true) ∧ g'.Holds l' ∧
      (l'.map g'.range).Perm ((base, base + length - 1) :: l.map g.range) := by
  have hnl : node ∉ l := fun hmem => hnode (h.nodes.mem_iff.mpr hmem)
  let g₁ : MemoryGrants := { g with
    base := Function.update g.base node base
    last := Function.update g.last node ((base + length - 1) % 2 ^ 64)
    nodes := node :: g.nodes }
  have hold : ∀ i ∈ l, g₁.base i = g.base i ∧ g₁.last i = g.last i := by
    intro i hi
    have hne : i ≠ node := fun heq => hnl (heq ▸ hi)
    exact ⟨Function.update_of_ne hne _ _, Function.update_of_ne hne _ _⟩
  have hnew : g₁.base node = base ∧ g₁.last node = base + length - 1 := by
    refine ⟨Function.update_self _ _ _, (Function.update_self _ _ _).trans ?_⟩
    exact Nat.mod_eq_of_lt (by omega)
  have hgraded : Graded (g₁.compareBase base) l := by
    refine (h.graded base).imp_of_mem fun {i j} hi hj himp => ?_
    unfold compareBase at himp ⊢
    rw [(hold i hi).1, (hold j hj).1]
    exact himp
  obtain ⟨hl, t, ht, hrb⟩ := h.tree
  have hids : t.ids = l := ht.ids
  have hfuel : l.length < g₁.fuel := Nat.lt_succ_of_lt h.length_lt
  unfold add
  rw [if_neg (by omega)]
  change ∃ g' l', ((descend (g₁.compareBase base) g₁.fuel g.links.root none g.links).bind _) = _ ∧ _
  rw [ht.root]
  rcases descend_spec ht hgraded (by simp [before]) (by simp [after]) (by rwa [hids]) with
    ⟨i, p, c, a, b, -, hi, hp⟩ | ⟨p, hdescend, hp, hbefore, hafter⟩
  · -- a range with the same base would not be disjoint
    have hil : i ∈ l := by
      change plug p (make .left i c a b) = t at hp
      rw [← hids, ← hp, ids_plug_perm.mem_iff]
      exact List.mem_append_left _ (mem_ids_of_ptr rfl)
    unfold compareBase at hi
    rw [(hold i hil).1, Nat.compare_eq_eq] at hi
    have hvalid := h.valid i hil
    rcases hdisjoint i hil with hlt | hlt <;> omega
  · change plug p nil = t at hp
    change descend (g₁.compareBase base) g₁.fuel t.ptr none g.links = _ at hdescend
    have hplace : g.links.Shape l p nil := shape_plug.mpr (hp ▸ ht)
    have hl' : l = before p ++ after p := by
      rw [← hplace.ids, ids_plug]
      rfl
    rw [hdescend, Option.bind_some]
    dsimp only
    rw [above_eq]
    obtain ⟨s', hloop, hroot, htree⟩ :=
      insert_spec grandparent_eq hplace hl (hp ▸ hrb) hnl hfuel
    obtain ⟨root, hroot⟩ := Option.ne_none_iff_exists'.mp hroot
    rw [hroot] at htree
    -- the new range lies between those in front of it and those behind it
    have hfront : ∀ k ∈ before p, g.last k < base := by
      intro k hk
      have hkl : k ∈ l := hl' ▸ List.mem_append_left _ hk
      have hgt := hbefore k hk
      unfold compareBase at hgt
      rw [(hold k hkl).1, Nat.compare_eq_gt] at hgt
      rcases hdisjoint k hkl with hlt | hlt <;> omega
    have hbehind : ∀ k ∈ after p, base + length ≤ g.base k := by
      intro k hk
      have hkl : k ∈ l := hl' ▸ List.mem_append_right _ hk
      have hlt := hafter k hk
      unfold compareBase at hlt
      rw [(hold k hkl).1, Nat.compare_eq_lt] at hlt
      have hvalid := h.valid k hkl
      rcases hdisjoint k hkl with hlt | hlt <;> omega
    have hperm : (before p ++ node :: after p).Perm (node :: l) := by
      rw [hl']
      exact List.perm_middle
    refine ⟨{ g₁ with links := s'.setRed root false }, before p ++ node :: after p, ?_,
      ⟨htree, (h.nodes.cons node).trans hperm.symm, ?_, ?_⟩, ?_⟩
    · have hfixup : insertFixup g₁.fuel node ((g.links.newNode node (above p)).point (link p)
          (some node)) = some (s'.setRed root false) := by
        unfold insertFixup
        rw [hloop, Option.bind_eq_bind, Option.bind_some, hroot]
        rfl
      rw [hfixup]
      rfl
    · change (before p ++ node :: after p).Pairwise fun i j => g₁.last i < g₁.base j
      have hsorted : l.Pairwise fun i j => g₁.last i < g₁.base j := by
        refine h.sorted.imp_of_mem fun {i j} hi hj hlt => ?_
        rwa [(hold i hi).2, (hold j hj).1]
      rw [hl', List.pairwise_append] at hsorted
      rw [List.pairwise_append, List.pairwise_cons, hnew.2]
      refine ⟨hsorted.1, ⟨fun k hk => ?_, hsorted.2.1⟩, fun i hi j hj => ?_⟩
      · rw [(hold k (hl' ▸ List.mem_append_right _ hk)).1]
        have hle := hbehind k hk
        omega
      · rcases List.mem_cons.mp hj with rfl | hj
        · rw [hnew.1, (hold i (hl' ▸ List.mem_append_left _ hi)).2]
          exact hfront i hi
        · exact hsorted.2.2 i hi j hj
    · intro i hi
      change 0 < g₁.base i ∧ g₁.base i ≤ g₁.last i
      rcases List.mem_cons.mp (hperm.mem_iff.mp hi) with rfl | hi
      · rw [hnew.1, hnew.2]
        omega
      · rw [(hold i hi).1, (hold i hi).2]
        exact h.valid i hi
    · have hmap : (node :: l).map g₁.range = (base, base + length - 1) :: l.map g.range := by
        rw [List.map_cons]
        congr 1
        · exact Prod.ext hnew.1 hnew.2
        · exact List.map_congr_left fun i hi => Prod.ext (hold i hi).1 (hold i hi).2
      rw [← hmap]
      exact hperm.map g₁.range

theorem remove_spec (h : g.Holds l) (base : ℕ) :
    ∃ g' b l', g.remove base = some (g', b) ∧ g'.Holds l' ∧
      l'.map g'.range = (l.map g.range).filter fun r => r.1 ≠ base := by
  unfold remove
  by_cases hzero : base = 0
  · rw [if_pos hzero]
    refine ⟨g, false, l, rfl, h, (List.filter_eq_self.mpr fun r hr => ?_).symm⟩
    obtain ⟨i, hi, rfl⟩ := List.mem_map.mp hr
    have hvalid := h.valid i hi
    have hne : g.base i ≠ base := by omega
    exact decide_eq_true hne
  · rw [if_neg hzero]
    obtain ⟨t, ht, -⟩ := h.tree.shape
    rw [find_spec ht (h.graded base) h.length_lt, Option.bind_eq_bind, Option.bind_some]
    cases hfind : l.find? fun i => g.compareBase base i == .eq with
    | none =>
      refine ⟨g, false, l, rfl, h, (List.filter_eq_self.mpr fun r hr => ?_).symm⟩
      obtain ⟨i, hi, rfl⟩ := List.mem_map.mp hr
      have hne := List.find?_eq_none.mp hfind i hi
      unfold compareBase at hne
      rw [beq_iff_eq, Nat.compare_eq_eq] at hne
      have hne' : g.base i ≠ base := fun heq => hne heq.symm
      exact decide_eq_true hne'
    | some z =>
      obtain ⟨hz, hzl⟩ : g.compareBase base z = .eq ∧ z ∈ l :=
        ⟨by simpa using List.find?_some hfind, List.mem_of_find?_eq_some hfind⟩
      unfold compareBase at hz
      rw [Nat.compare_eq_eq] at hz
      obtain ⟨r, hunlink, hred, hblack⟩ := Links.remove_spec h.tree hzl h.length_lt
      have hlinks : ∃ links, repaired g.fuel r = some links ∧ links.IsTree (l.erase z) := by
        unfold repaired
        cases hr : r.red with
        | true => exact ⟨r.links, rfl, hred hr⟩
        | false =>
          obtain ⟨x, s, hloop, htree⟩ := hblack hr
          refine ⟨s.paint x false, ?_, htree⟩
          rw [if_neg (by decide)]
          unfold deleteFixup
          rw [deleteLoop_eq hloop]
          rfl
      obtain ⟨links, hlinks, htree⟩ := hlinks
      refine ⟨{ g with links, nodes := g.nodes.erase z }, true, l.erase z, ?_,
        ⟨htree, h.nodes.erase z, ?_, ?_⟩, ?_⟩
      · change ((g.links.unlink g.fuel z).bind fun r => _) = _
        rw [hunlink, Option.bind_some]
        change ((repaired g.fuel r).bind fun links => _) = _
        rw [hlinks]
        rfl
      · exact h.sorted.sublist List.erase_sublist
      · exact fun i hi => h.valid i (List.mem_of_mem_erase hi)
      · change (l.erase z).map g.range = _
        rw [h.tree.nodup.erase_eq_filter, List.filter_map]
        congr 1
        apply List.filter_congr
        intro i hi
        have hbase : g.base i = base ↔ i = z := by
          constructor
          · exact fun heq => h.base_inj hi hzl (heq.trans hz)
          · rintro rfl
            exact hz.symm
        change (i != z) = decide (g.base i ≠ base)
        rw [Bool.eq_iff_iff, bne_iff_ne, decide_eq_true_eq]
        exact not_congr hbase.symm

/-! ## Queries -/

theorem contains_spec (h : g.Holds l) {addr : ℕ} (hlength : 0 < length)
    (hend : addr + length - 1 < 2 ^ 64) :
    ∃ b, g.contains addr length = some b ∧
      (b = true ↔ ∃ r ∈ l.map g.range, r.1 ≤ addr ∧ addr + length - 1 ≤ r.2) := by
  unfold contains
  by_cases hzero : addr = 0
  · rw [if_pos (Or.inl hzero)]
    refine ⟨false, rfl, ?_⟩
    constructor
    · exact fun h => Bool.noConfusion h
    · rintro ⟨r, hr, hle, -⟩
      obtain ⟨i, hi, rfl⟩ := List.mem_map.mp hr
      have hvalid := h.valid i hi
      unfold range at hle
      dsimp only at hle
      omega
  · rw [if_neg (by omega)]
    have hcmp :
      ∀ i, (if addr < g.base i then Ordering.lt else if g.last i < addr then .gt else .eq) ≠
        .gt → ¬ addr < g.base i → addr ≤ g.last i := by
      intro i hne hlt
      rw [if_neg hlt] at hne
      by_contra hgt
      exact hne (if_pos (by omega))
    have hgraded : Graded (fun i => if addr < g.base i then Ordering.lt
        else if g.last i < addr then .gt else .eq) l := by
      refine h.sorted.imp_of_mem fun {i j} hi _ hlt hne => if_pos ?_
      have hvalid := h.valid i hi
      by_cases hbase : addr < g.base i
      · omega
      · have hle := hcmp i hne hbase
        omega
    obtain ⟨t, ht, -⟩ := h.tree.shape
    rw [find_spec ht hgraded h.length_lt, Option.bind_eq_bind, Option.bind_some,
      Nat.mod_eq_of_lt hend]
    cases hfind : l.find? fun i => (if addr < g.base i then Ordering.lt
        else if g.last i < addr then .gt else .eq) == .eq with
    | none =>
      refine ⟨false, rfl, fun h => Bool.noConfusion h, ?_⟩
      rintro ⟨r, hr, hle, hle'⟩
      obtain ⟨i, hi, rfl⟩ := List.mem_map.mp hr
      unfold range at hle hle'
      dsimp only at hle hle'
      apply absurd (List.find?_eq_none.mp hfind i hi)
      rw [if_neg (by omega), if_neg (by omega)]
      decide
    | some i =>
      have hi := List.mem_of_find?_eq_some hfind
      have heq : g.base i ≤ addr ∧ addr ≤ g.last i := by
        have heq := List.find?_some hfind
        by_cases hlt : addr < g.base i
        · rw [if_pos hlt] at heq
          cases heq
        · rw [if_neg hlt] at heq
          by_cases hgt : g.last i < addr
          · rw [if_pos hgt] at heq
            cases heq
          · omega
      refine ⟨decide (addr + length - 1 ≤ g.last i), rfl, ?_⟩
      rw [decide_eq_true_eq]
      constructor
      · exact fun hle => ⟨g.range i, List.mem_map_of_mem hi, heq.1, hle⟩
      · rintro ⟨r, hr, hle, hle'⟩
        obtain ⟨j, hj, rfl⟩ := List.mem_map.mp hr
        unfold range at hle hle'
        dsimp only at hle hle'
        -- two ranges that have the address are the same
        rcases h.meet hi hj heq ⟨hle, by omega⟩ with rfl
        exact hle'

theorem validBase_spec (h : g.Holds l) (base : ℕ) :
    ∃ b, g.validBase base = some b ∧ (b = true ↔ ∃ r ∈ l.map g.range, r.1 = base) := by
  unfold validBase
  by_cases hzero : base = 0
  · rw [if_pos hzero]
    refine ⟨false, rfl, fun h => Bool.noConfusion h, ?_⟩
    rintro ⟨r, hr, heq⟩
    obtain ⟨i, hi, rfl⟩ := List.mem_map.mp hr
    have hvalid := (h.valid i hi).1
    change g.base i = base at heq
    omega
  · rw [if_neg hzero]
    obtain ⟨t, ht, -⟩ := h.tree.shape
    rw [find_spec ht (h.graded base) h.length_lt, Option.map_some]
    refine ⟨_, rfl, ?_⟩
    rw [List.find?_isSome]
    constructor
    · rintro ⟨i, hi, heq⟩
      unfold compareBase at heq
      rw [beq_iff_eq, Nat.compare_eq_eq] at heq
      exact ⟨g.range i, List.mem_map_of_mem hi, heq.symm⟩
    · rintro ⟨r, hr, heq⟩
      obtain ⟨i, hi, rfl⟩ := List.mem_map.mp hr
      refine ⟨i, hi, ?_⟩
      unfold compareBase
      rw [beq_iff_eq, Nat.compare_eq_eq]
      exact heq.symm

/-! ## Runs -/

def held (ranges : List (ℕ × ℕ)) : Call → List (ℕ × ℕ)
  | .add base length z =>
    if base = 0 ∨ length = 0 ∨ z = none then ranges else (base, base + length - 1) :: ranges
  | .remove base => ranges.filter fun r => r.1 ≠ base

def call (s : MemoryGrants × List (ℕ × ℕ)) (c : Call) : Option (MemoryGrants × List (ℕ × ℕ)) :=
  (s.1.exec c).map fun r => (r.1, held s.2 c)

/-- What is added is a range disjoint from those that are held, and the allocator does not hand out
a node that is in use. -/
def Allowed (s : MemoryGrants × List (ℕ × ℕ)) : Call → Prop
  | .add base length z => 0 < base → 0 < length →
      (base + length ≤ 2 ^ 64 ∧ ∀ r ∈ s.2, base + length ≤ r.1 ∨ r.2 < base) ∧
        ∀ n, z = some n → n ∉ s.1.nodes
  | .remove _ => True

theorem holds_init : init.Holds [] where
  tree := ⟨List.nodup_nil, nil, ⟨⟨rfl, trivial⟩, rfl⟩, redBlack_nil⟩
  nodes := List.Perm.refl _
  sorted := List.Pairwise.nil
  valid _ hi := by cases hi

theorem call_spec {ranges : List (ℕ × ℕ)} {c : Call} (h : g.Holds l)
    (hranges : (l.map g.range).Perm ranges) (hc : Allowed (g, ranges) c) :
    ∃ g' l', call (g, ranges) c = some (g', held ranges c) ∧ g'.Holds l' ∧
      (l'.map g'.range).Perm (held ranges c) := by
  cases c with
  | add base length z =>
    by_cases hnone : base = 0 ∨ length = 0 ∨ z = none
    · have hheld : held ranges (.add base length z) = ranges := if_pos hnone
      rw [hheld]
      refine ⟨g, l, ?_, h, hranges⟩
      have hadd : g.add base length z = some (g, false) := by
        unfold add
        rcases hnone with hbase | hlength | rfl
        · exact if_pos (Or.inl hbase)
        · exact if_pos (Or.inr hlength)
        · split <;> rfl
      change (g.add base length z).map (fun r => (r.1, held ranges (.add base length z))) = _
      rw [hadd, hheld]
      rfl
    · have hheld : held ranges (.add base length z) = (base, base + length - 1) :: ranges :=
        if_neg hnone
      rw [hheld]
      simp only [not_or] at hnone
      obtain ⟨hbase, hlength, hz⟩ := hnone
      obtain ⟨z, rfl⟩ := Option.ne_none_iff_exists'.mp hz
      obtain ⟨⟨hend, hdisjoint⟩, hfresh⟩ :=
        hc (Nat.pos_of_ne_zero hbase) (Nat.pos_of_ne_zero hlength)
      obtain ⟨g', l', hadd, hholds, hperm⟩ := add_spec h (hfresh z rfl)
        (Nat.pos_of_ne_zero hbase) (Nat.pos_of_ne_zero hlength) hend fun i hi =>
          hdisjoint _ (hranges.mem_iff.mp (List.mem_map_of_mem hi))
      refine ⟨g', l', ?_, hholds, hperm.trans (hranges.cons _)⟩
      change (g.add base length (some z)).map
        (fun r => (r.1, held ranges (.add base length (some z)))) = _
      rw [hadd, hheld]
      rfl
  | remove base =>
    obtain ⟨g', b, l', hremove, hholds, hmap⟩ := remove_spec h base
    refine ⟨g', l', ?_, hholds, ?_⟩
    · change (g.remove base).map (fun r => (r.1, held ranges (.remove base))) = _
      rw [hremove]
      rfl
    · rw [hmap]
      exact hranges.filter fun r => decide (r.1 ≠ base)

/-- After every run of additions of disjoint ranges and of removals, the grants are a red-black tree
in the order of the ranges, which are those added and not removed; an address range is found to be
granted if it lies within one of them, and a base if it is the base of one. -/
theorem grants_of_run {ranges : List (ℕ × ℕ)} (hrun : Run call Allowed (init, []) (g, ranges)) :
    (∃ l, g.Holds l ∧ (l.map g.range).Perm ranges) ∧
    (∀ c, Allowed (g, ranges) c → (call (g, ranges) c).isSome) ∧
    (∀ addr length, 0 < length → addr + length - 1 < 2 ^ 64 →
      ∃ b, g.contains addr length = some b ∧
        (b = true ↔ ∃ r ∈ ranges, r.1 ≤ addr ∧ addr + length - 1 ≤ r.2)) ∧
    ∀ base, ∃ b, g.validBase base = some b ∧ (b = true ↔ ∃ r ∈ ranges, r.1 = base) := by
  have hholds : ∃ l, g.Holds l ∧ (l.map g.range).Perm ranges := by
    apply hrun.invariant (P := fun s => ∃ l, s.1.Holds l ∧ (l.map s.1.range).Perm s.2)
    · exact ⟨[], holds_init, List.Perm.refl _⟩
    · rintro ⟨g, ranges⟩ c ⟨l, hl, hranges⟩ hc
      obtain ⟨g', l', hcall, hl', hranges'⟩ := call_spec hl hranges hc
      exact ⟨_, hcall, l', hl', hranges'⟩
  refine ⟨hholds, ?_⟩
  obtain ⟨l, hl, hranges⟩ := hholds
  refine ⟨fun c hc => ?_, fun addr length hlength hend => ?_, fun base => ?_⟩
  · obtain ⟨g', l', hcall, -⟩ := call_spec hl hranges hc
    rw [hcall]
    rfl
  · obtain ⟨b, hb, hiff⟩ := contains_spec hl hlength hend
    refine ⟨b, hb, hiff.trans (exists_congr fun r => ?_)⟩
    rw [hranges.mem_iff]
  · obtain ⟨b, hb, hiff⟩ := validBase_spec hl base
    refine ⟨b, hb, hiff.trans (exists_congr fun r => ?_)⟩
    rw [hranges.mem_iff]

def firstAdded : MemoryGrants × List (ℕ × ℕ) := Run.next call (init, []) (.add 4096 16 (some 1))

def bothAdded : MemoryGrants × List (ℕ × ℕ) := Run.next call firstAdded (.add 8192 8 (some 2))

def firstRemoved : MemoryGrants × List (ℕ × ℕ) := Run.next call bothAdded (.remove 4096)

/-- Two grants are added, and the first of them is removed. -/
theorem grants_of_run_firstRemoved : firstRemoved.2 = [(8192, 8199)] ∧
    ∃ l, firstRemoved.1.Holds l ∧ (l.map firstRemoved.1.range).Perm firstRemoved.2 := by
  have hfirst : Run call Allowed (init, []) firstAdded := by
    refine Run.next_step .refl (fun _ _ => ⟨⟨by decide, fun r hr => ?_⟩, fun n _ hn => ?_⟩)
      (by decide)
    · cases hr
    · cases hn
  have hboth : Run call Allowed (init, []) bothAdded := by
    refine Run.next_step hfirst (fun _ _ => ⟨by decide, fun n hn => ?_⟩) (by decide)
    obtain rfl := Option.some.inj hn
    decide
  have hremoved : Run call Allowed (init, []) firstRemoved :=
    Run.next_step hboth trivial (by decide)
  exact ⟨by decide, (grants_of_run hremoved).1⟩

end MemoryGrants

end RetroRocket
