import RetroRocket.OrderedMap

/-!
# The ordered map is a finite map

A finite map is the list of its entries in the order of their keys. The tree of the ordered map has
these entries in this order, and each slot of its vectors is either a node of the tree or in the
list of free slots, once.
-/

namespace RetroRocket

variable {κ ν : Type} {cmp : κ → κ → Ordering}

/-! ## Finite maps -/

namespace Entries

variable (cmp) (L : List (κ × ν)) (k : κ) (v : ν)

/-- The entry with a key that is equal to `k`. -/
def find : Option (κ × ν) := L.find? fun e => cmp k e.1 == .eq

/-- The first entry whose key is not less than `k`. -/
def lowerBound : Option (κ × ν) := L.find? fun e => cmp e.1 k != .lt

/-- The first entry whose key is greater than `k`. -/
def upperBound : Option (κ × ν) := L.find? fun e => cmp e.1 k == .gt

def add : List (κ × ν) :=
  L.filter (fun e => cmp k e.1 == .gt) ++ (k, v) :: L.filter fun e => cmp k e.1 == .lt

def assign : List (κ × ν) := L.map fun e => if cmp k e.1 = .eq then (e.1, v) else e

def erase : List (κ × ν) := L.filter fun e => cmp k e.1 != .eq

def exec : OrderedMap.Call κ ν → List (κ × ν) × ℕ
  | .insert k v => if (find cmp L k).isSome then (L, 0) else (add cmp L k v, 1)
  | .insertOrAssign k v =>
    if (find cmp L k).isSome then (assign cmp L k v, 0) else (add cmp L k v, 1)
  | .erase k => if (find cmp L k).isSome then (erase cmp L k, 1) else (L, 0)
  | .clear => ([], 0)

end Entries

namespace OrderedMap

open Links RbTree RbPath

variable {m m' : OrderedMap κ ν} {L : List (κ × ν)} {l : List ℕ} {k : κ} {v : ν}

/-- The map is a red-black tree with the nodes `l` in the order of their keys, and each slot is in
the tree or free, once. -/
structure Holds (cmp : κ → κ → Ordering) (m : OrderedMap κ ν) (l : List ℕ) : Prop where
  tree : m.links.IsTree l
  sorted : l.Pairwise fun i j => cmp (m.keys i) (m.keys j) = .lt
  slots : (l ++ m.freeIx).Perm (List.range m.size)
  count : m.count = l.length

theorem Holds.length_lt (h : m.Holds cmp l) : l.length < m.fuel := by
  have hlength := h.slots.length_eq
  rw [List.length_append, List.length_range] at hlength
  unfold OrderedMap.fuel
  omega

theorem find_entries (k : κ) :
    Entries.find cmp
      (l.map m.entry) k = (l.find? fun i => cmp k (m.keys i) == .eq).map m.entry := by
  unfold Entries.find
  rw [List.find?_map]
  rfl

variable [Std.TransCmp cmp]

theorem Holds.graded (h : m.Holds cmp l) (k : κ) : Graded (fun i => cmp k (m.keys i)) l :=
  Graded.of_sorted h.sorted k

/-! ## Queries -/

theorem findIndex_spec (h : m.Holds cmp l) (k : κ) :
    m.findIndex cmp k = some (l.find? fun i => cmp k (m.keys i) == .eq) := by
  obtain ⟨t, ht, -⟩ := h.tree.shape
  exact find_spec ht (h.graded k) h.length_lt

theorem find_spec' (h : m.Holds cmp l) (k : κ) :
    m.find cmp k = some ((Entries.find cmp (l.map m.entry) k).map (·.2)) := by
  unfold find
  rw [findIndex_spec h, find_entries, Option.map_map]
  rfl

theorem lowerBound_spec (h : m.Holds cmp l) (k : κ) :
    m.lowerBound cmp k = some (Entries.lowerBound cmp (l.map m.entry) k) := by
  obtain ⟨t, ht, -⟩ := h.tree.shape
  have hids : t.ids = l := ht.ids
  have hup : t.ids.Pairwise fun i j => (cmp (m.keys i) k != .lt) = true →
      (cmp (m.keys j) k != .lt) = true := by
    rw [hids]
    refine h.sorted.imp fun {i j} hlt hi => ?_
    rw [bne_iff_ne] at hi ⊢
    exact fun hj => hi (Std.TransCmp.lt_trans hlt hj)
  have hlength : t.ids.length < m.fuel := by
    rw [hids]
    exact h.length_lt
  unfold lowerBound Entries.lowerBound
  rw [ht.root, bound_spec ht.holds.2 hup hlength, Option.or_none, hids, List.find?_map]
  rfl

theorem upperBound_spec (h : m.Holds cmp l) (k : κ) :
    m.upperBound cmp k = some (Entries.upperBound cmp (l.map m.entry) k) := by
  obtain ⟨t, ht, -⟩ := h.tree.shape
  have hids : t.ids = l := ht.ids
  have hup : t.ids.Pairwise fun i j => (cmp (m.keys i) k == .gt) = true →
      (cmp (m.keys j) k == .gt) = true := by
    rw [hids]
    refine h.sorted.imp fun {i j} hlt hi => ?_
    rw [beq_iff_eq] at hi ⊢
    rw [Std.OrientedCmp.gt_iff_lt] at hi ⊢
    exact Std.TransCmp.lt_trans hi hlt
  have hlength : t.ids.length < m.fuel := by
    rw [hids]
    exact h.length_lt
  unfold upperBound Entries.upperBound
  rw [ht.root, bound_spec ht.holds.2 hup hlength, Option.or_none, hids, List.find?_map]
  rfl

/-! ## Insertions -/

theorem insertWith_of_some (h : m.Holds cmp l) {assign : ν → ν → ν} {i : ℕ} (hi : i ∈ l)
    (heq : cmp k (m.keys i) = .eq) :
    m.insertWith cmp assign k v =
      some ({ m with vals := Function.update m.vals i (assign (m.vals i) v) }, 0) := by
  obtain ⟨t, ht, -⟩ := h.tree.shape
  have hids : t.ids = l := ht.ids
  have hlength : t.ids.length < m.fuel := by
    rw [hids]
    exact h.length_lt
  unfold insertWith
  rw [ht.root]
  rcases descend_spec ht (h.graded k) (by simp [before]) (by simp [after]) hlength with
    ⟨j, p, c, a, b, hdescend, hj, hp⟩ | ⟨p, hdescend, hp, hbefore, hafter⟩
  · change descend _ m.fuel t.ptr none m.links = _ at hdescend
    rw [hdescend]
    have hjl : j ∈ l := by
      change plug p (make .left j c a b) = t at hp
      rw [← hids, ← hp, ids_plug_perm.mem_iff]
      exact List.mem_append_left _ (mem_ids_of_ptr rfl)
    obtain rfl := (h.graded k).unique hi hjl heq hj
    rfl
  · change plug p nil = t at hp
    have hil : i ∈ before p ++ after p := by
      have hmem : i ∈ t.ids := by rwa [hids]
      rw [← hp, ids_plug] at hmem
      exact hmem
    rcases List.mem_append.mp hil with hil | hil
    · have hgt := hbefore i hil
      rw [heq] at hgt
      cases hgt
    · have hlt := hafter i hil
      rw [heq] at hlt
      cases hlt

omit [Std.TransCmp cmp] in
theorem nodeNew_slots {l₁ l₂ : List ℕ} (h : m.Holds cmp (l₁ ++ l₂)) {z : ℕ} {q : Option ℕ}
    (hnew : m.nodeNew k v q = (z, m')) :
    z ∉ l₁ ++ l₂ ∧ (l₁ ++ z :: l₂ ++ m'.freeIx).Perm (List.range m'.size) ∧
      m'.keys = Function.update m.keys z k ∧ m'.vals = Function.update m.vals z v ∧
      m'.links = m.links.newNode z q ∧ m'.count = m.count ∧ m.size ≤ m'.size := by
  have hslots := h.slots
  unfold nodeNew at hnew
  cases hfree : m.freeIx with
  | nil =>
    rw [hfree] at hnew hslots
    cases hnew
    rw [List.append_nil] at hslots
    refine ⟨?_, ?_, rfl, rfl, rfl, rfl, Nat.le_succ _⟩
    · rw [hslots.mem_iff]
      exact List.not_mem_range_self
    · change (l₁ ++ m.size :: l₂ ++ []).Perm (List.range (m.size + 1))
      rw [List.append_nil, List.range_succ]
      exact List.perm_middle.trans ((hslots.cons _).trans (List.perm_append_singleton _ _).symm)
  | cons i rest =>
    rw [hfree] at hnew hslots
    cases hnew
    have hnodup := hslots.nodup_iff.mpr List.nodup_range
    refine ⟨?_, ?_, rfl, rfl, rfl, rfl, Nat.le_refl _⟩
    · intro hmem
      exact (List.nodup_append.mp hnodup).2.2 z hmem z List.mem_cons_self rfl
    · refine List.Perm.trans ?_ hslots
      change (l₁ ++ z :: l₂ ++ rest).Perm (l₁ ++ l₂ ++ z :: rest)
      rw [List.append_assoc, List.append_assoc, List.cons_append]
      exact List.perm_middle.trans (by
        rw [← List.append_assoc, ← List.append_assoc]
        exact List.perm_middle.symm)

omit [Std.TransCmp cmp] in
theorem attach_eq {p : RbPath ℕ} {z : ℕ} (hbefore : ∀ i ∈ before p, cmp k (m.keys i) = .gt)
    (hafter : ∀ i ∈ after p, cmp k (m.keys i) = .lt) :
    m.attach cmp k (above p) z = m.links.point (link p) (some z) := by
  cases p with
  | nil => rfl
  | cons f p =>
    change (if cmp k (m.keys f.id) = .lt then _ else _) = m.links.setChild f.side f.id (some z)
    rw [before] at hbefore
    rw [after] at hafter
    cases hside : f.side with
    | left =>
      rw [hside] at hafter
      exact if_pos (hafter f.id List.mem_cons_self)
    | right =>
      rw [hside] at hbefore
      apply if_neg
      rw [hbefore f.id (by simp)]
      decide

omit [Std.TransCmp cmp] in
/-- Where the keys in front are less and those behind are greater, a new entry belongs between
them. -/
theorem add_entries {l₁ l₂ : List ℕ} (hless : ∀ i ∈ l₁, cmp k (m.keys i) = .gt)
    (hgreater : ∀ i ∈ l₂, cmp k (m.keys i) = .lt) :
    Entries.add cmp ((l₁ ++ l₂).map m.entry) k v = l₁.map m.entry ++ (k, v) :: l₂.map m.entry := by
  unfold Entries.add
  have hgt : ((l₁ ++ l₂).map m.entry).filter (fun e => cmp k e.1 == .gt) = l₁.map m.entry := by
    rw [List.map_append, List.filter_append, List.filter_eq_self.mpr, List.filter_eq_nil_iff.mpr,
      List.append_nil]
    · intro e he
      obtain ⟨i, hi, rfl⟩ := List.mem_map.mp he
      change ¬ (cmp k (m.keys i) == .gt) = true
      rw [hgreater i hi]
      decide
    · intro e he
      obtain ⟨i, hi, rfl⟩ := List.mem_map.mp he
      exact beq_iff_eq.mpr (hless i hi)
  have hlt : ((l₁ ++ l₂).map m.entry).filter (fun e => cmp k e.1 == .lt) = l₂.map m.entry := by
    rw [List.map_append, List.filter_append, List.filter_eq_nil_iff.mpr, List.filter_eq_self.mpr,
      List.nil_append]
    · intro e he
      obtain ⟨i, hi, rfl⟩ := List.mem_map.mp he
      exact beq_iff_eq.mpr (hgreater i hi)
    · intro e he
      obtain ⟨i, hi, rfl⟩ := List.mem_map.mp he
      change ¬ (cmp k (m.keys i) == .lt) = true
      rw [hless i hi]
      decide
  rw [hgt, hlt]

theorem insertWith_of_none (h : m.Holds cmp l) (assign : ν → ν → ν) (v : ν)
    (hnone : ∀ i ∈ l, cmp k (m.keys i) ≠ .eq) :
    ∃ m' l', m.insertWith cmp assign k v = some (m', 1) ∧ m'.Holds cmp l' ∧
      l'.map m'.entry = Entries.add cmp (l.map m.entry) k v := by
  obtain ⟨hl, t, ht, hrb⟩ := h.tree
  have hids : t.ids = l := ht.ids
  have hlength : t.ids.length < m.fuel := by
    rw [hids]
    exact h.length_lt
  unfold insertWith
  rw [ht.root]
  rcases descend_spec ht (h.graded k) (by simp [before]) (by simp [after]) hlength with
    ⟨j, p, c, a, b, -, hj, hp⟩ | ⟨p, hdescend, hp, hbefore, hafter⟩
  · change plug p (make .left j c a b) = t at hp
    refine absurd hj (hnone j ?_)
    rw [← hids, ← hp, ids_plug_perm.mem_iff]
    exact List.mem_append_left _ (mem_ids_of_ptr rfl)
  · change descend _ m.fuel t.ptr none m.links = _ at hdescend
    change plug p nil = t at hp
    have hplace : m.links.Shape l p nil := shape_plug.mpr (hp ▸ ht)
    have hl' : l = before p ++ after p := by
      rw [← hplace.ids, ids_plug]
      rfl
    have habove : (link p).map (·.2) = above p := by cases p <;> rfl
    rw [hdescend, Option.bind_eq_bind, Option.bind_some]
    dsimp only
    rw [habove]
    rcases hnew : m.nodeNew k v (above p) with ⟨z, m₁⟩
    obtain ⟨hz, hslots, hkeys, hvals, hlinks, hcount, hsize⟩ := nodeNew_slots (hl' ▸ h) hnew
    rw [← hl'] at hz
    have hold : ∀ i ∈ l, m₁.keys i = m.keys i ∧ m₁.vals i = m.vals i := by
      intro i hi
      have hne : i ≠ z := fun heq => hz (heq ▸ hi)
      rw [hkeys, hvals]
      exact ⟨Function.update_of_ne hne _ _, Function.update_of_ne hne _ _⟩
    have hself : m₁.keys z = k ∧ m₁.vals z = v := by
      rw [hkeys, hvals]
      exact ⟨Function.update_self _ _ _, Function.update_self _ _ _⟩
    have hbefore' : ∀ i ∈ before p, cmp k (m₁.keys i) = .gt := by
      intro i hi
      rw [(hold i (hl' ▸ List.mem_append_left _ hi)).1]
      exact hbefore i hi
    have hafter' : ∀ i ∈ after p, cmp k (m₁.keys i) = .lt := by
      intro i hi
      rw [(hold i (hl' ▸ List.mem_append_right _ hi)).1]
      exact hafter i hi
    have hfuel : l.length < m₁.fuel := Nat.lt_of_lt_of_le h.length_lt (Nat.succ_le_succ hsize)
    have hgrand : ∀ {s : Links ℕ} {z p g}, s.parent z = some p → s.parent p = some g →
        (fun _ _ g => some g : Links ℕ → ℕ → ℕ → Option ℕ) s z g = some g := fun _ _ => rfl
    obtain ⟨s', hloop, -, htree⟩ := insert_spec hgrand hplace hl (hp ▸ hrb) hz hfuel
    have hfixup : insertFixup m₁.fuel z (m₁.links.point (link p) (some z)) =
        some (s'.paint s'.root false) := by
      unfold insertFixup
      rw [hlinks, hloop]
      rfl
    dsimp only
    rw [attach_eq hbefore' hafter', hfixup, Option.bind_eq_bind, Option.bind_some]
    refine ⟨_, before p ++ z :: after p, rfl, ⟨htree, ?_, hslots, ?_⟩, ?_⟩
    · change (before p ++ z :: after p).Pairwise fun i j => cmp (m₁.keys i) (m₁.keys j) = .lt
      have hsorted : l.Pairwise fun i j => cmp (m₁.keys i) (m₁.keys j) = .lt := by
        refine h.sorted.imp_of_mem fun {i j} hi hj hlt => ?_
        rwa [(hold i hi).1, (hold j hj).1]
      rw [hl', List.pairwise_append] at hsorted
      rw [List.pairwise_append, List.pairwise_cons, hself.1]
      refine ⟨hsorted.1, ⟨hafter', hsorted.2.1⟩, fun i hi j hj => ?_⟩
      rcases List.mem_cons.mp hj with rfl | hj
      · rw [hself.1]
        exact Std.OrientedCmp.gt_iff_lt.mp (hbefore' i hi)
      · exact hsorted.2.2 i hi j hj
    · change m₁.count + 1 = (before p ++ z :: after p).length
      rw [hcount, h.count, hl', List.length_append, List.length_append, List.length_cons]
      rfl
    · change (before p ++ z :: after p).map m₁.entry = _
      have hentry : ∀ i ∈ l, m₁.entry i = m.entry i := fun i hi =>
        Prod.ext (hold i hi).1 (hold i hi).2
      have hzentry : m₁.entry z = (k, v) := Prod.ext hself.1 hself.2
      rw [hl', add_entries hbefore hafter, List.map_append, List.map_cons, hzentry]
      congr 1
      · exact List.map_congr_left fun i hi => hentry i (hl' ▸ List.mem_append_left _ hi)
      · congr 1
        exact List.map_congr_left fun i hi => hentry i (hl' ▸ List.mem_append_right _ hi)

/-! ## Other calls -/

theorem assign_entries (h : m.Holds cmp l) {i : ℕ} (hi : i ∈ l) (heq : cmp k (m.keys i) = .eq)
    (v : ν) :
    l.map (entry { m with vals := Function.update m.vals i v }) =
      Entries.assign cmp (l.map m.entry) k v := by
  unfold Entries.assign
  rw [List.map_map]
  apply List.map_congr_left
  intro j hj
  change (m.keys j, Function.update m.vals i v j) =
    if cmp k (m.keys j) = .eq then (m.keys j, v) else m.entry j
  by_cases hji : j = i
  · rw [hji, if_pos heq, Function.update_self]
  · rw [Function.update_of_ne hji, if_neg fun heq' => hji ((h.graded k).unique hj hi heq' heq)]
    rfl

theorem erase_entries (h : m.Holds cmp l) {z : ℕ} (hz : z ∈ l) (heq : cmp k (m.keys z) = .eq) :
    (l.erase z).map m.entry = Entries.erase cmp (l.map m.entry) k := by
  unfold Entries.erase
  rw [h.tree.nodup.erase_eq_filter, List.filter_map]
  congr 1
  apply List.filter_congr
  intro i hi
  change (i != z) = (cmp k (m.keys i) != .eq)
  rw [Bool.eq_iff_iff, bne_iff_ne, bne_iff_ne]
  apply not_congr
  constructor
  · rintro rfl
    exact heq
  · exact fun heq' => (h.graded k).unique hi hz heq' heq

theorem erase_spec (h : m.Holds cmp l) {z : ℕ} (hz : z ∈ l) (heq : cmp k (m.keys z) = .eq)
    (hfind : m.findIndex cmp k = some (some z)) :
    ∃ m', m.erase cmp k = some (m', 1) ∧ m'.Holds cmp (l.erase z) ∧
      (l.erase z).map m'.entry = Entries.erase cmp (l.map m.entry) k := by
  obtain ⟨r, hunlink, hred, hblack⟩ := Links.remove_spec h.tree hz h.length_lt
  have hlinks : ∃ links, repaired m.fuel r = some links ∧ links.IsTree (l.erase z) := by
    unfold repaired
    cases hr : r.red with
    | true => exact ⟨r.links, rfl, hred hr⟩
    | false =>
      obtain ⟨x, s, hloop, htree⟩ := hblack hr
      refine ⟨s.paint x false, ?_, htree⟩
      rw [if_neg (by decide)]
      unfold eraseFixup
      rw [hloop]
      rfl
  obtain ⟨links, hlinks, htree⟩ := hlinks
  refine ⟨{ m with
      links := links.paint links.root false
      freeIx := z :: m.freeIx
      count := m.count - 1 }, ?_, ⟨htree.paint, ?_, ?_, ?_⟩, erase_entries h hz heq⟩
  · unfold erase
    rw [hfind, Option.bind_eq_bind, Option.bind_some]
    dsimp only
    rw [hunlink, Option.bind_eq_bind, Option.bind_some, hlinks]
    rfl
  · exact h.sorted.sublist List.erase_sublist
  · refine List.Perm.trans ?_ h.slots
    exact List.perm_middle.trans
      (((List.perm_cons_erase hz).append_right m.freeIx).symm)
  · change m.count - 1 = (l.erase z).length
    rw [List.length_erase_of_mem hz, h.count]

theorem exec_spec (h : m.Holds cmp l) (c : Call κ ν) :
    ∃ m' l', m.exec cmp c = some (m', (Entries.exec cmp (l.map m.entry) c).2) ∧ m'.Holds cmp l' ∧
      l'.map m'.entry = (Entries.exec cmp (l.map m.entry) c).1 := by
  have hcases : ∀ k, (∃ i ∈ l, cmp k (m.keys i) = .eq ∧ m.findIndex cmp k = some (some i) ∧
        (Entries.find cmp (l.map m.entry) k).isSome = true) ∨
      ((∀ i ∈ l, cmp k (m.keys i) ≠ .eq) ∧ m.findIndex cmp k = some none ∧
        (Entries.find cmp (l.map m.entry) k).isSome = false) := by
    intro k
    rw [findIndex_spec h, find_entries]
    cases hfind : l.find? fun i => cmp k (m.keys i) == .eq with
    | none => exact Or.inr ⟨fun i hi => by simpa using List.find?_eq_none.mp hfind i hi, rfl, rfl⟩
    | some i =>
      exact Or.inl ⟨i, List.mem_of_find?_eq_some hfind, by simpa using List.find?_some hfind, rfl,
        rfl⟩
  cases c with
  | insert k v =>
    unfold exec insert Entries.exec
    dsimp only
    rcases hcases k with ⟨i, hi, heq, -, hsome⟩ | ⟨hnone, -, hsome⟩
    · rw [hsome, if_pos rfl, insertWith_of_some h hi heq, Function.update_eq_self]
      exact ⟨m, l, rfl, h, rfl⟩
    · rw [hsome, if_neg (by decide)]
      exact insertWith_of_none h _ v hnone
  | insertOrAssign k v =>
    unfold exec insertOrAssign Entries.exec
    dsimp only
    rcases hcases k with ⟨i, hi, heq, -, hsome⟩ | ⟨hnone, -, hsome⟩
    · rw [hsome, if_pos rfl, insertWith_of_some h hi heq]
      exact ⟨_, l, rfl, ⟨h.tree, h.sorted, h.slots, h.count⟩, assign_entries h hi heq v⟩
    · rw [hsome, if_neg (by decide)]
      exact insertWith_of_none h _ v hnone
  | erase k =>
    unfold exec Entries.exec
    dsimp only
    rcases hcases k with ⟨i, hi, heq, hfind, hsome⟩ | ⟨hnone, hfind, hsome⟩
    · rw [hsome, if_pos rfl]
      obtain ⟨m', herase, hm', hentries⟩ := erase_spec h hi heq hfind
      exact ⟨m', l.erase i, herase, hm', hentries⟩
    · rw [hsome, if_neg (by decide)]
      refine ⟨m, l, ?_, h, rfl⟩
      unfold erase
      rw [hfind]
      rfl
  | clear =>
    exact ⟨m.clear, [], rfl, ⟨⟨List.nodup_nil, nil, ⟨⟨rfl, trivial⟩, rfl⟩, redBlack_nil⟩,
      List.Pairwise.nil, List.Perm.refl _, rfl⟩, rfl⟩

/-! ## Runs -/

def call (cmp : κ → κ → Ordering) (s : OrderedMap κ ν × List (κ × ν)) (c : Call κ ν) :
    Option (OrderedMap κ ν × List (κ × ν)) :=
  (s.1.exec cmp c).map fun r => (r.1, (Entries.exec cmp s.2 c).1)

omit [Std.TransCmp cmp] in
theorem holds_create (keys : ℕ → κ) (vals : ℕ → ν) : (create keys vals).Holds cmp [] where
  tree := ⟨List.nodup_nil, nil, ⟨⟨rfl, trivial⟩, rfl⟩, redBlack_nil⟩
  sorted := List.Pairwise.nil
  slots := List.Perm.refl _
  count := rfl

/-- After every run of calls, the map is a red-black tree with the entries that it is to have, in
the order of their keys, no slot is lost or in use twice, and every call and every query does and
returns what it has to. -/
theorem refines_of_run {keys : ℕ → κ} {vals : ℕ → ν}
    (hrun : Run (call cmp) (fun _ _ => True) (create keys vals, []) (m, L)) :
    (∃ l, m.Holds cmp l ∧ l.map m.entry = L) ∧ m.count = L.length ∧
    (L.Pairwise fun e e' => cmp e.1 e'.1 = .lt) ∧
    (∀ c, ∃ m', m.exec cmp c = some (m', (Entries.exec cmp L c).2)) ∧
    ∀ k, m.find cmp k = some ((Entries.find cmp L k).map (·.2)) ∧
      m.lowerBound cmp k = some (Entries.lowerBound cmp L k) ∧
      m.upperBound cmp k = some (Entries.upperBound cmp L k) := by
  have hholds : ∃ l, m.Holds cmp l ∧ l.map m.entry = L := by
    apply hrun.invariant (P := fun s => ∃ l, s.1.Holds cmp l ∧ l.map s.1.entry = s.2)
    · exact ⟨[], holds_create keys vals, rfl⟩
    · rintro ⟨m, L⟩ c ⟨l, hl, hentry⟩ -
      change l.map m.entry = L at hentry
      subst hentry
      obtain ⟨m', l', hexec, hl', hentries⟩ := exec_spec hl c
      refine ⟨(m', (Entries.exec cmp (l.map m.entry) c).1), ?_, l', hl', hentries⟩
      unfold call
      rw [hexec]
      rfl
  refine ⟨hholds, ?_⟩
  obtain ⟨l, hl, rfl⟩ := hholds
  refine ⟨hl.count.trans (List.length_map m.entry).symm, List.pairwise_map.mpr hl.sorted,
    fun c => ?_, fun k => ⟨find_spec' hl k, lowerBound_spec hl k, upperBound_spec hl k⟩⟩
  obtain ⟨m', -, hexec, -⟩ := exec_spec hl c
  exact ⟨m', hexec⟩

def emptyMap : OrderedMap ℕ ℕ × List (ℕ × ℕ) := (create (fun _ => 0) (fun _ => 0), [])

def bothInserted : OrderedMap ℕ ℕ × List (ℕ × ℕ) :=
  Run.next (call compare) (Run.next (call compare) emptyMap (.insert 7 1)) (.insert 3 2)

def erased : OrderedMap ℕ ℕ × List (ℕ × ℕ) := Run.next (call compare) bothInserted (.erase 7)

theorem erased_run : Run (call compare) (fun _ _ => True) emptyMap (erased.1, erased.2) := by
  have hfirst : Run (call compare) (fun _ _ => True) emptyMap
      (Run.next (call compare) emptyMap (.insert 7 1)) := Run.next_step .refl trivial (by decide)
  have hboth : Run (call compare) (fun _ _ => True) emptyMap bothInserted :=
    Run.next_step hfirst trivial (by decide)
  exact Run.next_step (t := bothInserted) (c := Call.erase 7) hboth trivial (by decide)

theorem refines_of_run_erased : erased.2 = [(3, 2)] ∧ erased.1.find compare 3 = some (some 2) ∧
    erased.1.find compare 7 = some none := by
  have hfind := fun k => ((refines_of_run erased_run).2.2.2.2 k).1
  exact ⟨by decide, hfind 3, hfind 7⟩

end OrderedMap

end RetroRocket
