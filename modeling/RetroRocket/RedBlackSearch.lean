import Mathlib.Data.List.Pairwise
import RetroRocket.RedBlackLinks

/-!
# Searching a red-black tree

A query compares with every node; along the nodes in order it is first greater, then equal to at
most one, then less. The way down from the root stops at the node with which it is equal, or at the
place without a subtree where such a node belongs.
-/

namespace RetroRocket

variable {ι κ : Type*}

/-- The query that compares with the nodes like `cmp` is first greater, then equal to at most one
node, then less. -/
def Graded (cmp : ι → Ordering) (l : List ι) : Prop :=
  l.Pairwise fun i j => cmp i ≠ .gt → cmp j = .lt

theorem Graded.unique {cmp : ι → Ordering} {l : List ι} (h : Graded cmp l) {i j : ι} (hi : i ∈ l)
    (hj : j ∈ l) (heq : cmp i = .eq) (heq' : cmp j = .eq) : i = j := by
  by_contra hne
  have hsymm : Std.Symm fun i j => ¬ (cmp i = .eq ∧ cmp j = .eq) := ⟨fun _ _ h h' => h h'.symm⟩
  have hpair : l.Pairwise fun i j => ¬ (cmp i = .eq ∧ cmp j = .eq) := by
    refine h.imp fun {i j} himp h => ?_
    have hlt := himp (by rw [h.1]; decide)
    rw [h.2] at hlt
    cases hlt
  exact hpair.forall hi hj hne ⟨heq, heq'⟩

theorem Graded.of_sorted {cmp : κ → κ → Ordering} [Std.TransCmp cmp] {key : ι → κ} {l : List ι}
    (h : l.Pairwise fun i j => cmp (key i) (key j) = .lt) (k : κ) :
    Graded (fun i => cmp k (key i)) l := by
  refine h.imp fun {i j} hlt hle => ?_
  exact Std.TransCmp.lt_of_isLE_of_lt (Ordering.isLE_iff_ne_gt.mpr hle) hlt

namespace Links

open RbTree RbPath

variable {s : Links ι} {cmp : ι → Ordering} {l : List ι} {p : RbPath ι} {t : RbTree ι}
  {fuel : ℕ} {v q best : Option ι} {i : ι}

def descend (cmp : ι → Ordering) :
    ℕ → Option ι → Option (Side × ι) → Links ι → Option (ι ⊕ Option (Side × ι))
  | 0, _, _, _ => none
  | _ + 1, none, l, _ => some (.inr l)
  | fuel + 1, some i, _, s =>
    match cmp i with
    | .lt => descend cmp fuel (s.child .left i) (some (.left, i)) s
    | .gt => descend cmp fuel (s.child .right i) (some (.right, i)) s
    | .eq => some (.inl i)

theorem descend_spec (h : s.Shape l p t) (hgraded : Graded cmp l)
    (hbefore : ∀ k ∈ before p, cmp k = .gt) (hafter : ∀ k ∈ after p, cmp k = .lt)
    (hfuel : t.ids.length < fuel) :
    (∃ i p' c a b, descend cmp fuel t.ptr (link p) s = some (.inl i) ∧ cmp i = .eq ∧
      plug p' (make .left i c a b) = plug p t) ∨
    ∃ p', descend cmp fuel t.ptr (link p) s = some (.inr (link p')) ∧ plug p' nil = plug p t ∧
      (∀ k ∈ before p', cmp k = .gt) ∧ ∀ k ∈ after p', cmp k = .lt := by
  induction t generalizing p fuel with
  | nil =>
    cases fuel with
    | zero => exact absurd hfuel (Nat.not_lt_zero _)
    | succ fuel => exact Or.inr ⟨p, rfl, rfl, hbefore, hafter⟩
  | node i c a b iha ihb =>
    cases fuel with
    | zero => exact absurd hfuel (Nat.not_lt_zero _)
    | succ fuel =>
      have hlength : (RbTree.node i c a b).ids.length = a.ids.length + b.ids.length + 1 := by
        change (a.ids ++ i :: b.ids).length = _
        rw [List.length_append, List.length_cons]
        omega
      have hgraded' : Graded cmp (a.ids ++ i :: b.ids) := by
        rw [← h.ids, ids_plug] at hgraded
        exact (List.pairwise_append.mp (List.pairwise_append.mp hgraded).2.1).1
      obtain ⟨-, hib, hai⟩ := List.pairwise_append.mp hgraded'
      obtain ⟨-, -, hleft, hright⟩ := h.holds.node
      unfold descend
      dsimp only [ptr]
      cases hi : cmp i with
      | lt =>
        rw [hleft]
        apply iha (p := ⟨.left, i, c, b⟩ :: p) (shape_near.mp h) hbefore
        · intro k hk
          rw [after] at hk
          rcases List.mem_cons.mp hk with rfl | hk
          · exact hi
          · rcases List.mem_append.mp hk with hk | hk
            · exact (List.pairwise_cons.mp hib).1 k hk (by simp [hi])
            · exact hafter k hk
        · omega
      | gt =>
        rw [hright]
        refine ihb (p := ⟨.right, i, c, a⟩ :: p) (shape_near (d := .right).mp h) ?_ hafter ?_
        · intro k hk
          rw [before] at hk
          rcases List.mem_append.mp hk with hk | hk
          · exact hbefore k hk
          · rcases List.mem_append.mp hk with hk | hk
            · by_contra hne
              have hlt := hai k hk i List.mem_cons_self hne
              rw [hi] at hlt
              cases hlt
            · rw [List.mem_singleton.mp hk]
              exact hi
        · omega
      | eq => exact Or.inl ⟨i, p, c, a, b, rfl, hi, rfl⟩

def find (cmp : ι → Ordering) (fuel : ℕ) (s : Links ι) : Option (Option ι) :=
  (descend cmp fuel s.root none s).map Sum.getLeft?

theorem find_spec (h : s.Shape l [] t) (hgraded : Graded cmp l) (hfuel : l.length < fuel) :
    find cmp fuel s = some (l.find? fun i => cmp i == .eq) := by
  have hids : t.ids = l := h.ids
  have hfuel' : t.ids.length < fuel := by rwa [hids]
  unfold find
  rw [h.root]
  rcases descend_spec h hgraded (by simp [before]) (by simp [after]) hfuel' with
    ⟨i, p, c, a, b, hdescend, hi, hp⟩ | ⟨p, hdescend, hp, hbefore, hafter⟩
  · have hl : l = (before p ++ a.ids) ++ i :: (b.ids ++ after p) := by
      change plug p (make .left i c a b) = t at hp
      rw [← hids, ← hp, ids_plug]
      change _ ++ ((a.ids ++ i :: b.ids) ++ _) = _
      rw [List.append_assoc, List.append_assoc, List.cons_append]
    change (descend cmp fuel t.ptr (link []) s).map _ = _
    rw [hdescend, Option.map_some, Sum.getLeft?_inl]
    congr 1
    symm
    rw [List.find?_eq_some_iff_append]
    refine ⟨by simp [hi], before p ++ a.ids, b.ids ++ after p, hl, ?_⟩
    intro k hk
    rw [hl] at hgraded
    have hlt := (List.pairwise_append.mp hgraded).2.2 k hk i List.mem_cons_self
    rw [hi] at hlt
    have hk' : cmp k = .gt := by
      by_contra hne
      cases hlt hne
    simp [hk']
  · have hl : l = before p ++ after p := by
      change plug p nil = t at hp
      rw [← hids, ← hp, ids_plug]
      rfl
    change (descend cmp fuel t.ptr (link []) s).map _ = _
    rw [hdescend, Option.map_some, Sum.getLeft?_inr]
    congr 1
    symm
    rw [List.find?_eq_none]
    intro k hk
    rw [hl] at hk
    rcases List.mem_append.mp hk with hk | hk
    · simp [hbefore k hk]
    · simp [hafter k hk]

/-- The first node that `p` accepts, where it accepts every node behind it too. -/
def bound (p : ι → Bool) : ℕ → Option ι → Option ι → Links ι → Option (Option ι)
  | 0, _, _, _ => none
  | _ + 1, none, best, _ => some best
  | fuel + 1, some i, best, s =>
    if p i then bound p fuel (s.child .left i) (some i) s
    else bound p fuel (s.child .right i) best s

theorem bound_spec {p : ι → Bool} (ht : s.Below q t) (hp : t.ids.Pairwise fun i j => p i → p j)
    (hfuel : t.ids.length < fuel) :
    bound p fuel t.ptr best s = some ((t.ids.find? p).or best) := by
  induction t generalizing q fuel best with
  | nil =>
    cases fuel with
    | zero => exact absurd hfuel (Nat.not_lt_zero _)
    | succ fuel => rfl
  | node i c a b iha ihb =>
    cases fuel with
    | zero => exact absurd hfuel (Nat.not_lt_zero _)
    | succ fuel =>
      obtain ⟨⟨-, -, hleft, hright⟩, ha, hb⟩ := ht
      change (a.ids ++ i :: b.ids).Pairwise _ at hp
      obtain ⟨hpa, hpb, hab⟩ := List.pairwise_append.mp hp
      have hlength : (a.ids ++ i :: b.ids).length < fuel + 1 := hfuel
      rw [List.length_append, List.length_cons] at hlength
      unfold bound
      dsimp only [ptr]
      change _ = some (((a.ids ++ i :: b.ids).find? p).or best)
      rw [List.find?_append, List.find?_cons]
      cases hi : p i with
      | true =>
        rw [if_pos rfl, hleft, iha ha hpa (by omega), Option.or_assoc]
        rfl
      | false =>
        rw [if_neg (by decide), hright, ihb hb (List.pairwise_cons.mp hpb).2 (by omega)]
        have hnone : a.ids.find? p = none := by
          rw [List.find?_eq_none]
          intro k hk hpk
          have hpi := hab k hk i List.mem_cons_self hpk
          rw [hi] at hpi
          cases hpi
        rw [hnone]
        rfl

end Links

end RetroRocket
