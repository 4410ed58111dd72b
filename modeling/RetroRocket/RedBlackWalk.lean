import RetroRocket.RedBlackUpdate

/-!
# Walking through a red-black tree

The node next to a node is the nearest one of its subtree on that side, or the first one above it
that has it on the other side. The two directions are treated alike: on the way to a side, the nodes
are passed in the order that ends there.
-/

namespace RetroRocket

variable {ι : Type*}

def Side.order : Side → List ι → List ι
  | .left, l => l.reverse
  | .right, l => l

theorem Side.nodup_order {d : Side} {l : List ι} (h : l.Nodup) : (d.order l).Nodup := by
  cases d with
  | left => exact List.nodup_reverse.mpr h
  | right => exact h

theorem Side.mem_order {d : Side} {l : List ι} {i : ι} : i ∈ d.order l ↔ i ∈ l := by
  cases d with
  | left => exact List.mem_reverse
  | right => exact Iff.rfl

namespace RbTree

variable {d : Side} {i : ι} {c : Bool} {a b t : RbTree ι}

def walk (d : Side) (t : RbTree ι) : List ι := d.order t.ids

theorem walk_make (d : Side) (i : ι) (c : Bool) (a b : RbTree ι) :
    (make d.flip i c a b).walk d = a.walk d ++ i :: b.walk d := by
  cases d with
  | left =>
    change (b.ids ++ i :: a.ids).reverse = a.ids.reverse ++ i :: b.ids.reverse
    rw [List.reverse_append, List.reverse_cons, List.append_assoc, List.singleton_append]
  | right => rfl

theorem walk_nil (d : Side) : (nil : RbTree ι).walk d = [] := by cases d <;> rfl

theorem mem_walk : i ∈ t.walk d ↔ i ∈ t.ids := Side.mem_order

theorem length_ids_make : (make d i c a b).ids.length = a.ids.length + b.ids.length + 1 := by
  rw [ids_make_perm.length_eq, List.length_cons, List.length_append]

theorem induction_make (d : Side) {P : RbTree ι → Prop} (hnil : P nil)
    (hmake : ∀ i c a b, P a → P b → P (make d i c a b)) (t : RbTree ι) : P t := by
  induction t with
  | nil => exact hnil
  | node i c l r hl hr =>
    cases d with
    | left => exact hmake i c l r hl hr
    | right => exact hmake i c r l hr hl

end RbTree

namespace RbPath

open RbTree

variable {p : RbPath ι} {t : RbTree ι} {d : Side} {i : ι}

def ahead (d : Side) : RbPath ι → List ι
  | [] => []
  | f :: p => if f.side = d then ahead d p else f.id :: (f.sibling.walk d ++ ahead d p)

theorem ahead_right (p : RbPath ι) : ahead .right p = after p := by
  induction p with
  | nil => rfl
  | cons f p ih =>
    rw [ahead, after]
    cases f.side with
    | left => exact congrArg (fun l => f.id :: (f.sibling.ids ++ l)) ih
    | right => exact ih

theorem ahead_left (p : RbPath ι) : ahead .left p = (before p).reverse := by
  induction p with
  | nil => rfl
  | cons f p ih =>
    rw [ahead, before]
    cases f.side with
    | left => exact ih
    | right =>
      rw [if_neg (by decide), ih, List.reverse_append, List.reverse_append, List.reverse_singleton]
      rfl

theorem walk_plug (d : Side) (p : RbPath ι) (t : RbTree ι) :
    (plug p t).walk d = (ahead d.flip p).reverse ++ (t.walk d ++ ahead d p) := by
  cases d with
  | left =>
    change (plug p t).ids.reverse = (ahead .right p).reverse ++ (t.ids.reverse ++ ahead .left p)
    rw [ids_plug, ahead_right, ahead_left, List.reverse_append, List.reverse_append,
      List.append_assoc]
  | right =>
    change (plug p t).ids = (ahead .left p).reverse ++ (t.ids ++ ahead .right p)
    rw [ids_plug, ahead_right, ahead_left, List.reverse_reverse]

end RbPath

namespace Links

open RbTree RbPath

variable {s : Links ι} {d : Side} {i : ι} {p : RbPath ι} {t a b : RbTree ι} {l u v : List ι}
  {fuel : ℕ} {q : Option ι} {c : Bool}

def climb [DecidableEq ι] (d : Side) : ℕ → ι → Option ι → Links ι → Option (Option ι)
  | 0, _, _, _ => none
  | _ + 1, _, none, _ => some none
  | fuel + 1, cur, some p, s =>
    if s.child d p = some cur then climb d fuel p (s.parent p) s else some (some p)

def neighbor [DecidableEq ι] (d : Side) (fuel : ℕ) (i : ι) (s : Links ι) : Option (Option ι) :=
  match s.child d i with
  | some k => (extreme d.flip fuel k s).map some
  | none => climb d fuel i (s.parent i) s

theorem extreme_spec (d : Side) (ht : s.Below q t) (hi : t.ptr = some i)
    (hfuel : t.ids.length < fuel) :
    extreme d.flip fuel i s = (t.walk d).head? := by
  induction t using induction_make d.flip generalizing i q fuel with
  | hnil => cases hi
  | hmake j c a b iha _ =>
    rw [ptr_make] at hi
    cases hi
    obtain ⟨⟨-, -, hchild, -⟩, ha, -⟩ := below_make.mp ht
    rw [length_ids_make] at hfuel
    rw [walk_make, List.head?_append]
    cases fuel with
    | zero => exact absurd hfuel (Nat.not_lt_zero _)
    | succ fuel =>
      rw [extreme, hchild]
      cases hptr : a.ptr with
      | none =>
        cases a with
        | nil =>
          rw [walk_nil]
          rfl
        | node k c' a₁ a₂ => cases hptr
      | some k =>
        have hlen : a.ids.length < fuel := by omega
        have hk : k ∈ a.walk d := mem_walk.mpr (mem_ids_of_ptr hptr)
        dsimp only
        rw [iha ha hptr hlen]
        cases hwalk : a.walk d with
        | nil =>
          rw [hwalk] at hk
          cases hk
        | cons x xs => rfl

section Climb

variable [DecidableEq ι]

theorem climb_spec (h : s.Around (some i) p) (hn : (RbPath.ids p).Nodup) (hi : i ∉ RbPath.ids p)
    (hfuel : p.length < fuel) : climb d fuel i (above p) s = some (ahead d p).head? := by
  induction p generalizing i fuel with
  | nil =>
    cases fuel with
    | zero => exact absurd hfuel (Nat.not_lt_zero _)
    | succ fuel => rfl
  | cons f p ih =>
    obtain ⟨⟨hparent, -, hchild, hflip⟩, -, hp⟩ := h
    obtain ⟨hnot, hn'⟩ := List.nodup_cons.mp hn
    have hnot' : f.id ∉ RbPath.ids p := fun hmem => hnot (List.mem_append_right _ hmem)
    rw [List.length_cons] at hfuel
    cases fuel with
    | zero => exact absurd hfuel (Nat.not_lt_zero _)
    | succ fuel =>
      rw [above, climb, ahead]
      by_cases hside : f.side = d
      · rw [← hside, if_pos hchild, if_pos rfl, hparent, hside]
        exact ih hp (List.nodup_append.mp hn').2.1 hnot' (Nat.lt_of_succ_lt_succ hfuel)
      · have hd : d = f.side.flip := Side.eq_flip_of_ne fun heq => hside heq.symm
        have hother : s.child d f.id ≠ some i := by
          rw [hd, hflip]
          exact fun hptr =>
            hi (List.mem_cons_of_mem _ (List.mem_append_left _ (mem_ids_of_ptr hptr)))
        rw [if_neg hother, if_neg hside]
        rfl

theorem neighbor_at (h : s.Shape l p (make d i c a b)) (hl : l.Nodup) (hfuel : l.length < fuel) :
    neighbor d fuel i s = some (a.walk d ++ ahead d p).head? := by
  obtain ⟨hp, ⟨hparent, -, hchild, -⟩, ha, -⟩ := at_make.mp h.holds
  obtain ⟨-, hn, hapart⟩ := nodup_plug.mp (h.nodup hl)
  have hlength := h.ids ▸ (ids_plug_perm (p := p) (t := make d i c a b)).length_eq
  rw [List.length_append, length_ids_make] at hlength
  have hpath : p.length ≤ l.length := h.ids ▸ length_le
  rw [neighbor, hchild]
  cases hptr : a.ptr with
  | none =>
    cases a with
    | nil =>
      rw [walk_nil, List.nil_append, hparent]
      exact climb_spec hp hn (hapart i (mem_ids_of_ptr ptr_make)) (by omega)
    | node k c' a₁ a₂ => cases hptr
  | some k =>
    have hk : k ∈ a.walk d := mem_walk.mpr (mem_ids_of_ptr hptr)
    dsimp only
    rw [extreme_spec d ha hptr (by omega)]
    cases hwalk : a.walk d with
    | nil =>
      rw [hwalk] at hk
      cases hk
    | cons x xs => rfl

/-! ## Whole trees -/

theorem IsTree.neighbor (h : s.IsTree l) (hfuel : l.length < fuel)
    (hsplit : d.order l = u ++ i :: v) :
    neighbor d fuel i s = some v.head? := by
  obtain ⟨hl, t, ht, -⟩ := h
  have hids : t.ids = l := ht.ids
  have hi : i ∈ t.ids := by
    rw [hids, ← Side.mem_order (d := d), hsplit]
    exact List.mem_append_right _ List.mem_cons_self
  obtain ⟨p, c, a, b, rfl⟩ := exists_plug hi
  obtain ⟨a', b', hmake⟩ :=
    exists_make d (ptr_make (d := .left) (i := i) (c := c) (a := a) (b := b))
  rw [hmake] at ht hids
  rw [neighbor_at (shape_plug.mpr ht) hl hfuel]
  -- the node is at one place of the list only
  have hwalk :
      (ahead d.flip p).reverse ++ (b'.walk d ++ i :: a'.walk d ++ ahead d p) = u ++ i :: v := by
    rw [← hsplit, ← hids, ← walk_make, make_flip]
    exact (walk_plug d p _).symm
  rw [List.append_assoc, List.cons_append, ← List.append_assoc] at hwalk
  have hnodup : ((ahead d.flip p).reverse ++ b'.walk d ++ i :: (a'.walk d ++ ahead d p)).Nodup := by
    rw [hwalk, ← hsplit]
    exact Side.nodup_order hl
  rw [List.nodup_middle, List.nodup_cons, List.mem_append, not_or] at hnodup
  obtain ⟨-, -, hsame⟩ := (List.append_cons_inj_of_notMem hnodup.1.1 hnodup.1.2).mp hwalk
  rw [hsame]

end Climb

theorem IsTree.root_eq_none (h : s.IsTree l) : s.root = none ↔ l = [] := by
  obtain ⟨-, t, ht, -⟩ := h
  have hids : t.ids = l := ht.ids
  rw [ht.root, ← hids]
  cases t with
  | nil => exact ⟨fun _ => rfl, fun _ => rfl⟩
  | node i c a b =>
    constructor
    · intro hptr
      cases hptr
    · exact fun h => absurd (List.append_eq_nil_iff.mp h).2 (List.cons_ne_nil _ _)

theorem IsTree.extreme (d : Side) (h : s.IsTree l) (hfuel : l.length < fuel)
    (hroot : s.root = some i) :
    extreme d.flip fuel i s = (d.order l).head? := by
  obtain ⟨-, t, ht, -⟩ := h
  have hids : t.ids = l := ht.ids
  rw [← hids] at hfuel ⊢
  exact extreme_spec d ht.holds.2 (ht.root ▸ hroot) hfuel

end Links

end RetroRocket
