import RetroRocket.RedBlackTree

/-!
# Red-black trees made of links

The nodes of a tree are linked by their two children and the node above them, and there is a pointer
to the root. `At p t` says that the links are those of the tree `t` at the place `p`; each write has
a lemma that says which trees and which places it leaves alone. A pointer that is followed although
it is null has no result.
-/

namespace RetroRocket

variable {ι : Type*}

structure Links (ι : Type*) where
  child : Side → ι → Option ι
  parent : ι → Option ι
  red : ι → Bool
  root : Option ι

namespace Links

open RbTree RbPath

/-! ## Writes -/

section Writes

variable [DecidableEq ι] (s : Links ι)

def setChild (d : Side) (i : ι) (v : Option ι) : Links ι :=
  { s with child := fun e j => if e = d ∧ j = i then v else s.child e j }

def setParent (i : ι) (v : Option ι) : Links ι :=
  { s with parent := fun j => if j = i then v else s.parent j }

def setRed (i : ι) (c : Bool) : Links ι :=
  { s with red := fun j => if j = i then c else s.red j }

def setRoot (v : Option ι) : Links ι := { s with root := v }

/-- The node above becomes `q`, unless the pointer is null. -/
def adopt (v : Option ι) (q : Option ι) : Links ι :=
  match v with
  | none => s
  | some i => s.setParent i q

def paint (v : Option ι) (c : Bool) : Links ι :=
  match v with
  | none => s
  | some i => s.setRed i c

def point (l : Option (Side × ι)) (v : Option ι) : Links ι :=
  match l with
  | none => s.setRoot v
  | some (d, i) => s.setChild d i v

/-- The pointer to `u` is set, which is in the node above `u` or to the root. The child on the side
`d` is looked at first. -/
def redirect (d : Side) (u : ι) (v : Option ι) : Links ι :=
  match s.parent u with
  | none => s.setRoot v
  | some q => if s.child d q = some u then s.setChild d q v else s.setChild d.flip q v

end Writes

variable {s : Links ι} {d e : Side} {i j : ι} {v q : Option ι} {c : Bool}

/-! ## What the links hold -/

/-- The tree hangs below `q`. -/
def Below (s : Links ι) : Option ι → RbTree ι → Prop
  | _, nil => True
  | q, node i c l r =>
    (s.parent i = q ∧ s.red i = c ∧ s.child .left i = l.ptr ∧ s.child .right i = r.ptr) ∧
      s.Below (some i) l ∧ s.Below (some i) r

/-- The frames hang together, and the place below them has the pointer `v`. -/
def Around (s : Links ι) : Option ι → RbPath ι → Prop
  | v, [] => s.root = v
  | v, f :: p =>
    (s.parent f.id = above p ∧ s.red f.id = f.red ∧ s.child f.side f.id = v ∧
      s.child f.side.flip f.id = f.sibling.ptr) ∧
      s.Below (some f.id) f.sibling ∧ s.Around (some f.id) p

/-- The links are those of the tree `t` at the place `p`. -/
def At (s : Links ι) (p : RbPath ι) (t : RbTree ι) : Prop := s.Around t.ptr p ∧ s.Below (above p) t

def link : RbPath ι → Option (Side × ι)
  | [] => none
  | f :: _ => some (f.side, f.id)

variable {p : RbPath ι} {f : RbFrame ι} {t u a b : RbTree ι}

theorem below_make : s.Below q (make d i c a b) ↔
    (s.parent i = q ∧ s.red i = c ∧ s.child d i = a.ptr ∧ s.child d.flip i = b.ptr) ∧
      s.Below (some i) a ∧ s.Below (some i) b := by
  cases d with
  | left => exact Iff.rfl
  | right =>
    change (_ ∧ _ ∧ _ ∧ _) ∧ _ ∧ _ ↔ (_ ∧ _ ∧ _ ∧ _) ∧ _ ∧ _
    constructor <;> rintro ⟨⟨h₁, h₂, h₃, h₄⟩, h₅, h₆⟩ <;> exact ⟨⟨h₁, h₂, h₄, h₃⟩, h₆, h₅⟩

theorem at_cons : s.At (f :: p) t ↔ s.At p (f.fill t) := by
  unfold At RbFrame.fill
  rw [below_make, ptr_make]
  change ((_ ∧ _ ∧ _ ∧ _) ∧ _ ∧ _) ∧ s.Below (some f.id) t ↔ _
  constructor
  · rintro ⟨⟨hf, hsibling, hp⟩, ht⟩
    exact ⟨hp, hf, ht, hsibling⟩
  · rintro ⟨hp, hf, ht, hsibling⟩
    exact ⟨⟨hf, hsibling, hp⟩, ht⟩

theorem at_append {p' : RbPath ι} : s.At (p' ++ p) t ↔ s.At p (plug p' t) := by
  induction p' generalizing t with
  | nil => exact Iff.rfl
  | cons f p' ih => exact at_cons.trans ih

theorem at_plug : s.At p t ↔ s.At [] (plug p t) := by
  rw [← at_append, List.append_nil]

theorem at_make : s.At p (make d i c a b) ↔ s.Around (some i) p ∧
    (s.parent i = above p ∧ s.red i = c ∧ s.child d i = a.ptr ∧ s.child d.flip i = b.ptr) ∧
      s.Below (some i) a ∧ s.Below (some i) b := by
  unfold At
  rw [ptr_make, below_make]

theorem At.node {l r : RbTree ι} (h : s.At p (node i c l r)) :
    s.parent i = above p ∧ s.red i = c ∧ s.child .left i = l.ptr ∧ s.child .right i = r.ptr := h.2.1

/-! ## Shapes -/

/-- The links are those of `t` at the place `p`, and `l` has the nodes of the whole tree in
order. -/
structure Shape (s : Links ι) (l : List ι) (p : RbPath ι) (t : RbTree ι) : Prop where
  holds : s.At p t
  ids : (plug p t).ids = l

variable {l : List ι}

theorem shape_fill : s.Shape l (f :: p) t ↔ s.Shape l p (f.fill t) :=
  ⟨fun h => ⟨at_cons.mp h.holds, h.ids⟩, fun h => ⟨at_cons.mpr h.holds, h.ids⟩⟩

theorem shape_plug : s.Shape l p t ↔ s.Shape l [] (plug p t) :=
  ⟨fun h => ⟨at_plug.mp h.holds, h.ids⟩, fun h => ⟨at_plug.mpr h.holds, h.ids⟩⟩

theorem shape_near : s.Shape l p (make d i c a b) ↔ s.Shape l (⟨d, i, c, b⟩ :: p) a :=
  (shape_fill (f := ⟨d, i, c, b⟩)).symm

theorem shape_far : s.Shape l p (make d i c a b) ↔ s.Shape l (⟨d.flip, i, c, a⟩ :: p) b := by
  rw [← shape_near, make_flip]

theorem Shape.nodup (h : s.Shape l p t) (hl : l.Nodup) : (plug p t).ids.Nodup := by
  rw [h.ids]
  exact hl

theorem Shape.node (h : s.Shape l p (make d i c a b)) :
    s.parent i = above p ∧ s.red i = c ∧ s.child d i = a.ptr ∧ s.child d.flip i = b.ptr :=
  (at_make.mp h.holds).2.1

theorem Shape.sibling (h : s.Shape l (⟨d, i, c, b⟩ :: p) t) : s.child d.flip i = b.ptr :=
  (shape_near.mpr h).node.2.2.2

theorem Shape.parent (h : s.Shape l p t) (ht : t.ptr = some i) : s.parent i = above p := by
  cases t with
  | nil => cases ht
  | node j c a b =>
    cases ht
    exact h.holds.node.1

theorem Shape.root (h : s.Shape l [] t) : s.root = t.ptr := h.holds.1

theorem exists_root (h : s.Around v (f :: p)) : ∃ k ∈ RbPath.ids (f :: p), s.root = some k := by
  induction p generalizing v f with
  | nil => exact ⟨f.id, List.mem_cons_self, h.2.2⟩
  | cons e p ih =>
    obtain ⟨k, hk, hroot⟩ := ih h.2.2
    exact ⟨k, List.mem_cons_of_mem _ (List.mem_append_right _ hk), hroot⟩

theorem Shape.root_ne (h : s.Shape l (f :: p) t) (hl : l.Nodup) : t.ptr ≠ s.root := by
  obtain ⟨k, hk, hroot⟩ := exists_root h.holds.1
  rw [hroot]
  intro hptr
  exact (nodup_plug.mp (h.nodup hl)).2.2 k (mem_ids_of_ptr hptr) hk

/-! ## What the writes leave alone -/

def Agree (s s' : Links ι) (i : ι) : Prop :=
  s'.parent i = s.parent i ∧ s'.red i = s.red i ∧ ∀ d, s'.child d i = s.child d i

theorem Agree.trans {s' s'' : Links ι} (h : s.Agree s' i) (h' : s'.Agree s'' i) : s.Agree s'' i :=
  ⟨h'.1.trans h.1, h'.2.1.trans h.2.1, fun d => (h'.2.2 d).trans (h.2.2 d)⟩

theorem Below.congr {s' : Links ι} (h : s.Below q t) (hagree : ∀ i ∈ t.ids, s.Agree s' i) :
    s'.Below q t := by
  induction t generalizing q with
  | nil => trivial
  | node i c l r ihl ihr =>
    obtain ⟨⟨hparent, hred, hleft, hright⟩, hl, hr⟩ := h
    obtain ⟨hp, hc, hchild⟩ := hagree i (mem_ids_of_ptr rfl)
    refine ⟨⟨hp.trans hparent, hc.trans hred, (hchild _).trans hleft, (hchild _).trans hright⟩,
      ihl hl fun k hk => hagree k ?_, ihr hr fun k hk => hagree k ?_⟩
    · exact List.mem_append_left _ hk
    · exact List.mem_append_right _ (List.mem_cons_of_mem _ hk)

theorem Around.congr {s' : Links ι} (h : s.Around v p) (hroot : s'.root = s.root)
    (hagree : ∀ i ∈ RbPath.ids p, s.Agree s' i) : s'.Around v p := by
  induction p generalizing v with
  | nil => exact hroot.trans h
  | cons f p ih =>
    obtain ⟨⟨hparent, hred, hchild, hflip⟩, hsibling, hp⟩ := h
    obtain ⟨hp', hc, hchild'⟩ := hagree f.id List.mem_cons_self
    refine ⟨⟨hp'.trans hparent, hc.trans hred, (hchild' _).trans hchild, (hchild' _).trans hflip⟩,
      hsibling.congr fun k hk => hagree k ?_, ih hp fun k hk => hagree k ?_⟩
    · exact List.mem_cons_of_mem _ (List.mem_append_left _ hk)
    · exact List.mem_cons_of_mem _ (List.mem_append_right _ hk)

section Frames

variable [DecidableEq ι]

theorem agree_setChild (h : i ≠ j) : s.Agree (s.setChild d j v) i :=
  ⟨rfl, rfl, fun _ => if_neg fun h' => h h'.2⟩

theorem agree_setParent (h : i ≠ j) : s.Agree (s.setParent j v) i :=
  ⟨if_neg h, rfl, fun _ => rfl⟩

theorem agree_setRed (h : i ≠ j) : s.Agree (s.setRed j c) i := ⟨rfl, if_neg h, fun _ => rfl⟩

theorem agree_adopt (h : v ≠ some i) : s.Agree (s.adopt v q) i := by
  cases v with
  | none => exact ⟨rfl, rfl, fun _ => rfl⟩
  | some j =>
    apply agree_setParent
    rintro rfl
    exact h rfl

theorem agree_point (h : i ∉ RbPath.ids p) : s.Agree (s.point (link p) v) i := by
  cases p with
  | nil => exact ⟨rfl, rfl, fun _ => rfl⟩
  | cons f p =>
    apply agree_setChild
    rintro rfl
    exact h List.mem_cons_self

@[simp] theorem root_adopt : (s.adopt v q).root = s.root := by cases v <;> rfl

@[simp] theorem root_paint : (s.paint v c).root = s.root := by cases v <;> rfl

theorem Below.adopt (h : s.Below q t) (hn : t.ids.Nodup) (q' : Option ι) :
    (s.adopt t.ptr q').Below q' t := by
  cases t with
  | nil => trivial
  | node i c l r =>
    obtain ⟨⟨-, hred, hleft, hright⟩, hl, hr⟩ := h
    obtain ⟨-, hr', hdisjoint⟩ := List.nodup_append.mp hn
    have hagree : ∀ k ∈ l.ids ++ r.ids, s.Agree (s.adopt (some i) q') k := by
      intro k hk
      apply agree_adopt
      intro h
      cases h
      rcases List.mem_append.mp hk with hk | hk
      · exact hdisjoint i hk i List.mem_cons_self rfl
      · exact (List.nodup_cons.mp hr').1 hk
    exact ⟨⟨if_pos rfl, hred, hleft, hright⟩,
      hl.congr fun k hk => hagree k (List.mem_append_left _ hk),
      hr.congr fun k hk => hagree k (List.mem_append_right _ hk)⟩

theorem Around.point (h : s.Around v p) (hn : (RbPath.ids p).Nodup) (v' : Option ι) :
    (s.point (link p) v').Around v' p := by
  cases p with
  | nil => rfl
  | cons f p =>
    obtain ⟨⟨hparent, hred, -, hflip⟩, hsibling, hp⟩ := h
    obtain ⟨hnot, hn'⟩ := List.nodup_cons.mp hn
    have hagree : ∀ k ∈ f.sibling.ids ++ RbPath.ids p, s.Agree (s.setChild f.side f.id v') k := by
      intro k hk
      apply agree_setChild
      rintro rfl
      exact hnot hk
    refine ⟨⟨hparent, hred, if_pos ⟨rfl, rfl⟩, ?_⟩, ?_, ?_⟩
    · exact (if_neg fun h => Side.flip_ne _ h.1).trans hflip
    · exact hsibling.congr fun k hk => hagree k (List.mem_append_left _ hk)
    · exact hp.congr rfl fun k hk => hagree k (List.mem_append_right _ hk)

/-- Where the pointer to `u` leads to a place, that pointer is set. -/
theorem redirect_eq (h : s.Around (some i) p) (habove : s.parent i = above p)
    (hnot : i ∉ RbPath.ids p) : s.redirect d i v = s.point (link p) v := by
  unfold redirect
  rw [habove]
  cases p with
  | nil => rfl
  | cons f p =>
    obtain ⟨⟨-, -, hchild, hflip⟩, -⟩ := h
    change (if s.child d f.id = some i then s.setChild d f.id v else s.setChild d.flip f.id v) =
      s.setChild f.side f.id v
    by_cases hd : d = f.side
    · rw [hd, if_pos hchild]
    · have hd' := Side.eq_flip_of_ne hd
      rw [hd', Side.flip_flip, if_neg]
      rw [hflip]
      intro hptr
      exact hnot (List.mem_cons_of_mem _ (List.mem_append_left _ (mem_ids_of_ptr hptr)))

/-! ## Colours -/

theorem At.setRed (h : s.At p (make d i c a b)) (hn : (plug p (make d i c a b)).ids.Nodup)
    (c' : Bool) : (s.setRed i c').At p (make d i c' a b) := by
  obtain ⟨hp, ⟨hparent, -, hchild, hflip⟩, ha, hb⟩ := at_make.mp h
  obtain ⟨ht, -, hapart⟩ := nodup_plug.mp hn
  rw [ids_make_perm.nodup_iff, List.nodup_cons] at ht
  have hagree : ∀ k ∈ a.ids ++ b.ids, s.Agree (s.setRed i c') k := by
    intro k hk
    apply agree_setRed
    rintro rfl
    exact ht.1 hk
  refine at_make.mpr ⟨hp.congr rfl fun k hk => agree_setRed ?_,
    ⟨hparent, if_pos rfl, hchild, hflip⟩,
    ha.congr fun k hk => hagree k (List.mem_append_left _ hk),
    hb.congr fun k hk => hagree k (List.mem_append_right _ hk)⟩
  rintro rfl
  exact hapart k (mem_ids_of_ptr ptr_make) hk

theorem At.blacken (h : s.At p t) (hn : (plug p t).ids.Nodup) :
    (s.paint t.ptr false).At p t.blacken := by
  cases t with
  | nil => exact h
  | node i c l r => exact At.setRed (d := .left) h hn false

/-! ## Rotations -/

/-- `x` goes down on the side `d`, and its other child comes up. -/
def rotate (d : Side) (x : ι) (s : Links ι) : Option (Links ι) := do
  let y ← s.child d.flip x
  let b := s.child d y
  let s := s.setChild d.flip x b
  let s := s.adopt b (some x)
  let s := s.setParent y (s.parent x)
  let s := s.redirect d x (some y)
  let s := s.setChild d y (some x)
  some (s.setParent x (some y))

theorem rotate_at {x y : ι} {c' : Bool} {b' : RbTree ι}
    (h : s.At p (make d x c a (make d y c' b b')))
    (hn : (plug p (make d x c a (make d y c' b b'))).ids.Nodup) :
    ∃ s', s.rotate d x = some s' ∧ s'.At p (make d y c' (make d x c a b) b') := by
  obtain ⟨hp, ⟨hparent, hred, hchild, hflip⟩, ha, hy⟩ := at_make.mp h
  obtain ⟨⟨hparent', hred', hchild', hflip'⟩, hb, hb'⟩ := below_make.mp hy
  obtain ⟨ht, hn', hapart⟩ := nodup_plug.mp hn
  have hperm : (make d x c a (make d y c' b b')).ids.Perm
      (x :: (a.ids ++ y :: (b.ids ++ b'.ids))) :=
    ids_make_perm.trans ((ids_make_perm.append_left a.ids).cons x)
  rw [hperm.nodup_iff] at ht
  have hmem : ∀ k ∈ x :: (a.ids ++ y :: (b.ids ++ b'.ids)), k ∉ RbPath.ids p :=
    fun k hk => hapart k (hperm.mem_iff.mpr hk)
  have hx := hmem x List.mem_cons_self
  have hy' := hmem y (by simp)
  have hb₀ : ∀ k ∈ b.ids, k ∉ RbPath.ids p := fun k hk => hmem k (by simp [hk])
  simp only [List.nodup_cons, List.nodup_append, List.mem_cons, List.mem_append, not_or] at ht
  obtain ⟨⟨hxa, hxy, hxb, hxb'⟩, -, ⟨⟨hyb, hyb'⟩, hbn, -, hbb'⟩, hay⟩ := ht
  have hptr : ∀ k, k ∉ b.ids → b.ptr ≠ some k := fun k hk hptr => hk (mem_ids_of_ptr hptr)
  -- the links when the node above, or the root, is about to be told
  let s₂ := (s.setChild d.flip x b.ptr).adopt b.ptr (some x)
  let s₃ := s₂.setParent y (s₂.parent x)
  have hagree₂ : ∀ k, k ≠ x → k ∉ b.ids → s.Agree s₂ k := fun k hkx hkb =>
    (agree_setChild hkx).trans (agree_adopt (hptr k hkb))
  have hparent₂ : s₂.parent x = above p := (agree_adopt (hptr x hxb)).1.trans hparent
  have hp₃ : s₃.Around (some x) p := by
    have hroot : s₃.root = s.root := root_adopt
    refine hp.congr hroot fun k hk => ?_
    have hkx : k ≠ x := fun h => hx (h ▸ hk)
    have hky : k ≠ y := fun h => hy' (h ▸ hk)
    exact (hagree₂ k hkx fun hkb => hb₀ k hkb hk).trans (agree_setParent hky)
  have hparent₃ : s₃.parent x = above p := (if_neg hxy).trans hparent₂
  let s₆ := ((s₃.point (link p) (some y)).setChild d y (some x)).setParent x (some y)
  have heq : s.rotate d x = some s₆ := by
    unfold rotate
    rw [hflip, ptr_make, Option.bind_eq_bind, Option.bind_some]
    dsimp only
    rw [hchild', redirect_eq hp₃ hparent₃ hx]
  have hagree₆ : ∀ k, k ≠ x → k ≠ y → k ∉ RbPath.ids p → s₂.Agree s₆ k := fun k hkx hky hkp =>
    (((agree_setParent hky).trans (agree_point hkp)).trans (agree_setChild hky)).trans
      (agree_setParent hkx)
  -- both nodes are apart from the place, so the write there does not change them
  have hpoint : ∀ k, k ∉ RbPath.ids p → s₃.Agree (s₃.point (link p) (some y)) k :=
    fun k hk => agree_point hk
  have hbelow : ∀ {q t}, s.Below q t → (∀ k ∈ t.ids, k ∉ RbPath.ids p ∧ k ≠ x ∧ k ≠ y ∧ k ∉ b.ids) →
      s₆.Below q t := by
    intro q t ht hk
    apply ht.congr
    intro k hkt
    obtain ⟨hkp, hkx, hky, hkb⟩ := hk k hkt
    exact (hagree₂ k hkx hkb).trans (hagree₆ k hkx hky hkp)
  refine ⟨s₆, heq,
    at_make.mpr ⟨?_, ⟨?_, ?_, ?_, ?_⟩, below_make.mpr ⟨⟨?_, ?_, ?_, ?_⟩, ?_, ?_⟩, ?_⟩⟩
  · refine (hp₃.point hn' (some y)).congr rfl fun k hk => ?_
    have hkx : k ≠ x := fun h => hx (h ▸ hk)
    have hky : k ≠ y := fun h => hy' (h ▸ hk)
    exact (agree_setChild hky).trans (agree_setParent hkx)
  · have hyx : y ≠ x := fun h => hxy h.symm
    exact ((if_neg hyx).trans (hpoint y hy').1).trans ((if_pos rfl).trans hparent₂)
  · exact ((hpoint y hy').2.1.trans (hagree₂ y (fun h => hxy h.symm) hyb).2.1).trans hred'
  · exact (if_pos ⟨rfl, rfl⟩).trans ptr_make.symm
  · have hchild₆ : s₆.child d.flip y = s₃.child d.flip y :=
      (if_neg fun h => Side.flip_ne d h.1).trans ((hpoint y hy').2.2 _)
    exact (hchild₆.trans ((hagree₂ y (fun h => hxy h.symm) hyb).2.2 _)).trans hflip'
  · exact if_pos rfl
  · have hred₂ : s₂.red x = s.red x := (agree_adopt (hptr x hxb)).2.1
    exact ((hpoint x hx).2.1.trans hred₂).trans hred
  · have hchild₆ : s₆.child d x = s₃.child d x :=
      (if_neg fun h => hxy h.2).trans ((hpoint x hx).2.2 _)
    have hchild₂ : s₂.child d x = s.child d x :=
      ((agree_adopt (hptr x hxb)).2.2 d).trans (if_neg fun h => Side.ne_flip d h.1)
    exact (hchild₆.trans hchild₂).trans hchild
  · have hchild₆ : s₆.child d.flip x = s₃.child d.flip x :=
      (if_neg fun h => hxy h.2).trans ((hpoint x hx).2.2 _)
    exact hchild₆.trans (((agree_adopt (hptr x hxb)).2.2 _).trans (if_pos ⟨rfl, rfl⟩))
  · apply hbelow ha
    intro k hk
    have hky := hay k hk
    exact ⟨hmem k (by simp [hk]), fun h => hxa (h ▸ hk), fun h => (hky k (Or.inl h)) rfl,
      fun hkb => (hky k (Or.inr (Or.inl hkb))) rfl⟩
  · have hb₁ : (s.setChild d.flip x b.ptr).Below (some y) b :=
      hb.congr fun k hk => agree_setChild fun h => hxb (h ▸ hk)
    apply (hb₁.adopt hbn (some x)).congr
    intro k hk
    exact hagree₆ k (fun h => hxb (h ▸ hk)) (fun h => hyb (h ▸ hk)) (hb₀ k hk)
  · apply hbelow hb'
    intro k hk
    exact ⟨hmem k (by simp [hk]), fun h => hxb' (h ▸ hk), fun h => hyb' (h ▸ hk),
      fun hkb => hbb' k hkb k hk rfl⟩

theorem Shape.setRed (h : s.Shape l p (make d i c a b)) (hl : l.Nodup) (c' : Bool) :
    (s.setRed i c').Shape l p (make d i c' a b) :=
  ⟨h.holds.setRed (h.nodup hl) c', (ids_plug_congr ids_make_color).trans h.ids⟩

theorem Shape.blacken (h : s.Shape l p t) (hl : l.Nodup) :
    (s.paint t.ptr false).Shape l p t.blacken :=
  ⟨h.holds.blacken (h.nodup hl), (ids_plug_congr ids_blacken).trans h.ids⟩

theorem Shape.rotate {x y : ι} {c' : Bool} {b' : RbTree ι}
    (h : s.Shape l p (make d x c a (make d y c' b b'))) (hl : l.Nodup) :
    ∃ s', s.rotate d x = some s' ∧ s'.Shape l p (make d y c' (make d x c a b) b') := by
  obtain ⟨s', hrotate, hs'⟩ := rotate_at h.holds (h.nodup hl)
  exact ⟨s', hrotate, hs', (ids_plug_congr ids_rotate).trans h.ids⟩

end Frames

end Links

end RetroRocket
