import RetroRocket.RedBlackFixup

/-!
# Hanging nodes into a red-black tree and taking them out

A new red node is hung at a place without a subtree. A node with two children is taken out by the
first node behind it, which has at most one child and takes its place.
-/

namespace RetroRocket

variable {ι : Type*} [DecidableEq ι]

namespace Links

open RbTree RbPath

variable {s : Links ι} {d : Side} {i y z : ι} {p : RbPath ι} {f : RbFrame ι} {t u a b : RbTree ι}
  {l : List ι} {n fuel : ℕ} {v q : Option ι} {c : Bool}

/-! ## A new node -/

/-- The fields of a new red node below `q`. -/
def newNode (s : Links ι) (z : ι) (q : Option ι) : Links ι :=
  (((s.setChild .left z none).setChild .right z none).setParent z q).setRed z true

theorem agree_newNode (h : i ≠ z) : s.Agree (s.newNode z q) i :=
  (((agree_setChild h).trans (agree_setChild h)).trans (agree_setParent h)).trans (agree_setRed h)

theorem child_newNode : (s.newNode z q).child d z = none := by
  cases d <;> simp [newNode, setChild, setParent, setRed]

theorem Shape.hang (h : s.Shape l p nil) (hl : l.Nodup) (hz : z ∉ l) :
    ((s.newNode z (above p)).point (link p) (some z)).Shape (before p ++ z :: after p) p
      (make .left z true nil nil) := by
  have hn := (nodup_plug.mp (h.nodup hl)).2.1
  have hz' : z ∉ RbPath.ids p := by
    intro hmem
    apply hz
    rw [← h.ids, ids_plug_perm.mem_iff]
    exact hmem
  have hp : (s.newNode z (above p)).Around none p := by
    refine h.holds.1.congr rfl fun k hk => agree_newNode ?_
    rintro rfl
    exact hz' hk
  obtain ⟨hparent, hred, hchild⟩ :=
    agree_point (s := s.newNode z (above p)) (v := some z) hz'
  refine ⟨⟨hp.point hn (some z), ⟨?_, ?_, ?_, ?_⟩, trivial, trivial⟩, ?_⟩
  · exact hparent.trans (if_pos rfl)
  · exact hred.trans (if_pos rfl)
  · exact (hchild .left).trans child_newNode
  · exact (hchild .right).trans child_newNode
  · exact ids_plug

/-! ## Moving a subtree -/

/-- The subtree at `v` takes the place of the one at `u`. -/
def transplant (s : Links ι) (u : ι) (v : Option ι) : Links ι :=
  let s := s.redirect .left u v
  s.adopt v (s.parent u)

theorem transplant_eq (hp : s.Around (some i) p) (habove : s.parent i = above p)
    (hi : i ∉ RbPath.ids p) : s.transplant i v = (s.point (link p) v).adopt v (above p) := by
  unfold transplant
  rw [redirect_eq hp habove hi]
  dsimp only
  rw [(agree_point hi).1, habove]

theorem agree_transplant {k : ι} (hp : s.Around (some i) p) (habove : s.parent i = above p)
    (hi : i ∉ RbPath.ids p) (hk : k ∉ RbPath.ids p) (hv : v ≠ some k) :
    s.Agree (s.transplant i v) k := by
  rw [transplant_eq hp habove hi]
  exact (agree_point hk).trans (agree_adopt hv)

theorem around_transplant (hp : s.Around (some i) p) (habove : s.parent i = above p)
    (hi : i ∉ RbPath.ids p) (hn : (RbPath.ids p).Nodup) (hv : ∀ k ∈ RbPath.ids p, v ≠ some k) :
    (s.transplant i v).Around v p := by
  rw [transplant_eq hp habove hi]
  refine (hp.point hn v).congr root_adopt fun k hk => agree_adopt (hv k hk)

theorem Shape.transplant (h : s.Shape l p (make d z c nil t)) (hl : l.Nodup) :
    (s.transplant z t.ptr).Shape (l.erase z) p t := by
  obtain ⟨hp, ⟨habove, -, -, -⟩, -, ht⟩ := at_make.mp h.holds
  obtain ⟨hn, hn', hapart⟩ := nodup_plug.mp (h.nodup hl)
  rw [ids_make_perm.nodup_iff, List.nodup_cons] at hn
  have hz : z ∉ RbPath.ids p := hapart z (mem_ids_of_ptr ptr_make)
  have ht' : ∀ k ∈ t.ids, k ∉ RbPath.ids p := fun k hk =>
    hapart k (mem_ids_make.mpr (Or.inr (Or.inr hk)))
  refine ⟨⟨?_, ?_⟩, ?_⟩
  · apply around_transplant hp habove hz hn'
    intro k hk hptr
    exact ht' k (mem_ids_of_ptr hptr) hk
  · rw [transplant_eq hp habove hz]
    exact (ht.congr fun k hk => agree_point (ht' k hk)).adopt hn.2 (above p)
  · rw [ids_of_removed (h.nodup hl), h.ids]

/-! ## The first node of a subtree -/

/-- The last node on the way from a node to one side. -/
def extreme (d : Side) : ℕ → ι → Links ι → Option ι
  | 0, _, _ => none
  | fuel + 1, i, s =>
    match s.child d i with
    | none => some i
    | some k => extreme d fuel k s

def minimum : ℕ → ι → Links ι → Option ι := extreme .left

omit [DecidableEq ι] in
theorem minimum_spec (ht : s.Below q t) (hi : t.ptr = some i) (hfuel : t.ids.length < fuel) :
    ∃ p' y c b, minimum fuel i s = some y ∧ t = plug p' (make .left y c nil b) ∧
      before p' = [] := by
  induction t generalizing i q fuel with
  | nil => cases hi
  | node j c a b iha _ =>
    cases hi
    obtain ⟨⟨-, -, hleft, -⟩, ha, -⟩ := ht
    cases fuel with
    | zero => exact absurd hfuel (Nat.not_lt_zero _)
    | succ fuel =>
      rw [minimum, extreme, hleft]
      cases a with
      | nil => exact ⟨[], j, c, b, rfl, rfl, rfl⟩
      | node k c' a₁ a₂ =>
        have hfuel' : (RbTree.node k c' a₁ a₂).ids.length < fuel := by
          change (List.length (_ ++ j :: b.ids)) < fuel + 1 at hfuel
          rw [List.length_append, List.length_cons] at hfuel
          omega
        obtain ⟨p', y, c'', b', hmin, hplug, hbefore⟩ := iha ha rfl hfuel'
        refine ⟨p' ++ [⟨.left, j, c, b⟩], y, c'', b', hmin, ?_, ?_⟩
        · rw [plug_append, ← hplug]
          rfl
        · rw [before_append, hbefore]
          rfl

/-! ## Taking a node out -/

/-- `y`, which already has the right child of `z`, takes the place of `z`. -/
def takePlace (z y : ι) (s : Links ι) : Option (Links ι) := do
  let s := s.transplant z (some y)
  let s := s.setChild .left y (s.child .left z)
  let a ← s.child .left y
  let s := s.setParent a (some y)
  some (s.setRed y (s.red z))

theorem takePlace_spec (hp : s.Around (some z) p)
    (hz : s.parent z = above p ∧ s.red z = c ∧ s.child .left z = a.ptr) (ha : s.Below (some z) a)
    (hright : s.child .right y = b.ptr) (hb : s.Below (some y) b) (ha' : a.ptr ≠ none)
    (hn : (plug p (make .right z c b a)).ids.Nodup)
    (hy : y ∉ (plug p (make .right z c b a)).ids) :
    ∃ s', s.takePlace z y = some s' ∧ s'.At p (make .right y c b a) := by
  obtain ⟨habove, hred, hleft⟩ := hz
  obtain ⟨ht, hn', hapart⟩ := nodup_plug.mp hn
  have hmem : ∀ k, k = z ∨ k ∈ b.ids ∨ k ∈ a.ids → k ∉ RbPath.ids p ∧ k ≠ y := by
    intro k hk
    have hk' := (mem_ids_make (d := .right) (c := c)).mpr hk
    refine ⟨hapart k hk', ?_⟩
    rintro rfl
    apply hy
    rw [ids_plug_perm.mem_iff]
    exact List.mem_append_left _ hk'
  rw [ids_make_perm.nodup_iff, List.nodup_cons, List.nodup_append] at ht
  obtain ⟨hza, hbn, han, hba⟩ := ht
  rw [List.mem_append, not_or] at hza
  obtain ⟨hzp, hzy⟩ := hmem z (Or.inl rfl)
  have hyp : y ∉ RbPath.ids p := by
    intro hmem
    apply hy
    rw [ids_plug_perm.mem_iff]
    exact List.mem_append_right _ hmem
  let s₁ := s.transplant z (some y)
  have hp₁ : s₁.Around (some y) p := by
    apply around_transplant hp habove hzp hn'
    intro k hk h
    cases h
    exact hyp hk
  have hparent₁ : s₁.parent y = above p := by
    change (s.transplant z (some y)).parent y = _
    rw [transplant_eq hp habove hzp]
    exact if_pos rfl
  have hchild₁ : s₁.child .right y = s.child .right y := by
    change (s.transplant z (some y)).child .right y = _
    rw [transplant_eq hp habove hzp]
    exact (agree_point hyp).2.2 _
  have hagree₁ : ∀ k, k ∉ RbPath.ids p → k ≠ y → s.Agree s₁ k := fun k hk hky =>
    agree_transplant hp habove hzp hk fun h => hky (Option.some.inj h).symm
  have hleft₁ : s₁.child .left z = a.ptr := ((hagree₁ z hzp hzy).2.2 _).trans hleft
  let s₄ := ((s₁.setChild .left y a.ptr).adopt a.ptr (some y)).setRed y c
  have hred₃ : ((s₁.setChild .left y a.ptr).adopt a.ptr (some y)).red z = c := by
    have hadopt : ∀ v q, ((s₁.setChild .left y a.ptr).adopt v q).red = s₁.red := by
      rintro (_ | k) q <;> rfl
    rw [hadopt]
    exact (hagree₁ z hzp hzy).2.1.trans hred
  have heq : s.takePlace z y = some s₄ := by
    obtain ⟨k, hk⟩ := Option.ne_none_iff_exists'.mp ha'
    change (((s₁.setChild .left y (s₁.child .left z)).child .left y).bind fun k => _) = _
    have hchild : (s₁.setChild .left y a.ptr).child .left y = some k := by
      rw [← hk]
      exact if_pos ⟨rfl, rfl⟩
    rw [hleft₁, hchild, Option.bind_some]
    rw [hk] at hred₃
    change some (Links.setRed _ y (((s₁.setChild .left y a.ptr).adopt (some k) (some y)).red z)) = _
    change _ = some (((s₁.setChild .left y a.ptr).adopt a.ptr (some y)).setRed y c)
    rw [hk, hred₃]
    rfl
  have hagree : ∀ k, k ≠ y → k ∉ a.ids → s₁.Agree s₄ k := fun k hky hka =>
    ((agree_setChild hky).trans (agree_adopt fun h => hka (mem_ids_of_ptr h))).trans
      (agree_setRed hky)
  have hya : a.ptr ≠ some y := fun h => (hmem y (Or.inr (Or.inr (mem_ids_of_ptr h)))).2 rfl
  refine ⟨s₄, heq, at_make.mpr ⟨?_, ⟨?_, if_pos rfl, ?_, ?_⟩, ?_, ?_⟩⟩
  · have hroot : s₄.root = s₁.root := root_adopt
    refine hp₁.congr hroot fun k hk => hagree k ?_ ?_
    · rintro rfl
      exact hyp hk
    · exact fun hka => (hmem k (Or.inr (Or.inr hka))).1 hk
  · exact (agree_adopt hya).1.trans hparent₁
  · have hchild : s₄.child .right y = (s₁.setChild .left y a.ptr).child .right y :=
      (agree_adopt hya).2.2 _
    have hother : (s₁.setChild .left y a.ptr).child .right y = s₁.child .right y := by
      simp [setChild]
    exact (hchild.trans hother).trans (hchild₁.trans hright)
  · exact ((agree_adopt hya).2.2 _).trans (if_pos ⟨rfl, rfl⟩)
  · apply hb.congr
    intro k hk
    obtain ⟨hkp, hky⟩ := hmem k (Or.inr (Or.inl hk))
    exact (hagree₁ k hkp hky).trans (hagree k hky fun hka => hba k hk k hka rfl)
  · have ha₂ : (s₁.setChild .left y a.ptr).Below (some z) a := by
      apply ha.congr
      intro k hk
      obtain ⟨hkp, hky⟩ := hmem k (Or.inr (Or.inr hk))
      exact (hagree₁ k hkp hky).trans (agree_setChild hky)
    refine (ha₂.adopt han (some y)).congr fun k hk => agree_setRed ?_
    exact (hmem k (Or.inr (Or.inr hk))).2

/-- `y` leaves its place below the right child of `z` and takes over that child: what is then above
the place, and the links. -/
def detach (z y : ι) (s : Links ι) : Option (Option ι × Links ι) :=
  if s.parent y = some z then some (some y, s)
  else do
    let t := s.transplant y (s.child .right y)
    let t := t.setChild .right y (t.child .right z)
    let r ← t.child .right y
    some (s.parent y, t.setParent r (some y))

theorem detach_spec {p' : RbPath ι} {c' : Bool}
    (h : s.Shape l (p' ++ ⟨.right, z, c, a⟩ :: p) (make .left y c' nil b)) (hl : l.Nodup) :
    ∃ s', s.detach z y = some (above (p' ++ ⟨.right, y, c, a⟩ :: p), s') ∧
      s'.Around (some z) p ∧ (s'.parent z = above p ∧ s'.red z = c ∧ s'.child .left z = a.ptr) ∧
      s'.Below (some z) a ∧ s'.child .right y = (plug p' b).ptr ∧ s'.Below (some y)
        (plug p' b) := by
  have hy := h.node
  cases p' with
  | nil =>
    obtain ⟨hp, ⟨habove, hred, -, hleft⟩, -, ha⟩ := at_make.mp (shape_near.mpr h).holds
    refine ⟨s, if_pos hy.1, hp, ⟨habove, hred, hleft⟩, ha, hy.2.2.2, ?_⟩
    exact (at_make.mp h.holds).2.2.2
  | cons f p' =>
    have hne : s.parent y ≠ some z := by
      rw [hy.1]
      intro heq
      have hn := (nodup_plug.mp (h.nodup hl)).2.1
      refine (List.nodup_cons.mp hn).1 ?_
      rw [Option.some.inj heq]
      apply List.mem_append_right
      have hmem : ∀ e : RbPath ι, z ∈ RbPath.ids (e ++ ⟨.right, z, c, a⟩ :: p) := by
        intro e
        induction e with
        | nil => exact List.mem_cons_self
        | cons _ e ih => exact List.mem_cons_of_mem _ (List.mem_append_right _ ih)
      exact hmem p'
    have hs₁ := h.transplant hl
    have hs₂ := at_append.mp hs₁.holds
    obtain ⟨hp, ⟨habove, hred, hchild, hleft⟩, hb, ha⟩ := at_make.mp (at_cons.mp hs₂)
    have hn : (plug p (make .right z c (plug (f :: p') b) a)).ids.Nodup := by
      have hids := hs₁.ids
      rw [plug_append] at hids
      change (plug (⟨.right, z, c, a⟩ :: p) (plug (f :: p') b)).ids.Nodup
      rw [hids]
      exact hl.erase y
    have hyl : y ∉ (plug p (make .right z c (plug (f :: p') b) a)).ids := by
      have hids := hs₁.ids
      rw [plug_append] at hids
      change y ∉ (plug (⟨.right, z, c, a⟩ :: p) (plug (f :: p') b)).ids
      rw [hids]
      exact hl.not_mem_erase
    obtain ⟨k, hk⟩ := exists_ptr_plug (f := f) (p := p') (t := b)
    obtain ⟨ht, -, hapart⟩ := nodup_plug.mp hn
    rw [ids_plug_perm.mem_iff, List.mem_append, mem_ids_make, not_or, not_or, not_or] at hyl
    rw [ids_make_perm.nodup_iff, List.nodup_cons, List.nodup_append, List.mem_append, not_or] at ht
    obtain ⟨⟨hyz, hyb, hya⟩, hyp⟩ := hyl
    obtain ⟨⟨hzb, hza⟩, hbn, -, hba⟩ := ht
    let s₁ := s.transplant y b.ptr
    let s₂ := (s₁.setChild .right y (some k)).adopt (some k) (some y)
    have hagree : ∀ i, i ≠ y → i ∉ (plug (f :: p') b).ids → s₁.Agree s₂ i := fun i hiy hib =>
      (agree_setChild hiy).trans (agree_adopt fun heq => hib (mem_ids_of_ptr (hk.trans heq)))
    obtain ⟨hparent, hred', hchild'⟩ := hagree z (fun h => hyz h.symm) hzb
    refine ⟨s₂, ?_, ?_, ⟨hparent.trans habove, hred'.trans hred, (hchild' _).trans hleft⟩,
      ?_, ?_, ?_⟩
    · unfold detach
      have hright : s.child .right y = b.ptr := hy.2.2.2
      rw [if_neg hne, hright]
      change (((s₁.setChild .right y (s₁.child .right z)).child .right y).bind fun r => _) = _
      have hright : s₁.child .right z = some k := hchild.trans hk
      have hself : (s₁.setChild .right y (some k)).child .right y = some k := if_pos ⟨rfl, rfl⟩
      rw [hright, hself, Option.bind_some, hy.1]
      rfl
    · refine hp.congr root_adopt fun i hi => hagree i ?_ ?_
      · rintro rfl
        exact hyp hi
      · exact fun hib => hapart i (mem_ids_make.mpr (Or.inr (Or.inl hib))) hi
    · refine ha.congr fun i hi => hagree i ?_ ?_
      · rintro rfl
        exact hya hi
      · exact fun hib => hba i hib i hi rfl
    · have hself : (s₁.setChild .right y (some k)).child .right y = some k := if_pos ⟨rfl, rfl⟩
      exact hself.trans hk.symm
    · have hb' : (s₁.setChild .right y (some k)).Below (some z) (plug (f :: p') b) := by
        refine hb.congr fun i hi => agree_setChild ?_
        rintro rfl
        exact hyb hi
      have hadopt := hb'.adopt hbn (some y)
      rw [hk] at hadopt
      exact hadopt

/-- What is left when a node has been taken out: the subtree that has moved up, what is above it,
the colour that is missing there, and the links. -/
structure Unlinked (ι : Type*) where
  x : Option ι
  xParent : Option ι
  red : Bool
  links : Links ι

def unlink (fuel : ℕ) (z : ι) (s : Links ι) : Option (Unlinked ι) :=
  match s.child .left z, s.child .right z with
  | none, b => some ⟨b, s.parent z, s.red z, s.transplant z b⟩
  | some a, none => some ⟨some a, s.parent z, s.red z, s.transplant z (some a)⟩
  | some _, some b => do
    let y ← minimum fuel b s
    let (xParent, t) ← s.detach z y
    let t ← t.takePlace z y
    some ⟨s.child .right y, xParent, s.red y, t⟩

theorem unlink_spec (h : s.Shape l p (make .left z c a b)) (hl : l.Nodup) (hfuel : l.length < fuel)
    (hrb : (plug p (make .left z c a b)).RedBlack) :
    ∃ r p' t, s.unlink fuel z = some r ∧ r.links.Shape (l.erase z) p' t ∧ r.x = t.ptr ∧
      r.xParent = above p' ∧ (r.red = true → (plug p' t).RedBlack) ∧
      (r.red = false → ∃ n, Fits p' (n + 1) ∧ t.Height n) := by
  have hz := h.node
  have hleft : s.child .left z = a.ptr := hz.2.2.1
  have hright : s.child .right z = b.ptr := hz.2.2.2
  unfold unlink
  cases a with
  | nil =>
    rw [hleft, hright, hz.1, hz.2.1]
    exact ⟨_, p, b, rfl, h.transplant hl, rfl, rfl, fits_of_removed hrb⟩
  | node i ci a₁ a₂ =>
    cases b with
    | nil =>
      rw [hleft, hright, hz.1, hz.2.1]
      exact ⟨_, p, _, rfl, Shape.transplant (d := .right) h hl, rfl, rfl,
        fits_of_removed (d := .right) hrb⟩
    | node j cj b₁ b₂ =>
      have hb := (at_make.mp h.holds).2.2.2
      have hlength : (RbTree.node j cj b₁ b₂).ids.length < fuel := by
        have hle : (RbTree.node j cj b₁ b₂).ids.length ≤ l.length := by
          rw [← h.ids, ids_plug_perm.length_eq, List.length_append, ids_make_perm.length_eq,
            List.length_cons, List.length_append]
          omega
        omega
      obtain ⟨p', y, c', b', hmin, hplug, hbefore⟩ := minimum_spec hb rfl hlength
      have hplace : s.Shape l (p' ++ ⟨.right, z, c, .node i ci a₁ a₂⟩ :: p)
          (make .left y c' nil b') := by
        refine ⟨at_append.mpr (at_cons.mpr ?_), ?_⟩
        · rw [← hplug]
          exact h.holds
        · rw [plug_append, ← hplug]
          exact h.ids
      obtain ⟨s₁, hdetach, hp, hz', ha', hy, hb'⟩ := detach_spec hplace hl
      have hids : (plug p (make .right z c (plug p' b') (.node i ci a₁ a₂))).ids = l.erase y := by
        rw [← hplace.ids, ← ids_of_removed (hplace.nodup hl), plug_append]
        rfl
      have hn : (plug p (make .right z c (plug p' b') (.node i ci a₁ a₂))).ids.Nodup := by
        rw [hids]
        exact hl.erase y
      have hyl : y ∉ (plug p (make .right z c (plug p' b') (.node i ci a₁ a₂))).ids := by
        rw [hids]
        exact hl.not_mem_erase
      obtain ⟨s₂, htake, hs₂⟩ := takePlace_spec hp hz' ha' hy hb' (by simp [ptr]) hn hyl
      refine ⟨⟨b'.ptr, _, c', s₂⟩, p' ++ ⟨.right, y, c, .node i ci a₁ a₂⟩ :: p, b', ?_,
        ⟨at_append.mpr (at_cons.mpr hs₂), ?_⟩, rfl, rfl, ?_⟩
      · rw [hleft, hright]
        change ((minimum fuel j s).bind fun y => _) = _
        rw [hmin, Option.bind_some, hdetach, Option.bind_eq_bind, Option.bind_some]
        have hchild : s.child .right y = b'.ptr := hplace.node.2.2.2
        dsimp only
        rw [htake, hplace.node.2.1, hchild]
        rfl
      · -- `y` is the first node behind `z`
        have hz₀ : z ∉ before p ∧ z ∉ (RbTree.node i ci a₁ a₂).ids := by
          obtain ⟨ht, -, hapart⟩ := nodup_plug.mp (h.nodup hl)
          rw [ids_make_perm.nodup_iff, List.nodup_cons, List.mem_append, not_or] at ht
          exact ⟨fun hmem => hapart z (mem_ids_of_ptr ptr_make) (mem_ids.mpr (Or.inl hmem)), ht.1.1⟩
        have hfirst : (plug p' (make .left y c' nil b')).ids = y :: (plug p' b').ids := by
          rw [ids_plug, ids_plug, hbefore]
          rfl
        rw [plug_append, plug_cons, ids_plug, ← h.ids, ids_plug, List.erase_append_right _ hz₀.1,
          hplug]
        change _ ++ (((RbTree.node i ci a₁ a₂).ids ++ y :: (plug p' b').ids) ++ _) =
          _ ++ (((RbTree.node i ci a₁ a₂).ids ++ z :: (plug p' (make .left y c' nil b')).ids) ++
            _).erase z
        rw [hfirst, List.append_assoc, List.append_assoc, List.erase_append_right _ hz₀.2,
          List.cons_append, List.cons_append, List.erase_cons_head]
        rfl
      · apply fits_of_removed (d := .left)
        apply redBlack_rename
        rw [plug_append, plug_cons, ← hplug]
        exact hrb

/-! ## Whole trees -/

omit [DecidableEq ι] in
/-- The links are those of a red-black tree, and `l` has its nodes in order. -/
structure IsTree (s : Links ι) (l : List ι) : Prop where
  nodup : l.Nodup
  shape : ∃ t, s.Shape l [] t ∧ t.RedBlack

theorem IsTree.paint (h : s.IsTree l) : (s.paint s.root false).IsTree l := by
  obtain ⟨hl, t, ht, hrb⟩ := h
  refine ⟨hl, t, ?_, hrb⟩
  have hpaint := ht.blacken hl
  rw [blacken_of_black hrb.1] at hpaint
  rw [ht.root]
  exact hpaint

theorem insert_spec {grand : Links ι → ι → ι → Option ι}
    (hgrand : ∀ {s : Links ι} {z p g}, s.parent z = some p → s.parent p = some g →
      grand s z g = some g)
    (h : s.Shape l p nil) (hl : l.Nodup) (hrb : (plug p nil).RedBlack) (hz : z ∉ l)
    (hfuel : l.length < fuel) :
    ∃ s', insertLoop grand fuel z ((s.newNode z (above p)).point (link p) (some z)) = some s' ∧
      s'.root ≠ none ∧ (s'.paint s'.root false).IsTree (before p ++ z :: after p) := by
  obtain ⟨n, hp, hn, -⟩ := fits_of_redBlack hrb
  have hl' : (before p ++ z :: after p).Nodup := by
    rw [List.nodup_middle, List.nodup_cons]
    rw [← h.ids, ids_plug] at hl hz
    exact ⟨hz, hl⟩
  have hheight : (make .left z true nil nil : RbTree ι).Height n :=
    height_red.mpr ⟨⟨rfl, rfl⟩, hn, hn⟩
  have hlength : p.length < fuel := by
    have hle := length_le (p := p) (t := (nil : RbTree ι))
    rw [h.ids] at hle
    omega
  obtain ⟨s', t', m, hloop, hs', ht'⟩ :=
    insertLoop_spec hgrand hl' (h.hang hl hz) rfl rfl hheight hp hlength
  refine ⟨s', hloop, ?_, hl', t'.blacken, ?_, RedBlack.of_height ht'⟩
  · rw [hs'.root]
    intro hnone
    have hids : t'.ids = before p ++ z :: after p := hs'.ids
    cases t' with
    | nil => simp [RbTree.ids] at hids
    | node i c a b => cases hnone
  · rw [hs'.root]
    exact hs'.blacken hl'

theorem remove_spec (h : s.IsTree l) (hz : z ∈ l) (hfuel : l.length < fuel) :
    ∃ r, s.unlink fuel z = some r ∧ (r.red = true → r.links.IsTree (l.erase z)) ∧
      (r.red = false → ∃ x' s', eraseLoop fuel r.x r.xParent r.links = some (x', s') ∧
        (s'.paint x' false).IsTree (l.erase z)) := by
  obtain ⟨hl, t, ht, hrb⟩ := h
  have hz' : z ∈ t.ids := by
    have hids : t.ids = l := ht.ids
    rwa [hids]
  obtain ⟨p, c, a, b, rfl⟩ := exists_plug hz'
  obtain ⟨r, p', t', hunlink, hr, hx, hparent, hred, hblack⟩ :=
    unlink_spec (shape_plug.mpr ht) hl hfuel hrb
  have hl' := hl.erase z
  refine ⟨r, hunlink, fun h => ⟨hl', _, shape_plug.mp hr, hred h⟩, fun h => ?_⟩
  obtain ⟨n, hfits, hheight⟩ := hblack h
  have hshort : t'.Short n := by
    unfold Short
    cases ht' : t'.isRed with
    | true => exact height_blacken hheight ht'
    | false => exact hheight
  have hlength : p'.length + (if t'.isRed then 0 else 1) < fuel := by
    have hle := length_le (p := p') (t := t')
    rw [hr.ids, List.length_erase_of_mem hz] at hle
    have hpos := List.length_pos_of_mem hz
    split <;> omega
  obtain ⟨x', s', t'', hloop, hs', ht''⟩ := eraseLoop_spec hl' hr hshort hfits hlength
  rw [hx, hparent]
  exact ⟨x', s', hloop, hl', t'', hs', ht''⟩

end Links

end RetroRocket
