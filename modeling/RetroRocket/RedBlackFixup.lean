import RetroRocket.RedBlackLinks

/-!
# Repairing a red-black tree

After a red node has been hung into a tree, it may have a red node above it; after a black node has
been taken out, a place may be one black node short. Each loop moves the fault towards the root or
removes it with rotations. The order of the nodes is the same all the time.
-/

namespace RetroRocket

variable {ι : Type*}

namespace Links

open RbTree RbPath

def isRed (s : Links ι) (v : Option ι) : Bool :=
  match v with
  | none => false
  | some i => s.red i

variable {s : Links ι} {d : Side} {i z g : ι} {p : RbPath ι} {f : RbFrame ι} {t u a b : RbTree ι}
  {l : List ι} {n fuel : ℕ} {v q : Option ι}

theorem isRed_of_below (h : s.Below q t) : s.isRed t.ptr = t.isRed := by
  cases t with
  | nil => rfl
  | node i c l r => exact h.1.2.1

theorem ptr_ne (h : s.Shape l (f :: p) t) (hl : l.Nodup) (ht : t.ptr = some i) :
    f.sibling.ptr ≠ t.ptr := by
  have hapart := (nodup_plug.mp (h.nodup hl)).2.2 i (mem_ids_of_ptr ht)
  rw [ht]
  intro hptr
  exact hapart (List.mem_cons_of_mem _ (List.mem_append_left _ (mem_ids_of_ptr hptr)))

variable [DecidableEq ι]

def sideOf (s : Links ι) (q : ι) (v : Option ι) : Side :=
  if s.child .left q = v then .left else .right

theorem sideOf_eq (h : s.Shape l (f :: p) t) (hne : f.sibling.ptr ≠ t.ptr) :
    s.sideOf f.id t.ptr = f.side := by
  obtain ⟨-, -, hchild, hflip⟩ := (shape_fill.mp h).node
  unfold sideOf
  cases hside : f.side with
  | left =>
    rw [hside] at hchild
    exact if_pos hchild
  | right =>
    rw [hside] at hflip
    apply if_neg
    change s.child Side.right.flip f.id ≠ _
    rw [hflip]
    exact hne

/-! ## After an insertion -/

section Insert

-- how the node above the node above is found once `z` is on the outer side
variable (grand : Links ι → ι → ι → Option ι)

def insertFinish (d : Side) (z g : ι) (s : Links ι) : Option (Links ι) := do
  let p ← s.parent z
  let s := s.setRed p false
  let g ← grand s z g
  (s.setRed g true).rotate d.flip g

/-- One round of the loop: `p` is above `z`, and both are red. -/
def insertRound (z p : ι) (s : Links ι) : Option (ι × Links ι) := do
  let g ← s.parent p
  let d := s.sideOf g (some p)
  let y := s.child d.flip g
  if s.isRed y then some (g, ((s.setRed p false).paint y false).setRed g true)
  else if s.child d.flip p = some z then do
    let s ← s.rotate d p
    let s ← s.insertFinish grand d p g
    some (p, s)
  else do
    let s ← s.insertFinish grand d z g
    some (z, s)

def insertLoop : ℕ → ι → Links ι → Option (Links ι)
  | 0, _, _ => none
  | fuel + 1, z, s =>
    match s.parent z with
    | none => some s
    | some p =>
      if s.red p then do
        let (z, s) ← s.insertRound grand z p
        insertLoop fuel z s
      else some s

variable {grand}

theorem insertFinish_spec
    (hgrand : ∀ {s : Links ι} {z p g}, s.parent z = some p → s.parent p = some g →
      grand s z g = some g)
    (hl : l.Nodup) (h : s.Shape l (⟨d, i, true, b⟩ :: ⟨d, g, false, u⟩ :: p) t)
    (ht : t.ptr = some z) :
    ∃ s', s.insertFinish grand d z g = some s' ∧
      s'.Shape l (⟨d, i, false, make d.flip g true u b⟩ :: p) t := by
  have hz : s.parent z = some i := h.parent ht
  have hred := (shape_fill.mp h).setRed hl false
  have hi : (s.setRed i false).parent i = some g := hred.node.1
  have hg := (shape_fill.mp hred).setRed hl true
  -- seen from the other side, the rotation brings up the node above `z`
  have hflip : ((s.setRed i false).setRed g true).Shape l p
      (make d.flip g true u (make d.flip i false b t)) := by
    rw [make_flip, make_flip]
    exact hg
  obtain ⟨s', hrotate, hs'⟩ := hflip.rotate hl
  refine ⟨s', ?_, ?_⟩
  · unfold insertFinish
    rw [hz, Option.bind_eq_bind, Option.bind_some]
    dsimp only
    rw [hgrand (s := s.setRed i false) hz hi, Option.bind_some, hrotate]
  · rw [make_flip] at hs'
    exact shape_near.mp hs'

theorem insertRound_spec
    (hgrand : ∀ {s : Links ι} {z p g}, s.parent z = some p → s.parent p = some g →
      grand s z g = some g)
    (hl : l.Nodup) {f e : RbFrame ι} (hf : f.red = true) (he : e.red = false)
    (h : s.Shape l (f :: e :: p) t) (ht : t.ptr = some z) (hred : t.isRed = true)
    (hheight : t.Height n) (hfits : Fits (f :: e :: p) n) :
    ∃ z' s' p' t' m, s.insertRound grand z f.id = some (z', s') ∧ s'.Shape l p' t' ∧
      t'.ptr = some z' ∧ t'.isRed = true ∧ t'.Height m ∧ Fits p' m ∧ p'.length ≤ p.length + 1 := by
  obtain ⟨d', i, c, b⟩ := f
  obtain ⟨d, g, c', u⟩ := e
  cases hf
  cases he
  obtain ⟨hb, ⟨hblack, -⟩, hfits'⟩ := (fits_red rfl).mp hfits
  obtain ⟨hu, hp⟩ := (fits_black rfl).mp hfits'
  dsimp only at hb hblack hu
  have h' := shape_fill.mp h
  have hi : s.parent i = some g := h'.node.1
  have hside : s.sideOf g (some i) = d := by
    have hptr : (RbFrame.fill ⟨d', i, true, b⟩ t).ptr = some i := ptr_make
    rw [← hptr]
    exact sideOf_eq h' (ptr_ne h' hl hptr)
  have hg := shape_fill.mp h'
  have huncle : s.child d.flip g = u.ptr := hg.node.2.2.2
  have hbelow : s.isRed u.ptr = u.isRed := isRed_of_below (at_make.mp hg.holds).2.2.2
  unfold insertRound
  rw [hi, Option.bind_eq_bind, Option.bind_some]
  dsimp only
  rw [hside, huncle, hbelow]
  cases hu' : u.isRed with
  | true =>
    have hs₁ := h'.setRed hl false
    have hs₂ := (shape_far.mp (shape_fill.mp hs₁)).blacken hl
    have hs₃ := (shape_far.mpr hs₂).setRed hl true
    refine ⟨g, _, p, _, n + 1, if_pos rfl, hs₃, ptr_make, isRed_make, ?_, hp, Nat.le_succ _⟩
    exact height_red.mpr ⟨⟨isRed_make, isRed_blacken⟩, height_black.mpr ⟨hheight, hb⟩,
      height_blacken hu hu'⟩
  | false =>
    rw [if_neg (by decide)]
    by_cases hinner : d' = d
    · subst hinner
      have hchild : s.child d'.flip i ≠ some z := by
        rw [h'.node.2.2.2, ← ht]
        exact ptr_ne h hl ht
      rw [if_neg hchild]
      obtain ⟨s', hfinish, hs'⟩ := insertFinish_spec hgrand hl h ht
      rw [hfinish]
      refine ⟨z, s', _, t, n, rfl, hs', ht, hred, hheight, ?_, Nat.le_refl _⟩
      exact (fits_black rfl).mpr ⟨height_red.mpr ⟨⟨hu', hblack⟩, hu, hb⟩, hp⟩
    · obtain rfl := Side.eq_flip_of_ne hinner
      have hchild : s.child d.flip i = some z := h'.node.2.2.1.trans ht
      rw [if_pos hchild]
      -- `z` is on the inner side: a rotation changes places with the node above it
      obtain ⟨a₁, a₂, hmake⟩ := exists_make d ht
      rw [hred] at hmake
      subst hmake
      obtain ⟨⟨hblack₁, hblack₂⟩, ha₁, ha₂⟩ := height_red.mp hheight
      have hinner' : s.Shape l (⟨d, g, false, u⟩ :: p) (make d i true b (make d z true a₁ a₂)) := by
        rw [← make_flip]
        exact h'
      obtain ⟨s₁, hrotate, hs₁⟩ := hinner'.rotate hl
      obtain ⟨s', hfinish, hs'⟩ := insertFinish_spec hgrand hl (shape_near.mp hs₁) ptr_make
      rw [hrotate, Option.bind_eq_bind, Option.bind_some, hfinish]
      refine ⟨i, s', _, _, n, rfl, hs', ptr_make, isRed_make, ?_, ?_, Nat.le_refl _⟩
      · exact height_red.mpr ⟨⟨hblack, hblack₁⟩, hb, ha₁⟩
      · exact (fits_black rfl).mpr ⟨height_red.mpr ⟨⟨hu', hblack₂⟩, hu, ha₂⟩, hp⟩

theorem insertLoop_spec
    (hgrand : ∀ {s : Links ι} {z p g}, s.parent z = some p → s.parent p = some g →
      grand s z g = some g)
    (hl : l.Nodup) (h : s.Shape l p t) (ht : t.ptr = some z) (hred : t.isRed = true)
    (hheight : t.Height n) (hfits : Fits p n) (hfuel : p.length < fuel) :
    ∃ s' t' m, insertLoop grand fuel z s = some s' ∧ s'.Shape l [] t' ∧ t'.Height m := by
  induction fuel generalizing s p t z n with
  | zero => exact absurd hfuel (Nat.not_lt_zero _)
  | succ fuel ih =>
    have hz : s.parent z = above p := h.parent ht
    unfold insertLoop
    rw [hz]
    cases p with
    | nil => exact ⟨s, t, n, rfl, h, hheight⟩
    | cons f p =>
      have hf : s.red f.id = f.red := (shape_fill.mp h).node.2.1
      change ∃ s' t' m, (if s.red f.id = true then _ else _) = _ ∧ _
      rw [hf]
      cases hfred : f.red with
      | false =>
        rw [if_neg (by decide)]
        have htight : tight (f :: p) = true → t.isRed = false := by
          intro h
          change f.red = true at h
          rw [hfred] at h
          cases h
        obtain ⟨-, m, hm⟩ := redBlack_plug hfits hheight htight
        exact ⟨s, _, m, rfl, shape_plug.mp h, hm⟩
      | true =>
        rw [if_pos rfl]
        obtain ⟨-, ⟨-, htight⟩, -⟩ := (fits_red hfred).mp hfits
        cases p with
        | nil => cases htight
        | cons e p =>
          obtain ⟨z', s', p', t', m, hround, hs', ht', hred', hheight', hfits', hlength⟩ :=
            insertRound_spec hgrand hl hfred htight h ht hred hheight hfits
          rw [hround, Option.bind_eq_bind, Option.bind_some]
          apply ih hs' ht' hred' hheight' hfits'
          rw [List.length_cons, List.length_cons] at hfuel
          omega

end Insert

/-! ## After a removal -/

/-- The sibling `w` of a place below `q`, after a red one has been rotated above `q`. -/
def eraseSibling (d : Side) (q w : ι) (s : Links ι) : Option (ι × Links ι) :=
  if s.red w then do
    let s ← ((s.setRed w false).setRed q true).rotate d q
    let w ← s.child d.flip q
    some (w, s)
  else some (w, s)

/-- The sibling of a place below `q`, after a rotation that makes its outer child red. -/
def eraseTurn (d : Side) (q w : ι) (s : Links ι) : Option (ι × Links ι) :=
  if s.isRed (s.child d.flip w) then some (w, s)
  else do
    let s ← ((s.paint (s.child d w) false).setRed w true).rotate d.flip w
    let w ← s.child d.flip q
    some (w, s)

def eraseFinish (d : Side) (q w : ι) (s : Links ι) : Option (Links ι) := do
  let (w, s) ← s.eraseTurn d q w
  let s := (s.setRed w (s.red q)).setRed q false
  let s := s.paint (s.child d.flip w) false
  s.rotate d q

def eraseLoop : ℕ → Option ι → Option ι → Links ι → Option (Option ι × Links ι)
  | 0, _, _, _ => none
  | fuel + 1, x, xParent, s =>
    if s.isRed x ∨ x = s.root then some (x, s)
    else do
      let q ← xParent
      let d := s.sideOf q x
      let w ← s.child d.flip q
      let (w, s) ← s.eraseSibling d q w
      if s.isRed (s.child d w) ∨ s.isRed (s.child d.flip w) then do
        let s ← s.eraseFinish d q w
        some (s.root, s)
      else eraseLoop fuel (some q) (s.parent q) (s.setRed w true)

variable {q w k : ι} {c : Bool}

theorem eraseSibling_spec (hl : l.Nodup) (h : s.Shape l (⟨d, q, c, u⟩ :: p) t) (hu : u.ptr = some w)
    (hfits : Fits (⟨d, q, c, u⟩ :: p) (n + 1)) :
    ∃ w' s' c' u' p', s.eraseSibling d q w = some (w', s') ∧ s'.Shape l (⟨d, q, c', u'⟩ :: p') t ∧
      u'.ptr = some w' ∧ u'.isRed = false ∧ Fits (⟨d, q, c', u'⟩ :: p') (n + 1) ∧
      (p'.length = p.length ∨ c' = true ∧ p'.length = p.length + 1) := by
  have hred : s.red w = u.isRed := by
    have hbelow := isRed_of_below (at_make.mp (shape_near.mpr h).holds).2.2.2
    rw [hu] at hbelow
    exact hbelow
  unfold eraseSibling
  rw [hred]
  cases hu' : u.isRed with
  | false => exact ⟨w, s, c, u, p, rfl, h, hu, hu', hfits, Or.inl rfl⟩
  | true =>
    rw [if_pos rfl]
    obtain ⟨a, b, hmake⟩ := exists_make d hu
    rw [hu'] at hmake
    subst hmake
    -- a red sibling has a black node above it and black children
    have hc : c = false := by
      cases c with
      | false => rfl
      | true =>
        obtain ⟨-, ⟨hblack, -⟩, -⟩ := (fits_red rfl).mp hfits
        rw [hu'] at hblack
        cases hblack
    subst hc
    obtain ⟨hheight, hp⟩ := (fits_black rfl).mp hfits
    obtain ⟨⟨hblack, hblack'⟩, ha, hb⟩ := height_red.mp hheight
    have hs₁ := (shape_far.mp (shape_near.mpr h)).setRed hl false
    have hs₂ := (shape_far.mpr hs₁).setRed hl true
    obtain ⟨s', hrotate, hs'⟩ := hs₂.rotate hl
    have hs'' := shape_near.mp (shape_near.mp hs')
    obtain ⟨w', hw'⟩ := exists_ptr ha
    refine ⟨w', s', true, a, _, ?_, hs'', hw', hblack, ?_, Or.inr ⟨rfl, rfl⟩⟩
    · rw [hrotate, Option.bind_eq_bind, Option.bind_some, hs''.sibling, hw']
      rfl
    · exact (fits_red rfl).mpr ⟨ha, ⟨hblack, rfl⟩, (fits_black rfl).mpr ⟨hb, hp⟩⟩

theorem eraseTurn_spec (hl : l.Nodup) (h : s.Shape l (⟨d, q, c, make d w false a b⟩ :: p) t)
    (ha : a.Height n) (hb : b.Height n) (hred : a.isRed = true ∨ b.isRed = true) :
    ∃ w' s' a' b', s.eraseTurn d q w = some (w', s') ∧
      s'.Shape l (⟨d, q, c, make d w' false a' b'⟩ :: p) t ∧
      a'.Height n ∧ b'.Height n ∧ b'.isRed = true := by
  have hw := shape_far.mp (shape_near.mpr h)
  have hchild : s.child d w = a.ptr ∧ s.child d.flip w = b.ptr := hw.node.2.2
  have hbelow : s.isRed b.ptr = b.isRed := isRed_of_below (at_make.mp hw.holds).2.2.2
  unfold eraseTurn
  rw [hchild.1, hchild.2, hbelow]
  cases hb' : b.isRed with
  | true => exact ⟨w, s, a, b, rfl, h, ha, hb, hb'⟩
  | false =>
    rw [if_neg (by decide)]
    have ha' : a.isRed = true := by
      rcases hred with hred | hred
      · exact hred
      · rw [hb'] at hred
        cases hred
    have hptr : ∃ k, a.ptr = some k := by
      cases a with
      | nil => cases ha'
      | node k c l r => exact ⟨k, rfl⟩
    obtain ⟨k, hk⟩ := hptr
    obtain ⟨a₁, a₂, hmake⟩ := exists_make d hk
    rw [ha'] at hmake
    subst hmake
    obtain ⟨⟨hblack₁, hblack₂⟩, ha₁, ha₂⟩ := height_red.mp ha
    have hs₁ := (shape_near.mp hw).blacken hl
    rw [blacken_make] at hs₁
    have hs₂ := (shape_near.mpr hs₁).setRed hl true
    have hflip : ((s.paint (make d k true a₁ a₂).ptr false).setRed w true).Shape l
        (⟨d.flip, q, c, t⟩ :: p) (make d.flip w true b (make d.flip k false a₂ a₁)) := by
      rw [make_flip, make_flip]
      exact hs₂
    obtain ⟨s', hrotate, hs'⟩ := hflip.rotate hl
    rw [make_flip, make_flip] at hs'
    have hs'' := shape_near.mp (shape_far.mpr hs')
    refine ⟨k, s', a₁, make d w true a₂ b, ?_, hs'', ha₁, ?_, isRed_make⟩
    · rw [hrotate, Option.bind_eq_bind, Option.bind_some, hs''.sibling, ptr_make]
      rfl
    · exact height_red.mpr ⟨⟨hblack₂, hb'⟩, ha₂, hb⟩

theorem eraseFinish_spec (hl : l.Nodup) (h : s.Shape l (⟨d, q, c, make d w false a b⟩ :: p) t)
    (ht : t.Height n) (ha : a.Height n) (hb : b.Height n) (hred : a.isRed = true ∨ b.isRed = true)
    (hfits : Fits (⟨d, q, c, make d w false a b⟩ :: p) (n + 1)) :
    ∃ s' t', s.eraseFinish d q w = some s' ∧ s'.Shape l [] t' ∧ t'.RedBlack := by
  obtain ⟨w', s₁, a', b', hturn, hs₁, ha', hb', hred'⟩ := eraseTurn_spec hl h ha hb hred
  have hq : s₁.red q = c := (shape_near.mpr hs₁).node.2.1
  have hs₂ := (shape_far.mp (shape_near.mpr hs₁)).setRed hl c
  have hs₃ := (shape_far.mpr hs₂).setRed hl false
  have hs₄ := (shape_far.mp (shape_far.mp hs₃)).blacken hl
  have hchild : ((s₁.setRed w' c).setRed q false).child d.flip w' = b'.ptr :=
    (shape_far.mp hs₃).node.2.2.2
  obtain ⟨s', hrotate, hs'⟩ := (shape_far.mpr (shape_far.mpr hs₄)).rotate hl
  refine ⟨s', _, ?_, shape_plug.mp hs', ?_⟩
  · unfold eraseFinish
    rw [hturn, Option.bind_eq_bind, Option.bind_some]
    dsimp only
    rw [hq, hchild, hrotate]
  · cases c with
    | true =>
      obtain ⟨-, ⟨-, htight⟩, hp⟩ := (fits_red rfl).mp hfits
      refine redBlack_plug hp (height_red.mpr ⟨⟨isRed_make, isRed_blacken⟩,
        height_black.mpr ⟨ht, ha'⟩, height_blacken hb' hred'⟩) ?_
      intro h
      rw [htight] at h
      cases h
    | false =>
      obtain ⟨-, hp⟩ := (fits_black rfl).mp hfits
      exact redBlack_plug hp (height_black.mpr
        ⟨height_black.mpr ⟨ht, ha'⟩, height_blacken hb' hred'⟩) fun _ => isRed_make

theorem eraseLoop_spec (hl : l.Nodup) (h : s.Shape l p t) (hshort : t.Short n)
    (hfits : Fits p (n + 1)) (hfuel : p.length + (if t.isRed then 0 else 1) < fuel) :
    ∃ x' s' t', eraseLoop fuel t.ptr (above p) s = some (x', s') ∧
      (s'.paint x' false).Shape l [] t' ∧ t'.RedBlack := by
  induction fuel generalizing s p t n with
  | zero => exact absurd hfuel (Nat.not_lt_zero _)
  | succ fuel ih =>
    unfold eraseLoop
    rw [isRed_of_below h.holds.2]
    cases hred : t.isRed with
    | true =>
      rw [if_pos (Or.inl rfl)]
      unfold Short at hshort
      rw [if_pos hred] at hshort
      exact ⟨_, s, _, rfl, shape_plug.mp (h.blacken hl),
        redBlack_plug hfits hshort fun _ => isRed_blacken⟩
    | false =>
      unfold Short at hshort
      rw [if_neg (by simp [hred])] at hshort
      cases p with
      | nil =>
        rw [if_pos (Or.inr h.root.symm)]
        exact ⟨_, s, _, rfl, h.blacken hl, RedBlack.of_height hshort⟩
      | cons f p =>
        rw [if_neg (by simpa using h.root_ne hl)]
        obtain ⟨d, q, c, u⟩ := f
        obtain ⟨w, hw⟩ := exists_ptr hfits.1
        have hne : u.ptr ≠ t.ptr := fun heq => ptr_ne h hl (heq.symm.trans hw) heq
        change ∃ x' s' t', ((some q).bind fun q => _) = _ ∧ _
        rw [Option.bind_some]
        dsimp only
        rw [sideOf_eq h hne, h.sibling, hw]
        obtain ⟨w', s₁, c', u', p', hsibling, hs₁, hw', hblack, hfits', hlength⟩ :=
          eraseSibling_spec hl h hw hfits
        rw [Option.bind_eq_bind, Option.bind_some, hsibling, Option.bind_eq_bind, Option.bind_some]
        obtain ⟨a, b, hmake⟩ := exists_make d hw'
        rw [hblack] at hmake
        subst hmake
        have hheight := hfits'.1
        obtain ⟨ha, hb⟩ := height_black.mp hheight
        have hfar := shape_far.mp (shape_near.mpr hs₁)
        have hchild := hfar.node.2.2
        have hbelow := (at_make.mp hfar.holds).2.2
        dsimp only
        rw [hchild.1, hchild.2, isRed_of_below hbelow.1, isRed_of_below hbelow.2]
        by_cases hfinish : a.isRed = true ∨ b.isRed = true
        · rw [if_pos hfinish]
          obtain ⟨s', t', heq, hs', ht'⟩ :=
            eraseFinish_spec hl hs₁ hshort ha hb hfinish hfits'
          rw [heq]
          refine ⟨_, s', t'.blacken, rfl, ?_, ?_⟩
          · rw [hs'.root]
            exact hs'.blacken hl
          · rw [blacken_of_black ht'.1]
            exact ht'
        · rw [if_neg hfinish]
          -- the sibling becomes red, and the node above is the next place
          have hs₂ := shape_far.mpr (hfar.setRed hl true)
          have hq : s₁.parent q = above p' := (shape_near.mpr hs₁).node.1
          simp only [not_or, Bool.not_eq_true] at hfinish
          have hchildren : t.Height n ∧ (make d w' true a b).Height n :=
            ⟨hshort, height_red.mpr ⟨hfinish, ha, hb⟩⟩
          rw [hq]
          have hptr : (make d q c' t (make d w' true a b)).ptr = some q := ptr_make
          rw [← hptr]
          rw [hred] at hfuel
          simp only [List.length_cons, if_neg, Bool.false_eq_true, not_false_eq_true] at hfuel
          cases c' with
          | true =>
            obtain ⟨-, -, hp'⟩ := (fits_red rfl).mp hfits'
            refine ih (n := n) hs₂ ?_ hp' ?_
            · unfold Short
              rw [isRed_make, if_pos rfl, blacken_make]
              exact height_black.mpr hchildren
            · rw [isRed_make, if_pos rfl]
              omega
          | false =>
            obtain ⟨-, hp'⟩ := (fits_black rfl).mp hfits'
            refine ih (n := n + 1) hs₂ ?_ hp' ?_
            · unfold Short
              rw [isRed_make, if_neg (by decide)]
              exact height_black.mpr hchildren
            · rw [isRed_make, if_neg (by decide)]
              simp only [Bool.false_eq_true, false_and, or_false] at hlength
              omega

end Links

end RetroRocket
