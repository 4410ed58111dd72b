import Mathlib.Data.List.Nodup
import Mathlib.Data.List.Perm.Basic
import Mathlib.Tactic.Common

/-!
# Red-black trees with a place in them

A tree of named nodes with two colours, and the path from a place in it up to the root, each frame
of which has the node above and the subtree on its other side. The two sides are treated alike: what
is built with `make` has its first subtree on the given side.
-/

namespace RetroRocket

variable {ι : Type*}

inductive Side where
  | left
  | right
  deriving DecidableEq

namespace Side

def flip : Side → Side
  | left => right
  | right => left

@[simp] theorem flip_flip (d : Side) : d.flip.flip = d := by cases d <;> rfl

@[simp] theorem flip_ne (d : Side) : d.flip ≠ d := by cases d <;> decide

@[simp] theorem ne_flip (d : Side) : d ≠ d.flip := by cases d <;> decide

theorem eq_flip_of_ne {d e : Side} (h : d ≠ e) : d = e.flip := by
  cases d <;> cases e <;> first | rfl | exact absurd rfl h

end Side

inductive RbTree (ι : Type*) where
  | nil
  | node (id : ι) (red : Bool) (left right : RbTree ι)

namespace RbTree

def ptr : RbTree ι → Option ι
  | nil => none
  | node i _ _ _ => some i

def isRed : RbTree ι → Bool
  | nil => false
  | node _ c _ _ => c

def ids : RbTree ι → List ι
  | nil => []
  | node i _ l r => l.ids ++ i :: r.ids

def blacken : RbTree ι → RbTree ι
  | nil => nil
  | node i _ l r => node i false l r

/-- A node with the subtree `a` on the side `d` and `b` on the other. -/
def make (d : Side) (i : ι) (c : Bool) (a b : RbTree ι) : RbTree ι :=
  match d with
  | .left => node i c a b
  | .right => node i c b a

variable {d : Side} {i j : ι} {c c' : Bool} {a b t u : RbTree ι} {n : ℕ}

@[simp] theorem ptr_make : (make d i c a b).ptr = some i := by cases d <;> rfl

@[simp] theorem isRed_make : (make d i c a b).isRed = c := by cases d <;> rfl

@[simp] theorem blacken_make : (make d i c a b).blacken = make d i false a b := by cases d <;> rfl

@[simp] theorem isRed_blacken : t.blacken.isRed = false := by cases t <;> rfl

@[simp] theorem ids_blacken : t.blacken.ids = t.ids := by cases t <;> rfl

@[simp] theorem ptr_blacken : t.blacken.ptr = t.ptr := by cases t <;> rfl

theorem make_flip : make d.flip i c a b = make d i c b a := by cases d <;> rfl

theorem blacken_of_black (h : t.isRed = false) : t.blacken = t := by
  cases t with
  | nil => rfl
  | node i c l r =>
    change c = false at h
    rw [h]
    rfl

theorem exists_make (d : Side) (h : t.ptr = some i) :
    ∃ a b, t = make d i t.isRed a b := by
  cases t with
  | nil => cases h
  | node j c l r =>
    cases h
    cases d with
    | left => exact ⟨l, r, rfl⟩
    | right => exact ⟨r, l, rfl⟩

theorem ids_make_perm : (make d i c a b).ids.Perm (i :: (a.ids ++ b.ids)) := by
  cases d with
  | left => exact List.perm_middle
  | right => exact List.perm_middle.trans (List.perm_append_comm.cons i)

theorem mem_ids_make {k : ι} : k ∈ (make d i c a b).ids ↔ k = i ∨ k ∈ a.ids ∨ k ∈ b.ids := by
  rw [ids_make_perm.mem_iff, List.mem_cons, List.mem_append]

theorem ids_make_color : (make d i c a b).ids = (make d i c' a b).ids := by cases d <;> rfl

theorem ids_rotate {e : RbTree ι} :
    (make d j c (make d i c' a b) e).ids = (make d i c' a (make d j c b e)).ids := by
  cases d <;> simp [make, ids]

theorem mem_ids_of_ptr (h : t.ptr = some i) : i ∈ t.ids := by
  obtain ⟨a, b, ht⟩ := exists_make .left h
  rw [ht, mem_ids_make]
  exact Or.inl rfl

/-! ## Colours and heights -/

/-- No red node has a red child, and every path down passes `n` black nodes. -/
def Height : RbTree ι → ℕ → Prop
  | nil, n => n = 0
  | node _ true l r, n => (l.isRed = false ∧ r.isRed = false) ∧ l.Height n ∧ r.Height n
  | node _ false l r, n => ∃ m, n = m + 1 ∧ l.Height m ∧ r.Height m

def RedBlack (t : RbTree ι) : Prop := t.isRed = false ∧ ∃ n, t.Height n

theorem height_red :
    (make d i true a b).Height n ↔
      (a.isRed = false ∧ b.isRed = false) ∧ a.Height n ∧ b.Height n := by
  cases d with
  | left => exact Iff.rfl
  | right => exact and_congr and_comm and_comm

theorem height_black_iff :
    (make d i false a b).Height n ↔ ∃ m, n = m + 1 ∧ a.Height m ∧ b.Height m := by
  cases d with
  | left => exact Iff.rfl
  | right => exact exists_congr fun m => and_congr_right fun _ => and_comm

theorem height_black : (make d i false a b).Height (n + 1) ↔ a.Height n ∧ b.Height n := by
  rw [height_black_iff]
  constructor
  · rintro ⟨m, hm, h⟩
    cases hm
    exact h
  · exact fun h => ⟨n, rfl, h⟩

theorem height_blacken (h : t.Height n) (hred : t.isRed = true) : t.blacken.Height (n + 1) := by
  cases t with
  | nil => cases hred
  | node i c l r =>
    cases hred
    exact ⟨n, rfl, h.2⟩

theorem RedBlack.of_height (h : t.Height n) : t.blacken.RedBlack := by
  refine ⟨isRed_blacken, ?_⟩
  cases hred : t.isRed with
  | true => exact ⟨_, height_blacken h hred⟩
  | false =>
    rw [blacken_of_black hred]
    exact ⟨n, h⟩

theorem redBlack_nil : (nil : RbTree ι).RedBlack := ⟨rfl, 0, rfl⟩

/-- The subtree has one black node less than `n + 1`, or its root can be painted black. -/
def Short (t : RbTree ι) (n : ℕ) : Prop :=
  if t.isRed then t.blacken.Height (n + 1) else t.Height n

theorem exists_ptr (h : t.Height (n + 1)) : ∃ i, t.ptr = some i := by
  cases t with
  | nil => cases h
  | node i c l r => exact ⟨i, rfl⟩

end RbTree

/-! ## Places -/

structure RbFrame (ι : Type*) where
  side : Side
  id : ι
  red : Bool
  sibling : RbTree ι

namespace RbFrame

def fill (f : RbFrame ι) (t : RbTree ι) : RbTree ι := RbTree.make f.side f.id f.red t f.sibling

end RbFrame

abbrev RbPath (ι : Type*) := List (RbFrame ι)

namespace RbPath

open RbTree

def plug : RbPath ι → RbTree ι → RbTree ι
  | [], t => t
  | f :: p, t => plug p (f.fill t)

def above : RbPath ι → Option ι
  | [] => none
  | f :: _ => some f.id

def ids : RbPath ι → List ι
  | [] => []
  | f :: p => f.id :: (f.sibling.ids ++ ids p)

def before : RbPath ι → List ι
  | [] => []
  | f :: p => match f.side with
    | .left => before p
    | .right => before p ++ (f.sibling.ids ++ [f.id])

def after : RbPath ι → List ι
  | [] => []
  | f :: p => match f.side with
    | .left => f.id :: (f.sibling.ids ++ after p)
    | .right => after p

variable {p q : RbPath ι} {f : RbFrame ι} {t u : RbTree ι} {n : ℕ} {i : ι}

@[simp] theorem plug_nil : plug [] t = t := rfl

@[simp] theorem plug_cons : plug (f :: p) t = plug p (f.fill t) := rfl

theorem plug_append : plug (p ++ q) t = plug q (plug p t) := by
  induction p generalizing t with
  | nil => rfl
  | cons f p ih => exact ih

theorem before_append : before (p ++ q) = before q ++ before p := by
  induction p with
  | nil => exact (List.append_nil _).symm
  | cons f p ih =>
    rw [List.cons_append, before, before]
    cases f.side with
    | left => exact ih
    | right => rw [ih, List.append_assoc]

theorem ids_plug : (plug p t).ids = before p ++ (t.ids ++ after p) := by
  induction p generalizing t with
  | nil => exact (List.append_nil _).symm
  | cons f p ih =>
    rw [plug_cons, ih, RbFrame.fill, before, after]
    cases f.side <;> simp [make, RbTree.ids]

theorem ids_plug_congr (h : t.ids = u.ids) : (plug p t).ids = (plug p u).ids := by
  rw [ids_plug, ids_plug, h]

theorem ids_plug_perm : (plug p t).ids.Perm (t.ids ++ ids p) := by
  induction p generalizing t with
  | nil => rw [plug_nil, ids, List.append_nil]
  | cons f p ih =>
    refine ih.trans ?_
    have hfill := (ids_make_perm (d := f.side) (i := f.id) (c := f.red) (a := t)
      (b := f.sibling)).append_right (ids p)
    refine hfill.trans ?_
    rw [ids, List.cons_append, List.append_assoc]
    exact List.perm_middle.symm

theorem mem_ids : i ∈ ids p ↔ i ∈ before p ∨ i ∈ after p := by
  have h := (ids_plug_perm (p := p) (t := (nil : RbTree ι))).mem_iff (a := i)
  rw [ids_plug] at h
  simpa [RbTree.ids] using h.symm

theorem exists_plug (h : i ∈ t.ids) : ∃ p c a b, t = plug p (make .left i c a b) := by
  induction t with
  | nil => cases h
  | node j c a b iha ihb =>
    rcases List.mem_append.mp h with h | h
    · obtain ⟨p, c', a', b', ha⟩ := iha h
      refine ⟨p ++ [⟨.left, j, c, b⟩], c', a', b', ?_⟩
      rw [plug_append, ← ha]
      rfl
    · rcases List.mem_cons.mp h with rfl | h
      · exact ⟨[], c, a, b, rfl⟩
      · obtain ⟨p, c', a', b', hb⟩ := ihb h
        refine ⟨p ++ [⟨.right, j, c, a⟩], c', a', b', ?_⟩
        rw [plug_append, ← hb]
        rfl

theorem length_le : p.length ≤ (plug p t).ids.length := by
  rw [ids_plug_perm.length_eq, List.length_append]
  have h : p.length ≤ (ids p).length := by
    induction p with
    | nil => exact Nat.zero_le _
    | cons f p ih =>
      rw [ids, List.length_cons, List.length_cons, List.length_append]
      omega
  omega

theorem nodup_plug : (plug p t).ids.Nodup ↔
    t.ids.Nodup ∧ (ids p).Nodup ∧ ∀ k ∈ t.ids, k ∉ ids p := by
  rw [ids_plug_perm.nodup_iff, List.nodup_append]
  refine and_congr_right fun _ => and_congr_right fun _ => ?_
  constructor
  · exact fun h k hk hk' => h k hk k hk' rfl
  · rintro h k hk l hl rfl
    exact h k hk hl

/-! ## Colours and heights -/

def tight : RbPath ι → Bool
  | [] => true
  | f :: _ => f.red

def Fits : RbPath ι → ℕ → Prop
  | [], _ => True
  | f :: p, n => f.sibling.Height n ∧
      if f.red then (f.sibling.isRed = false ∧ tight p = false) ∧ Fits p n else Fits p (n + 1)

theorem redBlack_plug (hp : Fits p n) (ht : t.Height n)
    (htight : tight p = true → t.isRed = false) : (plug p t).RedBlack := by
  induction p generalizing t n with
  | nil => exact ⟨htight rfl, n, ht⟩
  | cons f p ih =>
    obtain ⟨hsibling, hp⟩ := hp
    rw [plug_cons]
    unfold RbFrame.fill
    cases hred : f.red with
    | true =>
      rw [if_pos hred] at hp
      refine ih hp.2 (height_red.mpr ⟨⟨htight hred, hp.1.1⟩, ht, hsibling⟩) ?_
      intro h
      rw [hp.1.2] at h
      cases h
    | false =>
      rw [if_neg (by simp [hred])] at hp
      exact ih hp (height_black.mpr ⟨ht, hsibling⟩) fun _ => isRed_make

theorem fits_of_redBlack (h : (plug p t).RedBlack) :
    ∃ n, Fits p n ∧ t.Height n ∧ (tight p = true → t.isRed = false) := by
  induction p generalizing t with
  | nil =>
    obtain ⟨hblack, n, hn⟩ := h
    exact ⟨n, trivial, hn, fun _ => hblack⟩
  | cons f p ih =>
    obtain ⟨n, hp, hn, htight⟩ := ih h
    unfold RbFrame.fill at hn htight
    rw [isRed_make] at htight
    cases hred : f.red with
    | true =>
      rw [hred] at hn htight
      obtain ⟨⟨hblack, hblack'⟩, ht, hsibling⟩ := height_red.mp hn
      refine ⟨n, ⟨hsibling, ?_⟩, ht, fun _ => hblack⟩
      rw [if_pos hred]
      refine ⟨⟨hblack', ?_⟩, hp⟩
      cases h : tight p with
      | true => exact absurd (htight h) (by decide)
      | false => rfl
    | false =>
      rw [hred] at hn
      obtain ⟨m, rfl, ht, hsibling⟩ := height_black_iff.mp hn
      refine ⟨m, ⟨hsibling, ?_⟩, ht, ?_⟩
      · rw [if_neg (by simp [hred])]
        exact hp
      · intro h
        change f.red = true at h
        rw [hred] at h
        cases h

theorem fits_red (hred : f.red = true) : Fits (f :: p) n ↔
    f.sibling.Height n ∧ (f.sibling.isRed = false ∧ tight p = false) ∧ Fits p n := by
  rw [Fits, if_pos hred]

theorem fits_black (hred : f.red = false) :
    Fits (f :: p) n ↔ f.sibling.Height n ∧ Fits p (n + 1) := by
  rw [Fits, if_neg (by simp [hred])]

theorem redBlack_rename {d : Side} {c : Bool} {a : RbTree ι} {j : ι}
    (h : (plug (p ++ ⟨d, i, c, a⟩ :: q) t).RedBlack) :
    (plug (p ++ ⟨d, j, c, a⟩ :: q) t).RedBlack := by
  have htight :
      ∀ p : RbPath ι, tight (p ++ ⟨d, i, c, a⟩ :: q) = tight (p ++ ⟨d, j, c, a⟩ :: q) := by
    intro p
    cases p <;> rfl
  have hfits : ∀ {n}, Fits (p ++ ⟨d, i, c, a⟩ :: q) n → Fits (p ++ ⟨d, j, c, a⟩ :: q) n := by
    clear h
    induction p with
    | nil => exact fun h => h
    | cons f p ih =>
      intro n h
      rw [List.cons_append, Fits] at h ⊢
      rw [← htight]
      split at h
      · next hred =>
        rw [if_pos hred]
        exact ⟨h.1, h.2.1, ih h.2.2⟩
      · next hred =>
        rw [if_neg hred]
        exact ⟨h.1, ih h.2⟩
  obtain ⟨n, hp, hn, hblack⟩ := fits_of_redBlack h
  rw [htight] at hblack
  exact redBlack_plug (hfits hp) hn hblack

theorem ids_of_removed [DecidableEq ι] {d : Side} {c : Bool}
    (hn : (plug p (make d i c nil t)).ids.Nodup) :
    (plug p t).ids = (plug p (make d i c nil t)).ids.erase i := by
  obtain ⟨ht, -, hapart⟩ := nodup_plug.mp hn
  rw [ids_make_perm.nodup_iff, List.nodup_cons] at ht
  have hbefore : i ∉ before p := fun hmem =>
    hapart i (mem_ids_of_ptr ptr_make) (mem_ids.mpr (Or.inl hmem))
  have hit : i ∉ t.ids := ht.1
  rw [ids_plug, ids_plug, List.erase_append_right _ hbefore]
  cases d with
  | left =>
    change _ = _ ++ (i :: (t.ids ++ _)).erase i
    rw [List.erase_cons_head]
  | right =>
    change _ = _ ++ ((t.ids ++ [i]) ++ _).erase i
    rw [List.append_assoc, List.erase_append_right _ hit, List.singleton_append,
      List.erase_cons_head]

/-- What is left of a place when a node with one child is taken out there: if the node was black,
the subtree in its place is one black node short. -/
theorem fits_of_removed {d : Side} {c : Bool} (h : (plug p (make d i c nil t)).RedBlack) :
    (c = true → (plug p t).RedBlack) ∧
      (c = false → ∃ n, Fits p (n + 1) ∧ t.Height n) := by
  obtain ⟨n, hp, hn, htight⟩ := fits_of_redBlack h
  cases c with
  | true =>
    obtain ⟨⟨-, hblack⟩, -, ht⟩ := height_red.mp hn
    exact ⟨fun _ => redBlack_plug hp ht fun _ => hblack, fun h => Bool.noConfusion h⟩
  | false =>
    obtain ⟨m, rfl, -, ht⟩ := height_black_iff.mp hn
    exact ⟨fun h => Bool.noConfusion h, fun _ => ⟨m, hp, ht⟩⟩

theorem exists_ptr_plug : ∃ k, (plug (f :: p) t).ptr = some k := by
  induction p generalizing f t with
  | nil => exact ⟨f.id, ptr_make⟩
  | cons e p ih => exact ih

end RbPath

end RetroRocket
