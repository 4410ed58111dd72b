import RetroRocket.ArrayStatements
import RetroRocket.Bits

/-!
# The order of sorted indices

What ARRSORTBY leaves in the index array. Each division puts the elements that are not above the
pivot before those that are not below it, and the parts are then sorted in their places. The order
of the keys is any total one in which an element out of order with another one is above it.
-/

namespace RetroRocket

section

variable {α : Type} {outOfOrder : α → α → Option Bool} {bound : ℕ} {P : α → Prop}
    {le : α → α → Prop}
  {u v w : ℕ → α} {pivot x y : α} {i j k r low high fuel : ℕ}

/-- On the elements in `P`, the comparison asks whether one is not before another one in a total
order. -/
structure ComparesBy (outOfOrder : α → α → Option Bool) (P : α → Prop) (le : α → α → Prop) :
    Prop where
  reads : ∀ x y, P x → P y → ∃ b, outOfOrder x y = some b ∧ (b = true ↔ ¬ le x y)
  total : ∀ x y, P x → P y → le x y ∨ le y x
  trans : ∀ x y z, P x → P y → P z → le x y → le y z → le x z

theorem ComparesBy.le_of_false (h : ComparesBy outOfOrder P le) (hx : P x) (hy : P y)
    (hrun : outOfOrder x y = some false) : le x y := by
  obtain ⟨b, hb, hiff⟩ := h.reads x y hx hy
  rw [hrun] at hb
  obtain rfl := Option.some.inj hb
  by_contra hnot
  cases hiff.mpr hnot

theorem ComparesBy.le_of_true (h : ComparesBy outOfOrder P le) (hx : P x) (hy : P y)
    (hrun : outOfOrder x y = some true) : le y x := by
  obtain ⟨b, hb, hiff⟩ := h.reads x y hx hy
  rw [hrun] at hb
  obtain rfl := Option.some.inj hb
  exact (h.total x y hx hy).resolve_left (hiff.mp rfl)

theorem ComparesBy.same (h : ComparesBy outOfOrder P le) (hx : P x) :
    outOfOrder x x = some false := by
  obtain ⟨b, hb, hiff⟩ := h.reads x x hx hx
  cases b with
  | false => exact hb
  | true => exact absurd ((h.total x x hx hx).elim id id) (hiff.mp rfl)

/-! ## The scans -/

theorem loadCell_bind_eq_some {β : Type} {g : α → Option β} {b : β}
    (h : (loadCell bound w i).bind g = some b) : g (w i) = some b := by
  unfold loadCell at h
  split at h
  · exact h
  · cases h

theorem scanRight_passes (hrun : scanRight outOfOrder bound pivot w fuel i = some r) :
    i ≤ r ∧ outOfOrder pivot (w r) = some false ∧
      ∀ m, i ≤ m → m < r → outOfOrder pivot (w m) = some true := by
  induction fuel generalizing i with
  | zero => cases hrun
  | succ fuel ih =>
    rw [scanRight] at hrun
    have hrest := loadCell_bind_eq_some hrun
    obtain ⟨b, hb, hrun⟩ := Option.bind_eq_some_iff.mp hrest
    cases b with
    | false =>
      obtain rfl := Option.some.inj hrun
      exact ⟨Nat.le_refl i, hb, fun m hm hlt => absurd hlt (Nat.not_lt.mpr hm)⟩
    | true =>
      rw [if_pos rfl] at hrun
      obtain ⟨hle, hstop, hpassed⟩ := ih hrun
      refine ⟨by omega, hstop, fun m hm hlt => ?_⟩
      by_cases heq : m = i
      · rw [heq]
        exact hb
      · exact hpassed m (by omega) hlt

theorem scanLeft_passes (hrun : scanLeft outOfOrder bound pivot w j = some r) :
    r ≤ j ∧ outOfOrder (w r) pivot = some false ∧
      ∀ m, r < m → m ≤ j → outOfOrder (w m) pivot = some true := by
  induction j with
  | zero =>
    rw [scanLeft] at hrun
    have hrest := loadCell_bind_eq_some hrun
    obtain ⟨b, hb, hrun⟩ := Option.bind_eq_some_iff.mp hrest
    cases b with
    | false =>
      obtain rfl := Option.some.inj hrun
      exact ⟨Nat.le_refl 0, hb, fun m hm hle => absurd hle (Nat.not_le.mpr hm)⟩
    | true => cases hrun
  | succ j ih =>
    rw [scanLeft] at hrun
    have hrest := loadCell_bind_eq_some hrun
    obtain ⟨b, hb, hrun⟩ := Option.bind_eq_some_iff.mp hrest
    cases b with
    | false =>
      obtain rfl := Option.some.inj hrun
      exact ⟨Nat.le_refl _, hb, fun m hm hle => absurd hle (Nat.not_le.mpr hm)⟩
    | true =>
      rw [if_pos rfl] at hrun
      obtain ⟨hle, hstop, hpassed⟩ := ih hrun
      refine ⟨by omega, hstop, fun m hm hle => ?_⟩
      by_cases heq : m = j + 1
      · rw [heq]
        exact hb
      · exact hpassed m hm (by omega)

/-! ## The division -/

/-- The elements before `i` are not above the pivot, and those behind `j` are not below it. -/
structure Divided (le : α → α → Prop) (pivot : α) (w : ℕ → α) (low high i j : ℕ) : Prop where
  left : ∀ m, low ≤ m → m < i → le (w m) pivot
  right : ∀ m, low ≤ m → j < m → m ≤ high → le pivot (w m)

theorem hoareLoop_divided (h : ComparesBy outOfOrder P le) (hpivot : P pivot)
    (hP : ∀ m, low ≤ m ∧ m < high + 1 → P (w m)) (hi : low ≤ i) (hj : j ≤ high)
    (hdivided : Divided le pivot w low high i j)
    (hrun : hoareLoop outOfOrder bound pivot fuel w i j = some (v, r)) :
    Divided le pivot v low high (r + 1) r := by
  induction fuel generalizing w i j with
  | zero => cases hrun
  | succ fuel ih =>
    rw [hoareLoop] at hrun
    obtain ⟨i', hright, hrun⟩ := Option.bind_eq_some_iff.mp hrun
    obtain ⟨j', hleft, hrun⟩ := Option.bind_eq_some_iff.mp hrun
    obtain ⟨hi', hstopRight, hpassRight⟩ := scanRight_passes hright
    obtain ⟨hj', hstopLeft, hpassLeft⟩ := scanLeft_passes hleft
    have hbelow : ∀ m, low ≤ m → m < i' → m ≤ high → le (w m) pivot := by
      intro m hm hlt hle
      by_cases hbefore : m < i
      · exact hdivided.left m hm hbefore
      · exact h.le_of_true hpivot (hP m (by omega)) (hpassRight m (by omega) hlt)
    have habove : ∀ m, j' < m → low ≤ m → m ≤ high → le pivot (w m) := by
      intro m hlt hm hle
      by_cases hbehind : j < m
      · exact hdivided.right m hm hbehind hle
      · exact h.le_of_true (hP m (by omega)) hpivot (hpassLeft m hlt (by omega))
    split at hrun
    · next hmet =>
      obtain ⟨rfl, rfl⟩ := Prod.mk.inj (Option.some.inj hrun)
      refine ⟨fun m hm hlt => ?_, fun m hm hlt hle => habove m hlt hm hle⟩
      · by_cases hlast : m < i'
        · exact hbelow m hm hlast (by omega)
        · obtain rfl : m = j' := by omega
          exact h.le_of_false (hP m (by omega)) hpivot hstopLeft
    · next hlt =>
      obtain ⟨u, hswap, hrun⟩ := Option.bind_eq_some_iff.mp hrun
      rw [swapCells] at hswap
      split at hswap
      · obtain rfl := Option.some.inj hswap
        have hmoved : Rearranges low (high + 1) w (w ∘ Equiv.swap i' j') :=
          Rearranges.swap (by omega) (by omega)
        refine ih (hmoved.forall hP) (by omega) (by omega) ⟨fun m hm hlt' => ?_,
          fun m hm hlt' hle => ?_⟩ hrun
        · rw [Function.comp_apply]
          by_cases hlast : m = i'
          · rw [hlast, Equiv.swap_apply_left]
            exact h.le_of_false (hP j' (by omega)) hpivot hstopLeft
          · rw [Equiv.swap_apply_of_ne_of_ne hlast (by omega)]
            exact hbelow m hm (by omega) (by omega)
        · rw [Function.comp_apply]
          by_cases hfirst : m = j'
          · rw [hfirst, Equiv.swap_apply_right]
            exact h.le_of_false hpivot (hP i' (by omega)) hstopRight
          · rw [Equiv.swap_apply_of_ne_of_ne (by omega) hfirst]
            exact habove m (by omega) hm hle
      · cases hswap

/-! ## The sort -/

/-- The cells from `low` to `high` are in order. -/
def InOrder (le : α → α → Prop) (w : ℕ → α) (low high : ℕ) : Prop :=
  ∀ a b, low ≤ a → a ≤ b → b ≤ high → le (w a) (w b)

theorem InOrder.congr (h : InOrder le v low high) (heq : ∀ m, low ≤ m → m ≤ high → w m = v m) :
    InOrder le w low high := by
  intro a b ha hab hb
  rw [heq a ha (by omega), heq b (by omega) hb]
  exact h a b ha hab hb

theorem InOrder.single (h : ComparesBy outOfOrder P le) (hP : P (w low)) (hhigh : high ≤ low) :
    InOrder le w low high := by
  intro a b ha hab hb
  obtain rfl : a = low := by omega
  obtain rfl : b = a := by omega
  exact (h.total _ _ hP hP).elim id id

theorem InOrder.join (h : ComparesBy outOfOrder P le) (hpivot : P pivot)
    (hP : ∀ m, low ≤ m ∧ m < high + 1 → P (w m)) (hdivided : Divided le pivot w low high (j + 1) j)
    (hleft : InOrder le w low j) (hright : InOrder le w (j + 1) high) : InOrder le w low high := by
  intro a b ha hab hb
  by_cases hsame : b ≤ j
  · exact hleft a b ha hab hsame
  · by_cases hother : j < a
    · exact hright a b (by omega) hab hb
    · exact h.trans _ _ _ (hP a (by omega)) hpivot (hP b (by omega))
        (hdivided.left a ha (by omega)) (hdivided.right b (by omega) (by omega) hb)

theorem Divided.sorted (hdivided : Divided le pivot w low high (j + 1) j) (hj : low ≤ j) {b c : ℕ}
    (hmoved : Rearranges b c w v) (hside : low = b ∧ c = j + 1 ∨ b = j + 1 ∧ c = high + 1) :
    Divided le pivot v low high (j + 1) j := by
  have hleft : ∀ m, low ≤ m ∧ m < j + 1 → le (v m) pivot := by
    rcases hside with ⟨rfl, rfl⟩ | ⟨rfl, rfl⟩
    · exact Rearranges.forall (P := fun x => le x pivot) hmoved fun m hm =>
        hdivided.left m hm.1 hm.2
    · intro m hm
      rw [hmoved.outside (by omega)]
      exact hdivided.left m hm.1 hm.2
  have hright : ∀ m, low ≤ m → j < m → m ≤ high → le pivot (v m) := by
    intro m hm hlt hle
    rcases hside with ⟨rfl, rfl⟩ | ⟨rfl, rfl⟩
    · rw [hmoved.outside (by omega)]
      exact hdivided.right m hm hlt hle
    · exact Rearranges.forall (P := fun x => le pivot x) hmoved
        (fun m hm => hdivided.right m (by omega) (by omega) (by omega)) m (by omega)
  exact ⟨fun m hm hlt => hleft m ⟨hm, hlt⟩, hright⟩

theorem quicksortIndices_sorts (h : ComparesBy outOfOrder P le) (hhigh : high < bound)
    (hle : low ≤ high) (hP : ∀ m, low ≤ m ∧ m < high + 1 → P (w m)) (hfuel : high < fuel + low) :
    Gives (quicksortIndices outOfOrder bound fuel w low high) fun v =>
      Rearranges low (high + 1) w v ∧ InOrder le v low high := by
  have hreads : ∀ x y, P x → P y → ∃ b, outOfOrder x y = some b := by
    intro x y hx hy
    obtain ⟨b, hb, -⟩ := h.reads x y hx hy
    exact ⟨b, hb⟩
  induction fuel generalizing w low high with
  | zero => omega
  | succ fuel ih =>
    rw [quicksortIndices]
    split
    · next hlt =>
      have hmid := hP (low + (high - low) / 2) (by omega)
      rw [loadCell_eq (by omega), Option.bind_eq_bind, Option.bind_some]
      have hstop := h.same hmid
      have hstops : Stops outOfOrder (w (low + (high - low) / 2)) w low high low high :=
        ⟨⟨_, by omega, hstop, by omega⟩, ⟨_, by omega, hstop⟩⟩
      obtain ⟨⟨w', j⟩, hrun, hj, hmoved⟩ := hoareLoop_gives hreads hhigh hmid hP (Nat.le_refl low)
        (Nat.le_refl high) hstops (by omega) (show high + 1 < bound + 1 + low by omega)
      have hdivided := hoareLoop_divided h hmid hP (Nat.le_refl low) (Nat.le_refl high)
        ⟨fun m hm hlt => absurd hlt (Nat.not_lt.mpr hm),
          fun m hm hlt hle => absurd hle (Nat.not_le.mpr hlt)⟩ hrun
      rw [hrun]
      dsimp only [Option.bind_eq_bind, Option.bind_some] at hj hmoved ⊢
      -- a side that is sorted, if it has more than one cell, before the rest is done
      have hside : ∀ {b c : ℕ} {f : (ℕ → α) → Option (ℕ → α)} {Q : (ℕ → α) → Prop},
          low ≤ b ∧ b ≤ c ∧ c ≤ high → c < fuel + b →
          (∀ u, Rearranges b (c + 1) w' u → InOrder le u b c → Gives (f u) Q) →
          Gives (if b < c then (quicksortIndices outOfOrder bound fuel w' b c).bind f else
              f w') Q := by
        rintro b c f Q ⟨hb, hbc, hc⟩ hfuel hf
        have hread : ∀ m, b ≤ m ∧ m < c + 1 → P (w' m) := fun m hm => hmoved.forall hP m (by omega)
        split
        · exact Gives.bind (ih (by omega) hbc hread hfuel) fun u hu => hf u hu.1 hu.2
        · exact hf w' (Rearranges.refl _ _ _) (InOrder.single h (hread b (by omega)) (by omega))
      have hfinish : ∀ {u v : ℕ → α} {b c b' c' : ℕ}, Rearranges b c w' u → Rearranges b' c' u v →
          low = b ∧ c = j + 1 ∨ b = j + 1 ∧ c = high + 1 →
          low = b' ∧ c' = j + 1 ∨ b' = j + 1 ∧ c' = high + 1 →
          InOrder le v low j → InOrder le v (j + 1) high →
          Rearranges low (high + 1) w v ∧ InOrder le v low high := by
        intro u v b c b' c' hu hv hsu hsv hleft hright
        have hall : Rearranges low (high + 1) w v :=
          hmoved.trans ((hu.mono (by omega) (by omega)).trans (hv.mono (by omega) (by omega)))
        exact ⟨hall, InOrder.join h hmid (hall.forall hP)
          ((hdivided.sorted hj.1 hu hsu).sorted hj.1 hv hsv) hleft hright⟩
      split
      · apply hside (by omega) (by omega)
        intro u hu hleft
        have hrest := hmoved.trans (hu.mono (Nat.le_refl low) (by omega))
        apply (ih hhigh (by omega) (fun m hm => hrest.forall hP m (by omega)) (by omega)).mono
        rintro v ⟨hv, hright⟩
        exact hfinish hu hv (by omega) (by omega)
          (hleft.congr fun m hm hle => hv.outside (by omega)) hright
      · apply hside (by omega) (by omega)
        intro u hu hright
        have hrest := hmoved.trans (hu.mono (by omega) (Nat.le_refl _))
        apply (ih (by omega) hj.1 (fun m hm => hrest.forall hP m (by omega)) (by omega)).mono
        rintro v ⟨hv, hleft⟩
        exact hfinish hu hv (by omega) (by omega) hleft
          (hright.congr fun m hm hle => hv.outside (by omega))
    · next hend =>
      exact Gives.of_some ⟨Rearranges.refl _ _ _, InOrder.single h (hP low (by omega)) (by omega)⟩

end

/-! ## Keys -/

open BasicExpr (strcmp)

theorem strcmp_swap (a b : List Byte) : strcmp b a = (strcmp a b).swap := by
  induction a generalizing b with
  | nil => cases b with
    | nil => rfl
    | cons d b => rfl
  | cons c a ih => cases b with
    | nil => rfl
    | cons d b =>
      rw [strcmp, strcmp]
      by_cases heq : c = d
      · rw [if_pos heq, if_pos heq.symm]
        exact ih b
      · rw [if_neg heq, if_neg (Ne.symm heq), Nat.compare_swap]

theorem strcmp_total (a b : List Byte) : strcmp a b ≠ .gt ∨ strcmp b a ≠ .gt := by
  rw [strcmp_swap a b]
  cases strcmp a b with
  | lt => exact Or.inl nofun
  | eq => exact Or.inl nofun
  | gt => exact Or.inr nofun

theorem strcmp_trans {a b c : List Byte} (hab : strcmp a b ≠ .gt) (hbc : strcmp b c ≠ .gt) :
    strcmp a c ≠ .gt := by
  induction a generalizing b c with
  | nil => cases c with
    | nil => nofun
    | cons z c => nofun
  | cons x a ih => cases b with
    | nil => exact absurd rfl hab
    | cons y b => cases c with
      | nil => exact absurd rfl hbc
      | cons z c =>
        rw [strcmp] at hab hbc ⊢
        by_cases hxy : x = y
        · subst hxy
          rw [if_pos rfl] at hab
          by_cases hxz : x = z
          · rw [if_pos hxz] at hbc ⊢
            exact ih hab hbc
          · rw [if_neg hxz] at hbc ⊢
            exact hbc
        · rw [if_neg hxy, ne_eq, Nat.compare_eq_gt, Nat.not_lt] at hab
          have hlt : x.toNat ≠ y.toNat := fun h => hxy (BitVec.eq_of_toNat_eq h)
          by_cases hyz : y = z
          · subst hyz
            rw [if_neg hxy, ne_eq, Nat.compare_eq_gt]
            omega
          · rw [if_neg hyz, ne_eq, Nat.compare_eq_gt, Nat.not_lt] at hbc
            have hne : x ≠ z := by
              rintro rfl
              omega
            rw [if_neg hne, ne_eq, Nat.compare_eq_gt]
            omega

def KeyLe (kind : VarKind) (descending : Bool) (text : ℤ → Option (List Byte)) (x y : ℤ) : Prop :=
  match kind with
  | .string => ∃ a b, text x = some a ∧ text y = some b ∧
      if descending then strcmp b a ≠ .gt else strcmp a b ≠ .gt
  | _ => if descending then y ≤ x else x ≤ y

theorem keyLe_int {descending : Bool} {text : ℤ → Option (List Byte)} {x y : ℤ} :
    KeyLe .int descending text x y ↔ if descending then y ≤ x else x ≤ y := Iff.rfl

variable {kind : VarKind} {descending : Bool} {text : ℤ → Option (List Byte)} {keys : ℕ → ℤ} {n : ℕ}

def IsIndex (n : ℕ) (x : ℤ) : Prop := 0 ≤ x ∧ x.toNat < n

theorem loadKey_eq {x : ℤ} (hx : IsIndex n x) :
    loadKey (loadCell n keys) x = some (keys x.toNat) := by
  rw [loadKey, if_neg (by have := hx.1; omega), loadCell_eq hx.2]

theorem comparesBy_keys (hkind : kind = .int ∨ kind = .string)
    (htext : kind = .string → ∀ i < n, ∃ t, text (keys i) = some t) (descending : Bool) :
    ComparesBy (indexOutOfOrder kind descending text (loadCell n keys)) (IsIndex n)
      fun x y => KeyLe kind descending text (keys x.toNat) (keys y.toNat) := by
  have hrun : ∀ x y, IsIndex n x → IsIndex n y →
      indexOutOfOrder kind descending text (loadCell n keys) x y =
        keyOutOfOrder kind descending text (keys x.toNat) (keys y.toNat) := by
    intro x y hx hy
    rw [indexOutOfOrder, loadKey_eq hx, loadKey_eq hy]
    rfl
  rcases hkind with rfl | rfl
  · refine ⟨fun x y hx hy => ⟨_, hrun x y hx hy, ?_⟩, fun x y _ _ => ?_, fun x y z _ _ _ => ?_⟩
    · rw [keyLe_int]
      cases descending with
      | false => simp
      | true => simp
    · rw [keyLe_int, keyLe_int]
      cases descending with
      | false => exact Int.le_total _ _
      | true => exact Int.le_total _ _
    · rw [keyLe_int, keyLe_int, keyLe_int]
      cases descending with
      | false => exact Int.le_trans
      | true => exact fun hxy hyz => Int.le_trans hyz hxy
  · have htexts := fun x (hx : IsIndex n x) => htext rfl x.toNat hx.2
    refine ⟨fun x y hx hy => ?_, fun x y hx hy => ?_, ?_⟩
    · obtain ⟨a, ha⟩ := htexts x hx
      obtain ⟨b, hb⟩ := htexts y hy
      refine ⟨if descending then strcmp a b == .lt else strcmp a b == .gt, ?_, ?_⟩
      · rw [hrun x y hx hy, keyOutOfOrder, ha, hb]
        rfl
      · have hle : KeyLe .string descending text (keys x.toNat) (keys y.toNat) ↔
            if descending then strcmp b a ≠ .gt else strcmp a b ≠ .gt := by
          constructor
          · rintro ⟨a', b', ha', hb', h⟩
            rw [ha] at ha'
            rw [hb] at hb'
            obtain rfl := Option.some.inj ha'
            obtain rfl := Option.some.inj hb'
            exact h
          · exact fun h => ⟨a, b, ha, hb, h⟩
        rw [hle, strcmp_swap a b]
        cases descending with
        | false => cases strcmp a b <;> decide
        | true => cases strcmp a b <;> decide
    · obtain ⟨a, ha⟩ := htexts x hx
      obtain ⟨b, hb⟩ := htexts y hy
      rcases strcmp_total a b with h | h
      · cases descending with
        | false => exact Or.inl ⟨a, b, ha, hb, h⟩
        | true => exact Or.inr ⟨b, a, hb, ha, h⟩
      · cases descending with
        | false => exact Or.inr ⟨b, a, hb, ha, h⟩
        | true => exact Or.inl ⟨a, b, ha, hb, h⟩
    · rintro x y z _ _ _ ⟨a, b, ha, hb, hab⟩ ⟨b', c, hb', hc, hbc⟩
      rw [hb] at hb'
      obtain rfl := Option.some.inj hb'
      refine ⟨a, c, ha, hc, ?_⟩
      cases descending with
      | false => exact strcmp_trans hab hbc
      | true => exact strcmp_trans hbc hab

/-- ARRSORTBY puts the indices in an order in which their keys do not fall, or do not rise, without
an access to a cell outside of the range or to a key that there is none of. -/
theorem quicksortIndices_byKeys (hkind : kind = .int ∨ kind = .string) (descending : Bool)
    (htext : kind = .string → ∀ i < n, ∃ t, text (keys i) = some t) {values : ℕ → ℤ} {low high : ℕ}
    (hle : low ≤ high) (hvalues : ∀ m, low ≤ m ∧ m < high + 1 → IsIndex n (values m)) :
    Gives (quicksortIndices (indexOutOfOrder kind descending text (loadCell n keys)) (high + 1)
        (high - low + 1) values low high) fun v =>
      Rearranges low (high + 1) values v ∧ ∀ a b, low ≤ a → a ≤ b → b ≤ high →
        KeyLe kind descending text (keys (v a).toNat) (keys (v b).toNat) :=
  quicksortIndices_sorts (comparesBy_keys hkind htext descending)
    (Nat.lt_succ_self high) hle hvalues
    (by omega)

/-- Three indices, two of them equal, by falling keys. -/
theorem quicksortIndices_byKeys_three :
    Gives (quicksortIndices (indexOutOfOrder .int true (fun _ => none) (loadCell 3 fun i => i)) 3 3
        (fun i => if i = 1 then 2 else 0) 0 2) fun v =>
      Rearranges 0 3 (fun i => if i = 1 then 2 else 0) v ∧ ∀ a b, 0 ≤ a → a ≤ b → b ≤ 2 →
        KeyLe .int true (fun _ => none) ((v a).toNat : ℤ) ((v b).toNat : ℤ) := by
  apply quicksortIndices_byKeys (Or.inl rfl) true (fun h => by cases h) (Nat.zero_le 2)
  intro m _
  split
  · exact ⟨by decide, by decide⟩
  · exact ⟨by decide, by decide⟩

end RetroRocket
