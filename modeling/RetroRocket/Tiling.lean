import Mathlib.Data.List.Pairwise
import Mathlib.Data.List.Nodup
import Mathlib.Data.Nat.Bitwise
import Mathlib.Tactic.Common
import Mathlib.Tactic.Ring

/-!
# Tilings by blocks of power-of-two size

A cell of order `k` has `2 ^ k` addresses and lies in one of several regions. Cells tile the regions
when every address of a region is in exactly one of them and each cell stands at a multiple of its
size. A tiling is kept when a cell is split in two halves, when two buddies become one cell, and
when a new region comes as one cell.
-/

namespace RetroRocket

structure Cell where
  region : ℕ
  start : ℕ
  order : ℕ
  deriving DecidableEq

namespace Cell

def finish (c : Cell) : ℕ := c.start + 2 ^ c.order

def Apart (c d : Cell) : Prop := c.finish ≤ d.start ∨ d.finish ≤ c.start

instance : Membership ℕ Cell := ⟨fun c a => c.start ≤ a ∧ a < c.finish⟩

variable {c d : Cell} {a : ℕ}

theorem mem_def : a ∈ c ↔ c.start ≤ a ∧ a < c.finish := Iff.rfl

theorem start_lt_finish (c : Cell) : c.start < c.finish :=
  Nat.lt_add_of_pos_right (Nat.two_pow_pos c.order)

theorem start_mem (c : Cell) : c.start ∈ c := ⟨le_rfl, c.start_lt_finish⟩

theorem Apart.symm (h : c.Apart d) : d.Apart c := Or.symm h

theorem Apart.not_mem (h : c.Apart d) (ha : a ∈ c) : ¬ a ∈ d := by
  intro hd
  rw [mem_def] at ha hd
  rcases h with h | h <;> omega

theorem Apart.start_ne (h : c.Apart d) : c.start ≠ d.start := by
  intro heq
  refine h.not_mem c.start_mem ?_
  rw [heq]
  exact d.start_mem

theorem mem_halves (i s k : ℕ) :
    a ∈ (⟨i, s, k + 1⟩ : Cell) ↔ a ∈ (⟨i, s, k⟩ : Cell) ∨ a ∈ (⟨i, s + 2 ^ k, k⟩ : Cell) := by
  simp only [mem_def, finish]
  rw [pow_succ]
  omega

end Cell

/-- The cells tile the regions `[base i, base i + size i)` with `i < n`. -/
structure Tiling (n : ℕ) (base size : ℕ → ℕ) (cells : List Cell) : Prop where
  region : ∀ c ∈ cells, c.region < n
  inside : ∀ c ∈ cells, base c.region ≤ c.start ∧ c.finish ≤ base c.region + size c.region
  aligned : ∀ c ∈ cells, 2 ^ c.order ∣ c.start - base c.region
  apart : cells.Pairwise Cell.Apart
  cover : ∀ i < n, ∀ a, base i ≤ a → a < base i + size i → ∃ c ∈ cells, c.region = i ∧ a ∈ c

namespace Tiling

variable {n : ℕ} {base size : ℕ → ℕ} {cells l r : List Cell} {c d : Cell} {i k s a : ℕ}

theorem perm (h : Tiling n base size l) (hp : l.Perm r) : Tiling n base size r where
  region c hc := h.region c (hp.mem_iff.mpr hc)
  inside c hc := h.inside c (hp.mem_iff.mpr hc)
  aligned c hc := h.aligned c (hp.mem_iff.mpr hc)
  apart := hp.pairwise h.apart Cell.Apart.symm
  cover i hi a hlow hhigh := by
    obtain ⟨c, hc, hcell⟩ := h.cover i hi a hlow hhigh
    exact ⟨c, hp.mem_iff.mp hc, hcell⟩

theorem apart_of_mem (h : Tiling n base size (c :: cells)) (hd : d ∈ cells) : c.Apart d :=
  List.rel_of_pairwise_cons h.apart hd

theorem starts_nodup (h : Tiling n base size cells) : (cells.map Cell.start).Nodup := by
  rw [List.nodup_iff_pairwise_ne, List.pairwise_map]
  exact h.apart.imp Cell.Apart.start_ne

theorem eq_of_mem (h : Tiling n base size cells) (hc : c ∈ cells) (hd : d ∈ cells) (hac : a ∈ c)
    (had : a ∈ d) : c = d := by
  by_contra hne
  have : Std.Symm Cell.Apart := ⟨fun _ _ h => h.symm⟩
  exact (h.apart.forall hc hd hne).not_mem hac had

theorem offset (h : Tiling n base size cells) (hc : c ∈ cells) :
    ∃ q, c.start = base c.region + 2 ^ c.order * q ∧ 2 ^ c.order * (q + 1) ≤ size c.region := by
  obtain ⟨q, hq⟩ := h.aligned c hc
  obtain ⟨hlow, hhigh⟩ := h.inside c hc
  unfold Cell.finish at hhigh
  refine ⟨q, by omega, ?_⟩
  rw [mul_add, mul_one]
  omega

theorem split (h : Tiling n base size (⟨i, s, k + 1⟩ :: cells)) :
    Tiling n base size (⟨i, s, k⟩ :: ⟨i, s + 2 ^ k, k⟩ :: cells) := by
  have hin := h.inside _ List.mem_cons_self
  have hal := h.aligned _ List.mem_cons_self
  have hpow : 2 ^ (k + 1) = 2 ^ k + 2 ^ k := by ring
  simp only [Cell.finish, hpow] at hin hal
  have hhalf : 2 ^ k ∣ s - base i := dvd_trans ⟨2, by ring⟩ hal
  refine ⟨?_, ?_, ?_, ?_, ?_⟩
  · simp only [List.forall_mem_cons]
    exact ⟨h.region _ List.mem_cons_self, h.region _ List.mem_cons_self,
      fun c hc => h.region c (List.mem_cons_of_mem _ hc)⟩
  · simp only [List.forall_mem_cons, Cell.finish]
    exact ⟨by omega, by omega, fun c hc => h.inside c (List.mem_cons_of_mem _ hc)⟩
  · simp only [List.forall_mem_cons]
    refine ⟨hhalf, ?_, fun c hc => h.aligned c (List.mem_cons_of_mem _ hc)⟩
    rw [show s + 2 ^ k - base i = s - base i + 2 ^ k by omega]
    exact Nat.dvd_add hhalf dvd_rfl
  · have hother : ∀ d ∈ cells, Cell.Apart ⟨i, s, k⟩ d ∧ Cell.Apart ⟨i, s + 2 ^ k, k⟩ d := by
      intro d hd
      have hap := h.apart_of_mem hd
      simp only [Cell.Apart, Cell.finish, hpow] at hap ⊢
      omega
    have htail := h.apart.of_cons
    simp only [List.pairwise_cons, List.forall_mem_cons]
    exact ⟨⟨Or.inl le_rfl, fun d hd => (hother d hd).1⟩, fun d hd => (hother d hd).2, htail⟩
  · intro j hj a hlow hhigh
    obtain ⟨c, hc, hreg, ha⟩ := h.cover j hj a hlow hhigh
    rcases List.mem_cons.mp hc with rfl | hc
    · rcases (Cell.mem_halves i s k).mp ha with ha | ha
      · exact ⟨_, List.mem_cons_self, hreg, ha⟩
      · exact ⟨_, List.mem_cons_of_mem _ List.mem_cons_self, hreg, ha⟩
    · exact ⟨c, List.mem_cons_of_mem _ (List.mem_cons_of_mem _ hc), hreg, ha⟩

theorem merge (h : Tiling n base size (⟨i, s, k⟩ :: ⟨i, s + 2 ^ k, k⟩ :: cells))
    (hal : 2 ^ (k + 1) ∣ s - base i) : Tiling n base size (⟨i, s, k + 1⟩ :: cells) := by
  have hlow := h.inside _ List.mem_cons_self
  have hhigh := h.inside _ (List.mem_cons_of_mem _ List.mem_cons_self)
  have hpow : 2 ^ (k + 1) = 2 ^ k + 2 ^ k := by ring
  simp only [Cell.finish] at hlow hhigh
  have hreg : i < n := h.region _ List.mem_cons_self
  have htail : ∀ c ∈ cells, c ∈ (⟨i, s, k⟩ :: ⟨i, s + 2 ^ k, k⟩ :: cells : List Cell) :=
    fun c hc => List.mem_cons_of_mem _ (List.mem_cons_of_mem _ hc)
  refine ⟨?_, ?_, ?_, ?_, ?_⟩
  · rw [List.forall_mem_cons]
    exact ⟨hreg, fun c hc => h.region c (htail c hc)⟩
  · simp only [List.forall_mem_cons, Cell.finish, hpow]
    exact ⟨by omega, fun c hc => h.inside c (htail c hc)⟩
  · rw [List.forall_mem_cons]
    exact ⟨hal, fun c hc => h.aligned c (htail c hc)⟩
  · obtain ⟨hfirst, hrest⟩ := List.pairwise_cons.mp h.apart
    obtain ⟨hsecond, hrest⟩ := List.pairwise_cons.mp hrest
    refine List.pairwise_cons.mpr ⟨fun d hd => ?_, hrest⟩
    have h₁ := hfirst d (List.mem_cons_of_mem _ hd)
    have h₂ := hsecond d hd
    have hd := d.start_lt_finish
    simp only [Cell.Apart, Cell.finish, hpow] at h₁ h₂ hd ⊢
    omega
  · intro j hj a hlow hhigh
    obtain ⟨c, hc, hreg, ha⟩ := h.cover j hj a hlow hhigh
    rcases List.mem_cons.mp hc with rfl | hc
    · exact ⟨_, List.mem_cons_self, hreg, (Cell.mem_halves i s k).mpr (Or.inl ha)⟩
    rcases List.mem_cons.mp hc with rfl | hc
    · exact ⟨_, List.mem_cons_self, hreg, (Cell.mem_halves i s k).mpr (Or.inr ha)⟩
    · exact ⟨c, List.mem_cons_of_mem _ hc, hreg, ha⟩

theorem add (h : Tiling n base size cells) (base' size' : ℕ → ℕ)
    (hold : ∀ i < n, base' i = base i ∧ size' i = size i) (hnew : size' n = 2 ^ k)
    (hfresh : ∀ c ∈ cells, Cell.Apart ⟨n, base' n, k⟩ c) :
    Tiling (n + 1) base' size' (⟨n, base' n, k⟩ :: cells) := by
  refine ⟨?_, ?_, ?_, List.pairwise_cons.mpr ⟨hfresh, h.apart⟩, ?_⟩
  · rw [List.forall_mem_cons]
    exact ⟨Nat.lt_succ_self n, fun c hc => (h.region c hc).trans (Nat.lt_succ_self n)⟩
  · simp only [List.forall_mem_cons, Cell.finish, hnew]
    refine ⟨⟨le_rfl, le_rfl⟩, fun c hc => ?_⟩
    obtain ⟨hb, hs⟩ := hold c.region (h.region c hc)
    rw [hb, hs]
    exact h.inside c hc
  · simp only [List.forall_mem_cons, Nat.sub_self, dvd_zero, true_and]
    intro c hc
    rw [(hold c.region (h.region c hc)).1]
    exact h.aligned c hc
  · intro i hi a hlow hhigh
    rcases Nat.lt_succ_iff_lt_or_eq.mp hi with hi | rfl
    · rw [(hold i hi).1] at hlow hhigh
      rw [(hold i hi).2] at hhigh
      obtain ⟨c, hc, hcell⟩ := h.cover i hi a hlow hhigh
      exact ⟨c, List.mem_cons_of_mem _ hc, hcell⟩
    · refine ⟨_, List.mem_cons_self, rfl, hlow, ?_⟩
      rw [hnew] at hhigh
      exact hhigh

theorem buddy_offset (k q : ℕ) : (2 ^ k * q) ^^^ 2 ^ k = 2 ^ k * (q ^^^ 1) := by
  have h := Nat.shiftLeft_xor_distrib (a := q) (b := 1) (i := k)
  simp only [Nat.shiftLeft_eq, one_mul] at h
  rw [mul_comm, ← h, mul_comm]

theorem buddy_cases (q : ℕ) :
    ∃ m, (q = 2 * m ∧ q ^^^ 1 = 2 * m + 1) ∨ (q = 2 * m + 1 ∧ q ^^^ 1 = 2 * m) := by
  obtain ⟨m, rfl | rfl⟩ := Nat.even_or_odd' q
  · exact ⟨m, Or.inl ⟨rfl, Nat.xor_one_of_even (even_two_mul m)⟩⟩
  · exact ⟨m, Or.inr ⟨rfl, Nat.xor_one_of_odd (odd_two_mul_add_one m)⟩⟩

theorem merge_buddies {t q : ℕ} (h : Tiling n base size (⟨i, s, k⟩ :: ⟨i, t, k⟩ :: cells))
    (hs : s = base i + 2 ^ k * q) (ht : t = base i + 2 ^ k * (q ^^^ 1)) :
    Tiling n base size (⟨i, min s t, k + 1⟩ :: cells) := by
  have hdvd : ∀ m, 2 ^ (k + 1) ∣ base i + 2 ^ k * (2 * m) - base i := by
    intro m
    rw [Nat.add_sub_cancel_left, pow_succ]
    exact ⟨m, by ring⟩
  obtain ⟨m, ⟨hq, hx⟩ | ⟨hq, hx⟩⟩ := buddy_cases q
  · rw [hq] at hs
    rw [hx, mul_add, mul_one, ← add_assoc, ← hs] at ht
    subst ht
    rw [Nat.min_eq_left (Nat.le_add_right _ _)]
    refine h.merge ?_
    rw [hs]
    exact hdvd m
  · rw [hx] at ht
    rw [hq, mul_add, mul_one, ← add_assoc, ← ht] at hs
    subst hs
    rw [Nat.min_eq_right (Nat.le_add_right _ _)]
    refine (h.perm (List.Perm.swap _ _ _)).merge ?_
    rw [ht]
    exact hdvd m

theorem buddy_fits {k g q : ℕ} (hk : k < g) (hfit : 2 ^ k * (q + 1) ≤ 2 ^ g) :
    2 ^ k * ((q ^^^ 1) + 1) ≤ 2 ^ g := by
  have hpow : 2 ^ g = 2 ^ k * 2 ^ (g - k) := by
    rw [← pow_add, Nat.add_sub_cancel' hk.le]
  rw [hpow] at hfit ⊢
  have hq : q < 2 ^ (g - k) := Nat.le_of_mul_le_mul_left hfit (Nat.two_pow_pos k)
  have hone : 1 < 2 ^ (g - k) := Nat.one_lt_two_pow (Nat.sub_ne_zero_of_lt hk)
  exact Nat.mul_le_mul_left _ (Nat.xor_lt_two_pow hq hone)

end Tiling

namespace Cell

variable {base m : ℕ} {c d : Cell}

structure Buddies (base : ℕ) (c d : Cell) : Prop where
  region : c.region = d.region
  order : c.order = d.order
  offset : ∃ q, c.start = base + 2 ^ c.order * q ∧ d.start = base + 2 ^ c.order * (q ^^^ 1)

theorem Buddies.symm (h : c.Buddies base d) : d.Buddies base c := by
  obtain ⟨q, hc, hd⟩ := h.offset
  refine ⟨h.region.symm, h.order.symm, q ^^^ 1, ?_, ?_⟩
  · rw [← h.order]
    exact hd
  · rw [← h.order, Nat.xor_assoc, Nat.xor_self, Nat.xor_zero]
    exact hc

theorem Buddies.start_ne (h : c.Buddies base d) : c.start ≠ d.start := by
  obtain ⟨q, hc, hd⟩ := h.offset
  rw [hc, hd]
  intro heq
  have hq := Nat.eq_of_mul_eq_mul_left (Nat.two_pow_pos c.order) (Nat.add_left_cancel heq)
  obtain ⟨x, ⟨hx, hx'⟩ | ⟨hx, hx'⟩⟩ := Tiling.buddy_cases q
  · omega
  · omega

theorem Buddies.start_eq {i b k : ℕ} (h : Buddies base ⟨i, b + 2 ^ k, k⟩ d)
    (hb : b = base + 2 ^ (k + 1) * m) : d.start = b := by
  obtain ⟨q, hc, hd⟩ := h.offset
  dsimp only at hc hd
  have hpow : 2 ^ (k + 1) * m = 2 ^ k * (2 * m) := by ring
  rw [hpow] at hb
  have hq : 2 ^ k * (2 * m + 1) = 2 ^ k * q := by
    rw [mul_add, mul_one]
    omega
  obtain rfl := Nat.eq_of_mul_eq_mul_left (Nat.two_pow_pos k) hq
  rw [Nat.xor_one_of_odd (odd_two_mul_add_one m), Nat.add_sub_cancel] at hd
  exact hd.trans hb.symm

end Cell

namespace Tiling

variable {n : ℕ} {base size : ℕ → ℕ} {cells : List Cell} {i g : ℕ}

theorem mem_of_buddy_mem (base : ℕ → ℕ) {c d : Cell} {q : ℕ} (hregion : c.region = d.region)
    (horder : c.order < d.order) (hd : ∃ p, d.start = base d.region + 2 ^ d.order * p)
    (hc : c.start = base c.region + 2 ^ c.order * q)
    (hmem : base c.region + 2 ^ c.order * (q ^^^ 1) ∈ d) : c.start ∈ d := by
  obtain ⟨p, hp⟩ := hd
  obtain ⟨e, he⟩ := Nat.exists_eq_add_of_lt horder
  have hunit := Nat.two_pow_pos c.order
  have hlow : 2 ^ d.order * p = 2 ^ c.order * (2 * (2 ^ e * p)) := by
    rw [he]
    ring
  have hhigh : 2 ^ d.order * p + 2 ^ d.order = 2 ^ c.order * (2 * (2 ^ e * (p + 1))) := by
    rw [he]
    ring
  rw [Cell.mem_def, Cell.finish, hp, add_assoc, hhigh, hlow, hregion, Nat.add_le_add_iff_left,
    Nat.add_lt_add_iff_left, Nat.mul_le_mul_left_iff hunit, Nat.mul_lt_mul_left hunit] at hmem
  rw [Cell.mem_def, Cell.finish, hp, add_assoc, hhigh, hlow, hc, hregion, Nat.add_le_add_iff_left,
    Nat.add_lt_add_iff_left, Nat.mul_le_mul_left_iff hunit, Nat.mul_lt_mul_left hunit]
  obtain ⟨x, ⟨hx, hx'⟩ | ⟨hx, hx'⟩⟩ := buddy_cases q
  · omega
  · omega

theorem order_eq_of_no_buddies (h : Tiling n base size cells) (hi : i < n) (hsize : size i = 2 ^ g)
    (hnone : ∀ c ∈ cells, ∀ d ∈ cells, c.region = i → ¬ c.Buddies (base i) d) (k : ℕ) :
    ∀ c ∈ cells, c.region = i → c.order = k → k = g := by
  induction k using Nat.strong_induction_on with
  | _ k ih =>
    intro c hc hregion horder
    obtain ⟨q, hstart, hfit⟩ := h.offset hc
    rw [hregion, hsize] at hfit
    subst horder
    have hle : c.order ≤ g := by
      rw [← Nat.pow_le_pow_iff_right (show 1 < 2 by omega)]
      exact (Nat.le_mul_of_pos_right _ (Nat.succ_pos q)).trans hfit
    by_contra hne
    have hbuddy := buddy_fits (lt_of_le_of_ne hle hne) hfit
    rw [mul_add, mul_one] at hbuddy
    have hpos := Nat.two_pow_pos c.order
    obtain ⟨d, hd, hdregion, hmem⟩ := h.cover i hi (base i + 2 ^ c.order * (q ^^^ 1))
      (Nat.le_add_right _ _) (by omega)
    rcases lt_trichotomy d.order c.order with hlt | heq | hgt
    · have hwhole := ih d.order hlt d hd hdregion rfl
      omega
    · obtain ⟨p, hp, -⟩ := h.offset hd
      rw [Cell.mem_def, Cell.finish, hp, hdregion, heq, add_assoc, ← Nat.mul_succ,
        Nat.add_le_add_iff_left, Nat.add_lt_add_iff_left, Nat.mul_le_mul_left_iff hpos,
        Nat.mul_lt_mul_left hpos] at hmem
      obtain rfl : p = q ^^^ 1 := by omega
      rw [hregion] at hstart
      rw [hdregion, heq] at hp
      exact hnone c hc d hd hregion ⟨hregion.trans hdregion.symm, heq.symm, q, hstart, hp⟩
    · obtain ⟨p, hp, -⟩ := h.offset hd
      have hcd := mem_of_buddy_mem base (hregion.trans hdregion.symm) hgt ⟨p, hp⟩ hstart
        (by rw [hregion]; exact hmem)
      have heq := h.eq_of_mem hc hd c.start_mem hcd
      rw [heq] at hgt
      exact lt_irrefl _ hgt

theorem eq_whole_of_no_buddies (h : Tiling n base size cells) (hi : i < n) (hsize : size i = 2 ^ g)
    (hnone : ∀ c ∈ cells, ∀ d ∈ cells, c.region = i → ¬ c.Buddies (base i) d) {c : Cell} :
    c ∈ cells ∧ c.region = i ↔ c = ⟨i, base i, g⟩ := by
  have hwhole : ∀ c ∈ cells, c.region = i → c = ⟨i, base i, g⟩ := by
    intro c hc hregion
    have horder := h.order_eq_of_no_buddies hi hsize hnone c.order c hc hregion rfl
    obtain ⟨hlow, hhigh⟩ := h.inside c hc
    rw [Cell.finish, hregion, hsize, horder] at hhigh
    rw [hregion] at hlow
    obtain ⟨region, start, order⟩ := c
    dsimp only at hregion horder hlow hhigh
    rw [hregion, horder, show start = base i by omega]
  constructor
  · rintro ⟨hc, hregion⟩
    exact hwhole c hc hregion
  · rintro rfl
    have hpos := Nat.two_pow_pos g
    obtain ⟨d, hd, hregion, -⟩ := h.cover i hi (base i) le_rfl (by omega)
    rw [← hwhole d hd hregion]
    exact ⟨hd, hregion⟩

end Tiling

end RetroRocket
