import Mathlib.Tactic.IntervalCases
import RetroRocket.FreeSpaceState

/-!
# The streaming pass over the map

The streaming pass counts every word of the map at a position of its own. After a word with a free
sector the position advances twice, so within a chunk of the map it runs ahead of the word by the
number of such words passed. `Aligned` says that a word is still counted for its own group. While
it holds the counters are the numbers of free sectors passed; the first word for which it fails is
lost to its group, and nothing is added to that group afterwards.
-/

namespace RetroRocket

open RetroRocket.Action

attribute [local irreducible] rfsGroupSize

/-! ## Words of the map -/

theorem wordAt_getLsbD (buf : Buffer) (wi : ℕ) {k : ℕ} (hk : k < 64) :
    (wordAt buf wi).getLsbD k = bit buf (64 * wi + k) := by
  have hbyte : 64 * wi + k = 8 * (8 * wi + k / 8) + k % 8 := by omega
  have hlt : k % 8 < 8 := Nat.mod_lt _ (by decide)
  rw [hbyte, bit_byte _ _ _ hlt]
  unfold wordAt
  simp only [BitVec.getLsbD_append]
  have hj : k / 8 < 8 := by omega
  obtain ⟨j, r, hr, rfl⟩ : ∃ j r, r < 8 ∧ k = 8 * j + r := ⟨k / 8, k % 8, hlt, by omega⟩
  have hj' : j < 8 := by omega
  have hdiv : (8 * j + r) / 8 = j := by omega
  have hmod : (8 * j + r) % 8 = r := by omega
  rw [hdiv, hmod]
  interval_cases j <;> grind

/-- The number of free bits among the first `n` that word `wi` of a buffer holds. -/
def freeBits (buf : Buffer) (n wi : ℕ) : ℕ :=
  Nat.count (fun k => 64 * wi + k < n ∧ bit buf (64 * wi + k) = false) 64

theorem popcount_compl_wordAt {buf : Buffer} {n wi : ℕ} (hn : 64 * (wi + 1) ≤ n) :
    popcount (~~~wordAt buf wi) = freeBits buf n wi := by
  apply count_congr
  intro k hk
  rw [BitVec.getLsbD_not, wordAt_getLsbD buf wi hk]
  have hlt : 64 * wi + k < n := by omega
  simp [hk, hlt]

theorem popcount_tailWord {buf : Buffer} {n wi r : ℕ} (hn : n = 64 * wi + r) :
    popcount (~~~wordAt buf wi &&& BitVec.ofNat 64 (2 ^ r - 1)) = freeBits buf n wi := by
  subst hn
  apply count_congr
  intro k hk
  rw [BitVec.getLsbD_and, BitVec.getLsbD_not, wordAt_getLsbD buf wi hk, BitVec.getLsbD_ofNat,
    Nat.testBit_two_pow_sub_one]
  simp only [hk, decide_true, Bool.true_and, Bool.and_eq_true, Bool.not_eq_true',
    decide_eq_true_iff, Nat.add_lt_add_iff_left]
  exact and_comm

theorem distributeWord_aligned (fuel : ℕ) {word : BitVec 64} {r pos : ℕ} (hr : r ≤ 64)
    (hpos : pos % 64 = 0) (hword : ∀ k, r ≤ k → word.getLsbD k = false) (v : Volume) :
    distributeWord (fuel + 2) word r pos v =
      if word = 0 then (v, pos)
      else if v.l1Groups ≤ pos / 4096 then (v, pos)
      else (addFree v (pos / 4096) (popcount word), u64 (pos + r)) := by
  by_cases hzero : word = 0
  · rw [if_pos hzero]
    unfold distributeWord
    rw [if_neg (by simp [hzero])]
  · have hrpos : r ≠ 0 := by
      rintro rfl
      exact hzero (eq_zero_iff_getLsbD.mpr fun i _ => hword i (Nat.zero_le i))
    have hmin : min r (4096 * (pos / 4096 + 1) - pos) = r := by omega
    have hmask : word &&& (if r = 64 then BitVec.allOnes 64 else BitVec.ofNat 64 (2 ^ r - 1)) =
        word := by
      apply BitVec.eq_of_getLsbD_eq
      intro k hk
      split
      · rw [BitVec.and_allOnes]
      · rw [BitVec.getLsbD_and, BitVec.getLsbD_ofNat, Nat.testBit_two_pow_sub_one]
        by_cases hkr : k < r
        · simp [hk, hkr]
        · rw [hword k (not_lt.mp hkr), Bool.false_and]
    rw [if_neg hzero, distributeWord, if_pos ⟨hzero, hrpos⟩]
    dsimp only
    rw [hmin, hmask, if_pos hzero, Nat.sub_self]
    split
    · rfl
    · rw [distributeWord, if_neg (fun h => h.2 rfl)]

namespace Volume

variable {v : Volume}

/-! ## Counters -/

def withCounts (v : Volume) (fc : ℕ → ℕ) : Volume := { v with l1FreeCount := fc }

@[simp] theorem withCounts_l1Groups (v : Volume) (fc : ℕ → ℕ) :
    (v.withCounts fc).l1Groups = v.l1Groups := rfl

/-- The counters after `add` free sectors were added for group `g`. -/
def addCount (v : Volume) (fc : ℕ → ℕ) (g add : ℕ) : ℕ → ℕ :=
  (addFree (v.withCounts fc) g add).l1FreeCount

theorem addFree_withCounts (v : Volume) (fc : ℕ → ℕ) (g add : ℕ) :
    addFree (v.withCounts fc) g add = v.withCounts (v.addCount fc g add) := by
  unfold addCount addFree
  dsimp only
  split <;> rfl

theorem addCount_of_ne (v : Volume) (fc : ℕ → ℕ) {g g' : ℕ} (add : ℕ) (h : g' ≠ g) :
    v.addCount fc g add g' = fc g' := by
  unfold addCount addFree
  dsimp only
  split
  · exact Function.update_of_ne h _ _
  · rfl

theorem withCounts_groupSize (v : Volume) (fc : ℕ → ℕ) (g : ℕ) :
    rfsGroupSize (v.withCounts fc) g = rfsGroupSize v g := by
  unfold rfsGroupSize
  rfl

theorem addCount_self {fc : ℕ → ℕ} {g add : ℕ} (hadd : 0 < add)
    (hroom : fc g + add ≤ rfsGroupSize v g) (hsize : rfsGroupSize v g ≤ 4096) :
    v.addCount fc g add g = fc g + add := by
  have hmin : min add (rfsGroupSize v g - fc g) = add := by omega
  unfold addCount addFree
  dsimp only
  rw [withCounts_groupSize]
  rw [show (v.withCounts fc).l1FreeCount = fc from rfl, if_pos (by omega), hmin]
  dsimp only
  rw [Function.update_self, u16_of_lt (n := add) (by omega), u16_of_lt (by omega)]

/-- The free sectors that word `w` of the map describes. -/
def freeInWord (v : Volume) (w : ℕ) : ℕ :=
  Nat.count (fun k => 64 * w + k < v.totalSectors ∧ v.l0Used (64 * w + k) = false) 64

/-- The words with a free sector among the first `i` of chunk `c`. -/
def drift (v : Volume) (c i : ℕ) : ℕ := Nat.count (fun j => 0 < v.freeInWord (1024 * c + j)) i

/-- The pass counts the free sectors of word `w` for the group of the word. -/
def Aligned (v : Volume) (w : ℕ) : Prop :=
  0 < v.freeInWord w → (w % 1024 + v.drift (w / 1024) (w % 1024)) / 64 = w % 1024 / 64

/-- The free sectors of group `g` below sector `n`. -/
def freeBelow (v : Volume) (g n : ℕ) : ℕ :=
  Nat.count (fun i => 4096 * g + i < n ∧ 4096 * g + i < v.totalSectors ∧
    v.l0Used (4096 * g + i) = false) 4096

theorem freeBelow_mono (v : Volume) (g : ℕ) {m n : ℕ} (h : m ≤ n) :
    v.freeBelow g m ≤ v.freeBelow g n :=
  Nat.count_mono_left fun _ _ hk => ⟨hk.1.trans_le h, hk.2⟩

theorem freeBelow_eq_freeSectors (hv : v.Geometry) {g n : ℕ} (hg : g < v.l1Groups)
    (hn : v.totalSectors ≤ n) : v.freeBelow g n = v.freeSectors g := by
  have hsize := hv.groupSize hg
  obtain ⟨r, hr⟩ : ∃ r, 4096 = rfsGroupSize v g + r :=
    Nat.exists_eq_add_of_le (by rw [hsize]; exact min_le_left _ _)
  unfold freeBelow freeSectors
  rw [hr, Nat.count_add]
  have hrest : Nat.count (fun k => 4096 * g + (rfsGroupSize v g + k) < n ∧
      4096 * g + (rfsGroupSize v g + k) < v.totalSectors ∧
      v.l0Used (4096 * g + (rfsGroupSize v g + k)) = false) r = 0 := by
    rw [Nat.count_iff_forall_not]
    intro k hk hfree
    omega
  rw [← hr, hrest, Nat.add_zero]
  apply count_congr
  intro k hk
  have hlt : 4096 * g + k < v.totalSectors := by omega
  exact ⟨fun h => h.2.2, fun h => ⟨hlt.trans_le hn, hlt, h⟩⟩

theorem freeBelow_word (v : Volume) (g w : ℕ) :
    v.freeBelow g (64 * (w + 1)) =
      v.freeBelow g (64 * w) + if w / 64 = g then v.freeInWord w else 0 := by
  split
  · next hg =>
    have hwindow := count_window (n := 4096) (a := 64 * (w % 64)) (b := 64 * (w % 64) + 64)
      (p := fun i => 4096 * g + i < 64 * (w + 1) ∧ 4096 * g + i < v.totalSectors ∧
        v.l0Used (4096 * g + i) = false)
      (q := fun i => 4096 * g + i < 64 * w ∧ 4096 * g + i < v.totalSectors ∧
        v.l0Used (4096 * g + i) = false) (by omega) (by omega)
      (fun k hk hout => and_congr_left fun _ => by omega)
    have hnone : Nat.count (fun k => 4096 * g + (64 * (w % 64) + k) < 64 * w ∧
        4096 * g + (64 * (w % 64) + k) < v.totalSectors ∧
        v.l0Used (4096 * g + (64 * (w % 64) + k)) = false) 64 = 0 := by
      rw [Nat.count_iff_forall_not]
      intro k _ h
      omega
    have hword : Nat.count (fun k => 4096 * g + (64 * (w % 64) + k) < 64 * (w + 1) ∧
        4096 * g + (64 * (w % 64) + k) < v.totalSectors ∧
        v.l0Used (4096 * g + (64 * (w % 64) + k)) = false) 64 = v.freeInWord w := by
      apply count_congr
      intro k hk
      have haddr : 4096 * g + (64 * (w % 64) + k) = 64 * w + k := by omega
      rw [haddr]
      exact ⟨fun h => h.2, fun h => ⟨by omega, h⟩⟩
    rw [Nat.add_sub_cancel_left, hnone, hword] at hwindow
    unfold freeBelow
    omega
  · next hg =>
    have hiff : ∀ k < 4096, (4096 * g + k < 64 * (w + 1) ↔ 4096 * g + k < 64 * w) := by omega
    rw [Nat.add_zero]
    unfold freeBelow
    generalize 4096 = n at hiff ⊢
    exact count_congr fun k hk => and_congr_left fun _ => hiff k hk

/-! ## The pass over a chunk -/

/-- A group has been given fewer free sectors than it has, and the pass is at position `p` behind
it. Positions are bounded by what a chunk can advance. -/
def Lost (v : Volume) (c i : ℕ) (fc : ℕ → ℕ) (pos : ℕ) : Prop :=
  ∃ g < v.l1Groups, fc g < v.freeSectors g ∧ 4096 * (g + 1) ≤ 65536 * (c + 1) ∧
    4096 * (g + 1) ≤ pos ∧ pos ≤ 65536 * c + 128 * i

/-- What holds after `i` words of chunk `c`. -/
structure PassInv (v : Volume) (c i : ℕ) (fc : ℕ → ℕ) (pos : ℕ) : Prop where
  pos_mod : pos % 64 = 0
  counted : (∀ w < 1024 * c + i, v.Aligned w) →
    (∀ g < v.l1Groups, fc g = v.freeBelow g (64 * (1024 * c + i))) ∧
      pos = u64 (64 * (1024 * c + i + v.drift c i))
  lost : v.totalSectors + 131072 ≤ 2 ^ 64 → ¬ (∀ w < 1024 * c + i, v.Aligned w) →
    v.Lost c i fc pos

theorem drift_succ (v : Volume) (c i : ℕ) :
    v.drift c (i + 1) = v.drift c i + if 0 < v.freeInWord (1024 * c + i) then 1 else 0 :=
  Nat.count_succ _ _

theorem drift_le (v : Volume) (c i : ℕ) : v.drift c i ≤ i := Nat.count_le _

theorem aligned_iff {c i : ℕ} (hi : i < 1024) :
    v.Aligned (1024 * c + i) ↔
      (0 < v.freeInWord (1024 * c + i) → (i + v.drift c i) / 64 = i / 64) := by
  have hdiv : (1024 * c + i) / 1024 = c := by omega
  have hmod : (1024 * c + i) % 1024 = i := by omega
  unfold Aligned
  rw [hdiv, hmod]

theorem PassInv.step_full {c i : ℕ} {fc : ℕ → ℕ} {pos : ℕ} (h : v.PassInv c i fc pos)
    (hi : i < 1024) (hbound : 65536 * c < v.totalSectors)
    (hword : v.freeInWord (1024 * c + i) = 0) : v.PassInv c (i + 1) fc (u64 (pos + 64)) := by
  have hal : v.Aligned (1024 * c + i) := (aligned_iff hi).mpr fun hpos => by omega
  have hmod := h.pos_mod
  refine ⟨by unfold u64; omega, fun hall => ?_, fun hwrap hnot => ?_⟩
  · obtain ⟨hcount, hp⟩ := h.counted fun w hw => hall w (by omega)
    refine ⟨fun g hg => ?_, ?_⟩
    · rw [hcount g hg, ← Nat.add_assoc, freeBelow_word, hword, ite_self, Nat.add_zero]
    · rw [hp, drift_succ, hword, if_neg (lt_irrefl 0)]
      unfold u64
      omega
  · have hnot' : ¬ ∀ w < 1024 * c + i, v.Aligned w := by
      intro hall
      exact hnot (Nat.forall_lt_succ_right.mpr ⟨hall, hal⟩)
    obtain ⟨g, hg, hlt, hchunk, hle, hpos⟩ := h.lost hwrap hnot'
    rw [u64_of_lt (by omega)]
    exact ⟨g, hg, hlt, hchunk, by omega, by omega⟩

theorem Geometry.word_group (hv : v.Geometry) (hfit : v.totalSectors + 4095 < 2 ^ 64) {w : ℕ}
    (hw : 64 * w < v.totalSectors) : w / 64 < v.l1Groups := by
  rcases hv.l1Groups_eq with ⟨_, h⟩ | ⟨h, _⟩ <;> omega

theorem freeInWord_bound {w : ℕ} (hw : 0 < v.freeInWord w) : 64 * w < v.totalSectors := by
  obtain ⟨k, _, hk, _⟩ := Nat.count_ne_iff_exists.mp (Nat.pos_iff_ne_zero.mp hw)
  omega

theorem PassInv.counted_aligned {c i : ℕ} {pos : ℕ} (hi : i < 1024)
    (hword : 0 < v.freeInWord (1024 * c + i)) (hal : v.Aligned (1024 * c + i))
    (hp : pos = u64 (64 * (1024 * c + i + v.drift c i))) :
    pos = 64 * (1024 * c + i + v.drift c i) ∧ pos / 4096 = (1024 * c + i) / 64 := by
  have hbound := freeInWord_bound hword
  have ht := v.totalSectors_lt
  have hgroup := (aligned_iff hi).mp hal hword
  rw [u64_of_lt (by omega)] at hp
  subst hp
  omega

theorem freeBelow_le_freeSectors (hv : v.Geometry) {g n : ℕ} (hg : g < v.l1Groups) :
    v.freeBelow g n ≤ v.freeSectors g := by
  rw [← freeBelow_eq_freeSectors hv hg (le_max_right n v.totalSectors)]
  exact v.freeBelow_mono g (le_max_left n v.totalSectors)

def CountsWord (v : Volume) (w : ℕ) (fc : ℕ → ℕ) (pos : ℕ) (fc' : ℕ → ℕ) (pos' : ℕ) : Prop :=
  (v.l1Groups ≤ pos / 4096 ∧ fc' = fc ∧ pos' = u64 (pos + 64)) ∨
    (pos / 4096 < v.l1Groups ∧ fc' = v.addCount fc (pos / 4096) (v.freeInWord w) ∧
      pos' = u64 (u64 (pos + 64) + 64))

theorem CountsWord.of_ne {w : ℕ} {fc fc' : ℕ → ℕ} {pos pos' g : ℕ}
    (h : v.CountsWord w fc pos fc' pos') (hg : g ≠ pos / 4096) : fc' g = fc g := by
  rcases h with ⟨_, rfl, _⟩ | ⟨_, rfl, _⟩
  · rfl
  · exact v.addCount_of_ne fc _ hg

theorem PassInv.step_free {c i : ℕ} {fc fc' : ℕ → ℕ} {pos pos' : ℕ} (h : v.PassInv c i fc pos)
    (hv : v.Geometry) (hfit : v.totalSectors + 4095 < 2 ^ 64) (hi : i < 1024)
    (hword : 0 < v.freeInWord (1024 * c + i))
    (hstep : v.CountsWord (1024 * c + i) fc pos fc' pos') : v.PassInv c (i + 1) fc' pos' := by
  have hbound := freeInWord_bound hword
  have hg := hv.word_group hfit hbound
  have hdrift := v.drift_le c i
  have hmod := h.pos_mod
  refine ⟨?_, fun hall => ?_, fun hwrap hnot => ?_⟩
  · rcases hstep with ⟨_, _, rfl⟩ | ⟨_, _, rfl⟩ <;> unfold u64 <;> omega
  · obtain ⟨hbelow, hal⟩ := Nat.forall_lt_succ_right.mp hall
    obtain ⟨hcount, hp⟩ := h.counted hbelow
    obtain ⟨hpos, hgroup⟩ := PassInv.counted_aligned hi hword hal hp
    rcases hstep with ⟨hout, _, _⟩ | ⟨_, rfl, rfl⟩
    · rw [hgroup] at hout
      omega
    refine ⟨fun g hg' => ?_, ?_⟩
    · rw [← Nat.add_assoc (1024 * c), freeBelow_word, hgroup]
      by_cases hgg : (1024 * c + i) / 64 = g
      · have hroom := freeBelow_le_freeSectors (n := 64 * (1024 * c + i + 1)) hv hg'
        rw [freeBelow_word, if_pos hgg, ← hcount g hg'] at hroom
        have hsize := (hv.groupSize hg').trans_le (min_le_left _ _)
        subst hgg
        rw [if_pos rfl, ← hcount _ hg',
          addCount_self hword (hroom.trans (v.freeSectors_le _)) hsize]
      · rw [if_neg hgg, v.addCount_of_ne fc _ (Ne.symm hgg), hcount g hg', Nat.add_zero]
    · rw [hpos, drift_succ, if_pos hword]
      unfold u64
      omega
  · by_cases hbelow : ∀ w < 1024 * c + i, v.Aligned w
    · -- this word is the first that is not counted for its own group
      obtain ⟨hcount, hp⟩ := h.counted hbelow
      have hal : ¬ v.Aligned (1024 * c + i) := fun hal =>
        hnot (Nat.forall_lt_succ_right.mpr ⟨hbelow, hal⟩)
      rw [aligned_iff hi, Classical.not_imp] at hal
      rw [u64_of_lt (by omega)] at hp
      have hsectors := freeBelow_le_freeSectors (n := 64 * (1024 * c + i + 1)) hv hg
      rw [freeBelow_word, if_pos rfl, ← hcount _ hg] at hsectors
      refine ⟨(1024 * c + i) / 64, hg, ?_, by omega, ?_, ?_⟩
      · rw [hstep.of_ne (by omega)]
        omega
      · rcases hstep with ⟨_, _, rfl⟩ | ⟨_, _, rfl⟩ <;> unfold u64 <;> omega
      · rcases hstep with ⟨_, _, rfl⟩ | ⟨_, _, rfl⟩ <;> unfold u64 <;> omega
    · obtain ⟨g, hg', hlt, hchunk, hle, hpos⟩ := h.lost hwrap hbelow
      refine ⟨g, hg', ?_, hchunk, ?_, ?_⟩
      · rwa [hstep.of_ne (by omega)]
      · rcases hstep with ⟨_, _, rfl⟩ | ⟨_, _, rfl⟩ <;> unfold u64 <;> omega
      · rcases hstep with ⟨_, _, rfl⟩ | ⟨_, _, rfl⟩ <;> unfold u64 <;> omega

/-- A buffer holds the first `n` bits of chunk `c`, all of the chunk that lies in the volume. -/
structure HoldsChunk (v : Volume) (c n : ℕ) (buf : Buffer) : Prop where
  bits : ∀ i < n, bit buf i = v.l0Used (65536 * c + i)
  inside : 65536 * c + n ≤ v.totalSectors
  whole : n = 65536 ∨ n < 65536 ∧ 65536 * c + n = v.totalSectors

theorem HoldsChunk.freeBits_eq {c n wi : ℕ} {buf : Buffer} (h : v.HoldsChunk c n buf)
    (hwi : wi < 1024) : freeBits buf n wi = v.freeInWord (1024 * c + wi) := by
  apply count_congr
  intro k hk
  have haddr : 64 * (1024 * c + wi) + k = 65536 * c + (64 * wi + k) := by omega
  have hin := h.inside
  have hwhole := h.whole
  rw [haddr]
  constructor
  · rintro ⟨hlt, hfree⟩
    exact ⟨by omega, by rwa [← h.bits _ hlt]⟩
  · rintro ⟨hlt, hfree⟩
    have hlt' : 64 * wi + k < n := by omega
    exact ⟨hlt', by rwa [h.bits _ hlt']⟩

theorem PassInv.distributeWord (fuel : ℕ) {c n i r : ℕ} {buf : Buffer} {fc : ℕ → ℕ} {pos : ℕ}
    (h : v.PassInv c i fc pos) (hbuf : v.HoldsChunk c n buf) (hi : 64 * i < n) {word : BitVec 64}
    (hcount : popcount word = freeBits buf n i) (hne : word ≠ 0) (hr : r ≤ 64)
    (hword : ∀ k, r ≤ k → word.getLsbD k = false) :
    ∃ fc' pos', distributeWord (fuel + 2) word r pos (v.withCounts fc) = (v.withCounts fc', pos') ∧
      (pos' = pos ∧ v.CountsWord (1024 * c + i) fc pos fc' (u64 (pos' + 64)) ∨
        pos' = u64 (pos + r) ∧
          v.CountsWord (1024 * c + i) fc pos fc' (u64 (u64 (pos + 64) + 64))) := by
  have hin := hbuf.inside
  have hwhole := hbuf.whole
  have hi' : i < 1024 := by omega
  rw [distributeWord_aligned fuel hr h.pos_mod hword, if_neg hne, withCounts_l1Groups]
  split
  · next hout => exact ⟨fc, pos, rfl, Or.inl ⟨rfl, Or.inl ⟨hout, rfl, rfl⟩⟩⟩
  · next hout =>
    rw [addFree_withCounts, hcount, hbuf.freeBits_eq hi']
    exact ⟨_, _, rfl, Or.inr ⟨rfl, Or.inr ⟨not_le.mp hout, rfl, rfl⟩⟩⟩

theorem PassInv.countFullWords {c n : ℕ} {buf : Buffer} (hv : v.Geometry)
    (hfit : v.totalSectors + 4095 < 2 ^ 64) (hbuf : v.HoldsChunk c n buf) (m : ℕ) {i : ℕ}
    {fc : ℕ → ℕ} {pos : ℕ} (h : v.PassInv c i fc pos) (hm : 64 * (i + m) ≤ n) :
    ∃ fc' pos', countFullWords buf m i pos (v.withCounts fc) = (v.withCounts fc', pos') ∧
      v.PassInv c (i + m) fc' pos' := by
  induction m generalizing i fc pos with
  | zero => exact ⟨fc, pos, rfl, h⟩
  | succ m ih =>
    have hin := hbuf.inside
    have hwhole := hbuf.whole
    have hi : i < 1024 := by omega
    have hcount : popcount (~~~wordAt buf i) = freeBits buf n i :=
      popcount_compl_wordAt (by omega)
    have hnext : i + 1 + m = i + (m + 1) := by omega
    rw [← hnext]
    unfold RetroRocket.countFullWords
    dsimp only
    by_cases hzero : ~~~wordAt buf i = 0
    · rw [if_pos hzero]
      have hnone : v.freeInWord (1024 * c + i) = 0 := by
        rw [← hbuf.freeBits_eq hi, ← hcount, popcount_eq_zero]
        exact hzero
      exact ih (h.step_full hi (by omega) hnone) (by omega)
    · rw [if_neg hzero]
      have hfree : 0 < v.freeInWord (1024 * c + i) := by
        rw [← hbuf.freeBits_eq hi, ← hcount, Nat.pos_iff_ne_zero, Ne, popcount_eq_zero]
        exact hzero
      obtain ⟨fc', pos', hrun, hcase⟩ := h.distributeWord 62 (r := 64) hbuf
        (by omega) hcount hzero le_rfl (fun k hk => BitVec.getLsbD_of_ge _ _ hk)
      rw [hrun]
      dsimp only
      rcases hcase with ⟨rfl, hstep⟩ | ⟨rfl, hstep⟩
      · exact ih (h.step_free hv hfit hi hfree hstep) (by omega)
      · exact ih (h.step_free hv hfit hi hfree hstep) (by omega)

theorem PassInv.countChunk {c n : ℕ} {buf : Buffer} (hv : v.Geometry)
    (hfit : v.totalSectors + 4095 < 2 ^ 64) (hbuf : v.HoldsChunk c n buf) {fc : ℕ → ℕ}
    (h : v.PassInv c 0 fc (65536 * c)) :
    ∃ fc' pos', countChunk buf n (65536 * c) (v.withCounts fc) = v.withCounts fc' ∧
      v.PassInv c ((n + 63) / 64) fc' pos' := by
  have hin := hbuf.inside
  have hwhole := hbuf.whole
  have hfull : n >>> 6 = n / 64 := Nat.shiftRight_eq_div_pow n 6
  have htail : n &&& 63 = n % 64 := Nat.and_two_pow_sub_one_eq_mod n 6
  obtain ⟨fc₁, pos₁, hrun, h₁⟩ := PassInv.countFullWords hv hfit hbuf (n / 64) h (by omega)
  rw [Nat.zero_add] at h₁
  unfold RetroRocket.countChunk
  dsimp only
  rw [hfull, htail, hrun]
  by_cases hr : n % 64 = 0
  · have hlast : (n + 63) / 64 = n / 64 := by omega
    rw [if_neg (not_not.mpr hr), hlast]
    exact ⟨fc₁, pos₁, rfl, h₁⟩
  · have hlast : (n + 63) / 64 = n / 64 + 1 := by omega
    have hi : n / 64 < 1024 := by omega
    rw [if_pos hr, if_neg (by omega), hlast]
    have hcount : popcount (~~~wordAt buf (n / 64) &&& BitVec.ofNat 64 (2 ^ (n % 64) - 1)) =
        freeBits buf n (n / 64) := popcount_tailWord (by omega)
    by_cases hzero : ~~~wordAt buf (n / 64) &&& BitVec.ofNat 64 (2 ^ (n % 64) - 1) = 0
    · rw [distributeWord_aligned 62 (by omega) h₁.pos_mod (fun k hk => by rw [hzero]; simp),
        if_pos hzero]
      have hnone : v.freeInWord (1024 * c + n / 64) = 0 := by
        rw [← hbuf.freeBits_eq hi, ← hcount, popcount_eq_zero]
        exact hzero
      exact ⟨fc₁, _, rfl, h₁.step_full hi (by omega) hnone⟩
    · have hfree : 0 < v.freeInWord (1024 * c + n / 64) := by
        rw [← hbuf.freeBits_eq hi, ← hcount, Nat.pos_iff_ne_zero, Ne, popcount_eq_zero]
        exact hzero
      have hword : ∀ k, n % 64 ≤ k →
          (~~~wordAt buf (n / 64) &&& BitVec.ofNat 64 (2 ^ (n % 64) - 1)).getLsbD k = false := by
        intro k hk
        rw [BitVec.getLsbD_and, BitVec.getLsbD_ofNat, Nat.testBit_two_pow_sub_one,
          decide_eq_false (not_lt.mpr hk), Bool.and_false, Bool.and_false]
      obtain ⟨fc', pos', hrun', hcase⟩ := h₁.distributeWord 62 (r := n % 64) hbuf
        (by omega) hcount hzero (by omega) hword
      rw [hrun']
      rcases hcase with ⟨_, hstep⟩ | ⟨_, hstep⟩
      · exact ⟨fc', _, rfl, h₁.step_free hv hfit hi hfree hstep⟩
      · exact ⟨fc', _, rfl, h₁.step_free hv hfit hi hfree hstep⟩

/-- What holds of the counters after `c` chunks. -/
structure ChunkInv (v : Volume) (c : ℕ) (fc : ℕ → ℕ) : Prop where
  counted : (∀ w < 1024 * c, v.Aligned w) → ∀ g < v.l1Groups, fc g = v.freeBelow g (65536 * c)
  lost : v.totalSectors + 131072 ≤ 2 ^ 64 → ¬ (∀ w < 1024 * c, v.Aligned w) →
    ∃ g < v.l1Groups, fc g < v.freeSectors g ∧ 4096 * (g + 1) ≤ 65536 * c

theorem ChunkInv.pass {c : ℕ} {fc : ℕ → ℕ} (h : v.ChunkInv c fc) (hc : 65536 * c < v.totalSectors) :
    v.PassInv c 0 fc (65536 * c) := by
  have ht := v.totalSectors_lt
  have hmul : 64 * (1024 * c) = 65536 * c := by omega
  refine ⟨by omega, fun hall => ?_, fun hwrap hnot => ?_⟩
  · refine ⟨fun g hg => ?_, ?_⟩
    · rw [Nat.add_zero, hmul]
      exact h.counted hall g hg
    · have hdrift : v.drift c 0 = 0 := rfl
      rw [hdrift, Nat.add_zero, hmul, u64_of_lt (by omega)]
  · obtain ⟨g, hg, hlt, hle⟩ := h.lost hwrap hnot
    exact ⟨g, hg, hlt, by omega, hle, by omega⟩

theorem aligned_of_le {w : ℕ} (hw : v.totalSectors ≤ 64 * w) : v.Aligned w := fun hfree =>
  absurd (freeInWord_bound hfree) (by omega)

theorem PassInv.chunk {c n : ℕ} {buf : Buffer} {fc : ℕ → ℕ} {pos : ℕ} (hv : v.Geometry)
    (hbuf : v.HoldsChunk c n buf) (h : v.PassInv c ((n + 63) / 64) fc pos) :
    v.ChunkInv (c + 1) fc := by
  have hin := hbuf.inside
  have hwhole := hbuf.whole
  have hrest : (∀ w < 1024 * (c + 1), v.Aligned w) ↔
      ∀ w < 1024 * c + (n + 63) / 64, v.Aligned w := by
    constructor
    · exact fun hall w hw => hall w (by omega)
    · intro hall w hw
      by_cases hlt : w < 1024 * c + (n + 63) / 64
      · exact hall w hlt
      · exact aligned_of_le (by omega)
  refine ⟨fun hall g hg => ?_, fun hwrap hnot => ?_⟩
  · obtain ⟨hcount, -⟩ := h.counted (hrest.mp hall)
    rcases hwhole with hn | ⟨_, hn⟩
    · have hpos : 64 * (1024 * c + (n + 63) / 64) = 65536 * (c + 1) := by omega
      rw [hcount g hg, hpos]
    · rw [hcount g hg, freeBelow_eq_freeSectors hv hg (by omega),
        freeBelow_eq_freeSectors hv hg (by omega)]
  · obtain ⟨g, hg, hlt, hle, -⟩ := h.lost hwrap fun hall => hnot (hrest.mpr hall)
    exact ⟨g, hg, hlt, hle⟩

/-! ## The pass over the map -/

theorem holdsChunk_sectors (v : Volume) {c sectors n : ℕ}
    (hn : n = min (8 * (512 * sectors)) (v.totalSectors - 65536 * c))
    (hc : 65536 * c < v.totalSectors) (hsectors : sectors ≤ 16)
    (hcover : sectors = 16 ∨ v.totalSectors ≤ 65536 * c + 4096 * sectors) :
    v.HoldsChunk c n (v.sectors (u64 (v.desc.freeSpaceMapStart + 16 * c)) (512 * sectors)) := by
  refine ⟨fun i hi => ?_, by omega, by omega⟩
  have haddr : u64 (u64 (v.desc.freeSpaceMapStart + 16 * c) + i / 8 / 512) =
      u64 (v.desc.freeSpaceMapStart + (65536 * c + i) / 4096) := by
    unfold u64
    omega
  have hoff : i / 8 % 512 = (65536 * c + i) % 4096 / 8 := by omega
  have hbit : i % 8 = (65536 * c + i) % 8 := by omega
  unfold bit Volume.sectors deviceAddr l0Used
  rw [if_pos (by omega), haddr, hoff, hbit]

structure PassDone (v : Volume) (fc : ℕ → ℕ) : Prop where
  counted : (∀ w, v.Aligned w) → ∀ g < v.l1Groups, fc g = v.freeSectors g
  lost : v.totalSectors + 131072 ≤ 2 ^ 64 → ¬ (∀ w, v.Aligned w) →
    ∃ g < v.l1Groups, fc g < v.freeSectors g

theorem ChunkInv.done {c : ℕ} {fc : ℕ → ℕ} (hv : v.Geometry) (h : v.ChunkInv c fc)
    (hc : v.totalSectors ≤ 65536 * c) : v.PassDone fc := by
  have hall : (∀ w, v.Aligned w) ↔ ∀ w < 1024 * c, v.Aligned w := by
    constructor
    · exact fun hall w _ => hall w
    · intro hall w
      by_cases hw : w < 1024 * c
      · exact hall w hw
      · exact aligned_of_le (by omega)
  refine ⟨fun hal g hg => ?_, fun hwrap hnot => ?_⟩
  · rw [h.counted (hall.mp hal) g hg, freeBelow_eq_freeSectors hv hg hc]
  · obtain ⟨g, hg, hlt, -⟩ := h.lost hwrap fun hal => hnot (hall.mpr hal)
    exact ⟨g, hg, hlt⟩

def MapReadable (v : Volume) : Prop :=
  v.desc.freeSpaceMapStart + v.desc.freeSpaceMapLength ≤ v.totalSectors

end Volume

open Volume

theorem countMap_post (env : Env) (v : Volume) (hv : v.Geometry)
    (hfit : v.totalSectors + 4095 < 2 ^ 64)
    (hcover : v.totalSectors ≤ 4096 * v.desc.freeSpaceMapLength) (fuel c s : ℕ) (fc : ℕ → ℕ)
    (t : Rfs) (ht : t.toVolume = v.withCounts fc) (hinv : v.ChunkInv c fc)
    (hs : 65536 * c < v.totalSectors → s = 16 * c) (hfuel : v.desc.freeSpaceMapLength ≤ s + fuel) :
    Post (countMap env v.desc.freeSpaceMapStart v.desc.freeSpaceMapLength v.totalSectors fuel
        (min v.totalSectors (65536 * c)) s) t
      (fun _ t' => ∃ fc', t'.toVolume = v.withCounts fc' ∧ v.PassDone fc')
      (fun _ => v.MapReadable → ∃ n, env.io n = false) := by
  induction fuel generalizing c s fc t with
  | zero =>
    have hc : v.totalSectors ≤ 65536 * c := by omega
    exact ⟨fc, ht, hinv.done hv hc⟩
  | succ fuel ih =>
    unfold countMap
    split
    · next hcond =>
      have hc : 65536 * c < v.totalSectors := by omega
      obtain rfl := hs hc
      have hcursor : min v.totalSectors (65536 * c) = 65536 * c := by omega
      rw [hcursor]
      simp only [post_bind, post_attempt]
      refine (rfsReadDevice_post env _ _ t).mono (fun buf t' h => ?_) (fun t' h => ?_)
      · obtain ⟨_, rfl, ht'⟩ := h
        rw [ht] at ht'
        have hbuf := holdsChunk_sectors v (c := c) (n := min
          (8 * (512 * min (v.desc.freeSpaceMapLength - 16 * c) 16)) (v.totalSectors - 65536 * c))
          rfl hc (min_le_right _ _) (by omega)
        obtain ⟨fc', pos', hrun, hpass⟩ := PassInv.countChunk hv hfit hbuf (hinv.pass hc)
        have hnext : 65536 * c + min (8 * (512 * min (v.desc.freeSpaceMapLength - 16 * c) 16))
            (v.totalSectors - 65536 * c) = min v.totalSectors (65536 * (c + 1)) := by omega
        have hsectors : t.toVolume.sectors = v.sectors := by rw [ht]; rfl
        simp only [post_modify, ht', hsectors, hrun, hnext]
        exact ih (c + 1) _ fc' _ rfl (hpass.chunk hv hbuf) (by omega) (by omega)
      · simp only [post_modify, post_fail]
        intro hread
        unfold MapReadable at hread
        apply h.2
        have htotal : t.totalSectors = v.totalSectors := by rw [ht]; rfl
        have hlt := v.totalSectors_lt
        rw [u64_of_lt (by omega)]
        exact inRange_of_le (by omega) (by omega)
    · next hcond =>
      exact ⟨fc, ht, hinv.done hv (by omega)⟩

end RetroRocket
