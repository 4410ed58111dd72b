import RetroRocket.FreeSpaceState

/-!
# Marking an extent

Each iteration of the loop rewrites the part of the extent in one group and then the summaries of
that group, or changes nothing at all when a request fails. `Marked` says what has been written,
from the start of the extent up to some sector, and what has been left alone. The summaries stay
exact when they were, and stay sound when they only were sound.
-/

namespace RetroRocket

open RetroRocket.Action

attribute [local irreducible] rfsGroupSize sub64

/-! ## The byte loop -/

/-- The bits of one byte that `mask` covers and that are not yet `markUsed`. -/
theorem popcount_delta (markUsed : Bool) (byte : Byte) {off span : ℕ} (h : off + span ≤ 8) :
    popcount (if markUsed then ~~~byte &&& byteMask span off else byte &&& byteMask span off) =
      Nat.count (fun k => byte.getLsbD (off + k) ≠ markUsed) span := by
  have hwindow := count_window (a := off) (b := off + span) (n := 8)
    (p := fun k => (off ≤ k ∧ k < off + span) ∧ byte.getLsbD k ≠ markUsed) (q := fun _ => False)
    (by omega) h (fun k _ hout => ⟨fun hk => hout hk.1, False.elim⟩)
  have hbits : popcount (if markUsed then ~~~byte &&& byteMask span off
      else byte &&& byteMask span off) =
      Nat.count (fun k => (off ≤ k ∧ k < off + span) ∧ byte.getLsbD k ≠ markUsed) 8 := by
    refine count_congr fun k hk => ?_
    have hmask := getLsbD_byteMask span off k
    cases markUsed
    · simp only [Bool.false_eq_true, if_false, BitVec.getLsbD_and, hmask]
      grind
    · simp only [if_true, BitVec.getLsbD_and, BitVec.getLsbD_not, hmask]
      grind
  have hspan : Nat.count (fun k => (off ≤ off + k ∧ off + k < off + span) ∧
      byte.getLsbD (off + k) ≠ markUsed) span =
      Nat.count (fun k => byte.getLsbD (off + k) ≠ markUsed) span :=
    count_congr fun k hk => ⟨fun h => h.2, fun h => ⟨⟨by omega, by omega⟩, h⟩⟩
  simp only [Nat.add_sub_cancel_left, Nat.count_false, Nat.add_zero, Nat.zero_add] at hwindow
  rw [hbits, hwindow, hspan]

theorem bit_markByte (markUsed : Bool) (buf : Buffer) (b span i : ℕ) (h : b % 8 + span ≤ 8) :
    bit (Function.update buf (b / 8) (if markUsed then buf (b / 8) ||| byteMask span (b % 8)
      else buf (b / 8) &&& ~~~byteMask span (b % 8))) i =
      if b ≤ i ∧ i < b + span then markUsed else bit buf i := by
  have hlt : i % 8 < 8 := Nat.mod_lt _ (by decide)
  unfold bit
  by_cases hbyte : i / 8 = b / 8
  · have hin : (b % 8 ≤ i % 8 ∧ i % 8 < b % 8 + span) ↔ (b ≤ i ∧ i < b + span) := by omega
    rw [hbyte, Function.update_self]
    by_cases hi : b ≤ i ∧ i < b + span
    · rw [if_pos hi]
      have hmask : (byteMask span (b % 8)).getLsbD (i % 8) = true := by
        rw [getLsbD_byteMask, decide_eq_true hlt, decide_eq_true (hin.mpr hi), Bool.and_self]
      cases markUsed
      · rw [if_neg Bool.false_ne_true, BitVec.getLsbD_and, BitVec.getLsbD_not, hmask,
          Bool.not_true, Bool.and_false, Bool.and_false]
      · rw [if_pos rfl, BitVec.getLsbD_or, hmask, Bool.or_true]
    · rw [if_neg hi]
      have hmask : (byteMask span (b % 8)).getLsbD (i % 8) = false := by
        rw [getLsbD_byteMask, decide_eq_false fun h => hi (hin.mp h), Bool.and_false]
      cases markUsed
      · rw [if_neg Bool.false_ne_true, BitVec.getLsbD_and, BitVec.getLsbD_not, hmask,
          decide_eq_true hlt, Bool.not_false, Bool.and_true, Bool.and_true]
      · rw [if_pos rfl, BitVec.getLsbD_or, hmask, Bool.or_false]
  · have hi : ¬ (b ≤ i ∧ i < b + span) := by omega
    rw [Function.update_of_ne hbyte, if_neg hi]

theorem markBytes_spec (markUsed : Bool) (localEnd fuel b : ℕ) (buf : Buffer) (transitions : ℕ)
    (hb : b ≤ localEnd) (hfuel : localEnd ≤ b + fuel) :
    (∀ i, bit (markBytes markUsed localEnd fuel b buf transitions).1 i =
        if b ≤ i ∧ i < localEnd then markUsed else bit buf i) ∧
      (markBytes markUsed localEnd fuel b buf transitions).2 =
        transitions + Nat.count (fun k => bit buf (b + k) ≠ markUsed) (localEnd - b) := by
  induction fuel generalizing b buf transitions with
  | zero =>
    obtain rfl : b = localEnd := by omega
    refine ⟨fun i => ?_, by simp [markBytes]⟩
    rw [if_neg (by omega)]
    rfl
  | succ fuel ih =>
    unfold markBytes
    split
    · next hlt =>
      have hshift : b >>> 3 = b / 8 := Nat.shiftRight_eq_div_pow b 3
      have hand : b &&& 7 = b % 8 := Nat.and_two_pow_sub_one_eq_mod b 3
      dsimp only
      rw [hshift, hand]
      generalize hspan : min (8 - b % 8) (localEnd - b) = span
      have hbyte := fun i => bit_markByte markUsed buf b span i (by omega)
      obtain ⟨hbits, hcount⟩ := ih (b + span) (Function.update buf (b / 8) (if markUsed then
        buf (b / 8) ||| byteMask span (b % 8) else buf (b / 8) &&& ~~~byteMask span (b % 8)))
        (transitions + popcount (if markUsed then ~~~buf (b / 8) &&& byteMask span (b % 8)
          else buf (b / 8) &&& byteMask span (b % 8))) (by omega) (by omega)
      constructor
      · intro i
        rw [hbits, hbyte]
        by_cases hlow : b ≤ i ∧ i < b + span
        · rw [if_neg (by omega), if_pos hlow, if_pos (by omega)]
        · rw [if_neg hlow]
          congr 1
          rw [eq_iff_iff]
          omega
      · obtain ⟨r, hr⟩ : ∃ r, localEnd - b = span + r := Nat.exists_eq_add_of_le (by omega)
        have hrest : localEnd - (b + span) = r := by omega
        have hfirst : Nat.count (fun k => (buf (b / 8)).getLsbD (b % 8 + k) ≠ markUsed) span =
            Nat.count (fun k => bit buf (b + k) ≠ markUsed) span := by
          refine count_congr fun k hk => ?_
          have hdiv : (b + k) / 8 = b / 8 := by omega
          have hmod : (b + k) % 8 = b % 8 + k := by omega
          unfold bit
          rw [hdiv, hmod]
        have hlater : Nat.count (fun k => bit (Function.update buf (b / 8) (if markUsed then
            buf (b / 8) ||| byteMask span (b % 8) else buf (b / 8) &&& ~~~byteMask span (b % 8)))
            (b + span + k) ≠ markUsed) r =
            Nat.count (fun k => bit buf (b + (span + k)) ≠ markUsed) r := by
          refine count_congr fun k hk => ?_
          rw [hbyte, if_neg (by omega), Nat.add_assoc]
        rw [hcount, popcount_delta markUsed _ (by omega), hr, Nat.count_add, hrest, hfirst, hlater,
          Nat.add_assoc]
    · next hnlt =>
      obtain rfl : b = localEnd := by omega
      refine ⟨fun i => ?_, by simp⟩
      rw [if_neg (by omega)]

/-! ## The summaries of a group -/

namespace Volume

variable {v t u : Volume}

/-- The volume after counter `g` became `c` and the bits of `g` followed it. -/
def setGroup (v : Volume) (g c : ℕ) : Volume :=
  rfsUpdateL2ForGroup
    { v with
      l1FreeCount := Function.update v.l1FreeCount g c
      l1NotFull := bitsetSet v.l1NotFull g (decide (0 < c))
      l1AllFree := bitsetSet v.l1AllFree g (decide (c = rfsGroupSize v g)) } g

theorem rfsUpdateL2ForGroup_eq (v : Volume) (g : ℕ) :
    rfsUpdateL2ForGroup v g =
      { v with
        l2NotFull := bitsetSet v.l2NotFull (g / 1024)
          ((superGroups v (g / 1024)).any fun gg => decide (0 < v.l1FreeCount gg))
        l2AllFree := bitsetSet v.l2AllFree (g / 1024)
          ((superGroups v (g / 1024)).all fun gg => bitsetGet v.l1AllFree gg) } := by
  have hmin : (if 1024 * (g / 1024) + 1024 ≤ v.l1Groups then 1024 * (g / 1024) + 1024
      else v.l1Groups) = min (1024 * (g / 1024) + 1024) v.l1Groups := by
    split <;> omega
  unfold rfsUpdateL2ForGroup
  dsimp only
  rw [hmin, foldl_any_all, Bool.false_or, Bool.true_and]
  rfl

@[simp] theorem setGroup_bytes (v : Volume) (g c : ℕ) : (v.setGroup g c).bytes = v.bytes := rfl

@[simp] theorem setGroup_desc (v : Volume) (g c : ℕ) : (v.setGroup g c).desc = v.desc := rfl

@[simp] theorem setGroup_totalSectors (v : Volume) (g c : ℕ) :
    (v.setGroup g c).totalSectors = v.totalSectors := rfl

@[simp] theorem setGroup_l1Groups (v : Volume) (g c : ℕ) :
    (v.setGroup g c).l1Groups = v.l1Groups := rfl

@[simp] theorem setGroup_l2Groups (v : Volume) (g c : ℕ) :
    (v.setGroup g c).l2Groups = v.l2Groups := rfl

theorem setGroup_l1FreeCount (v : Volume) (g c g' : ℕ) :
    (v.setGroup g c).l1FreeCount g' = if g' = g then c else v.l1FreeCount g' :=
  Function.update_apply _ _ _ _

theorem setGroup_groupSize (v : Volume) (g c g' : ℕ) :
    rfsGroupSize (v.setGroup g c) g' = rfsGroupSize v g' := by
  unfold rfsGroupSize
  rfl

theorem setGroup_derived (hv : v.Derived) (g c : ℕ) : (v.setGroup g c).Derived := by
  have hnotFull : ∀ g', bitsetGet (v.setGroup g c).l1NotFull g' =
      if g' = g then decide (0 < c) else bitsetGet v.l1NotFull g' := bitsetGet_bitsetSet _ _ _
  have hallFree : ∀ g', bitsetGet (v.setGroup g c).l1AllFree g' =
      if g' = g then decide (c = rfsGroupSize v g) else bitsetGet v.l1AllFree g' :=
    bitsetGet_bitsetSet _ _ _
  have hcount := v.setGroup_l1FreeCount g c
  have hnf : ∀ g' < v.l1Groups, bitsetGet (v.setGroup g c).l1NotFull g' =
      decide (0 < (v.setGroup g c).l1FreeCount g') := by
    intro g' hg'
    rw [hnotFull, hcount]
    split
    · rfl
    · exact hv.notFull g' hg'
  refine ⟨⟨hv.l1Groups, hv.l2Groups⟩, hv.cached, hnf, fun g' hg' => ?_, fun sg hsg => ?_,
    fun sg hsg => ?_⟩
  · rw [hallFree, hcount, setGroup_groupSize]
    split
    · next hg => rw [hg]
    · exact hv.allFree g' hg'
  · have hl2 : bitsetGet (v.setGroup g c).l2NotFull sg =
        if sg = g / 1024 then (superGroups v (g / 1024)).any
          fun gg => decide (0 < (v.setGroup g c).l1FreeCount gg)
        else bitsetGet v.l2NotFull sg := by
      unfold setGroup
      rw [rfsUpdateL2ForGroup_eq]
      exact bitsetGet_bitsetSet _ _ _ _
    have hgroups : superGroups (v.setGroup g c) sg = superGroups v sg := rfl
    rw [hl2, hgroups]
    split
    · next hs =>
      rw [List.any_eq_true, ← hs]
      refine exists_congr fun g' => and_congr_right fun hmem => ?_
      rw [hnf g' (mem_superGroups.mp hmem).2.2]
    · next hs =>
      rw [hv.l2NotFull sg hsg]
      refine exists_congr fun g' => and_congr_right fun hmem => ?_
      have hne : g' ≠ g := fun h => hs (h ▸ (mem_superGroups_iff.mp hmem).2).symm
      rw [hnotFull, if_neg hne]
  · have hl2 : bitsetGet (v.setGroup g c).l2AllFree sg =
        if sg = g / 1024 then (superGroups v (g / 1024)).all
          fun gg => bitsetGet (v.setGroup g c).l1AllFree gg
        else bitsetGet v.l2AllFree sg := by
      unfold setGroup
      rw [rfsUpdateL2ForGroup_eq]
      exact bitsetGet_bitsetSet _ _ _ _
    have hgroups : superGroups (v.setGroup g c) sg = superGroups v sg := rfl
    rw [hl2, hgroups]
    split
    · next hs => rw [List.all_eq_true, ← hs]
    · next hs =>
      rw [hv.l2AllFree sg hsg]
      refine forall_congr' fun g' => imp_congr_right fun hmem => ?_
      have hne : g' ≠ g := fun h => hs (h ▸ (mem_superGroups_iff.mp hmem).2).symm
      rw [hallFree, if_neg hne]

/-! ## One map sector -/

theorem store_groupSize (v : Volume) (start size : ℕ) (data : Buffer) (g : ℕ) :
    rfsGroupSize (v.store start size data) g = rfsGroupSize v g := by
  unfold rfsGroupSize
  rfl

theorem Derived.store (hv : v.Derived) (start size : ℕ) (data : Buffer) :
    (v.store start size data).Derived := by
  refine ⟨⟨hv.l1Groups, hv.l2Groups⟩, hv.cached, hv.notFull, fun g hg => ?_, hv.l2NotFull,
    hv.l2AllFree⟩
  rw [store_groupSize]
  exact hv.allFree g hg

theorem store_groupSector_l0Used (v : Volume) (buf : Buffer) {g x : ℕ} (hg : g < 2 ^ 64)
    (hx : x / 4096 < 2 ^ 64) :
    (v.store (u64 (v.desc.freeSpaceMapStart + g)) 512 buf).l0Used x =
      if x / 4096 = g then bit buf (x % 4096) else v.l0Used x := by
  have hs := u64_lt (v.desc.freeSpaceMapStart + g)
  unfold l0Used
  rw [store_desc, v.store_bytes buf _ (by decide) (by omega)]
  by_cases hxg : x / 4096 = g
  · have hoff : 512 * u64 (v.desc.freeSpaceMapStart + g) + x % 4096 / 8 -
        512 * u64 (v.desc.freeSpaceMapStart + g) = x % 4096 / 8 := by omega
    have hbit : x % 8 = x % 4096 % 8 := by omega
    rw [if_pos hxg, hxg, if_pos (by omega), hoff, hbit]
    rfl
  · have hne : u64 (v.desc.freeSpaceMapStart + x / 4096) ≠
        u64 (v.desc.freeSpaceMapStart + g) := by
      unfold u64
      omega
    rw [if_neg hxg, if_neg (by omega)]

theorem store_groupSector_bytes (v : Volume) (buf : Buffer) (g : ℕ) {a : ℕ}
    (ha : a / 512 ≠ u64 (v.desc.freeSpaceMapStart + g)) :
    (v.store (u64 (v.desc.freeSpaceMapStart + g)) 512 buf).bytes a = v.bytes a := by
  have hs := u64_lt (v.desc.freeSpaceMapStart + g)
  rw [v.store_bytes buf _ (by decide) (by omega), if_neg (by omega)]

/-- `t` is `v` with the L0 bits of the sectors in `[lo, hi)` set to `markUsed`. Apart from the map
sectors nothing has been written, and the summaries have followed the map. -/
structure Marked (v t : Volume) (lo hi : ℕ) (markUsed : Bool) : Prop where
  totalSectors : t.totalSectors = v.totalSectors
  desc : t.desc = v.desc
  cached : t.cached = v.cached
  l1Groups : t.l1Groups = v.l1Groups
  l2Groups : t.l2Groups = v.l2Groups
  bits : ∀ x < v.totalSectors,
    t.l0Used x = if lo ≤ x ∧ x < hi then markUsed else v.l0Used x
  bytes : ∀ a, (∀ g < v.l1Groups, a / 512 ≠ u64 (v.desc.freeSpaceMapStart + g)) →
    t.bytes a = v.bytes a
  sound : v.Sound → t.Sound
  exact : v.Exact → t.Exact

theorem Marked.refl (v : Volume) (lo : ℕ) (markUsed : Bool) : v.Marked v lo lo markUsed :=
  ⟨rfl, rfl, rfl, rfl, rfl, fun x _ => by rw [if_neg (by omega)], fun _ _ => rfl, id, id⟩

theorem Marked.of_bits {lo hi : ℕ} {markUsed : Bool}
    (h : ∀ x, lo ≤ x → x < hi → v.l0Used x = markUsed) : v.Marked v lo hi markUsed := by
  refine ⟨rfl, rfl, rfl, rfl, rfl, fun x _ => ?_, fun _ _ => rfl, id, id⟩
  split
  · next hx => exact h x hx.1 hx.2
  · rfl

theorem Marked.trans {lo mid hi : ℕ} {markUsed : Bool} (h : v.Marked t lo mid markUsed)
    (h' : t.Marked u mid hi markUsed) (hlo : lo ≤ mid) (hhi : mid ≤ hi) :
    v.Marked u lo hi markUsed := by
  refine ⟨h'.totalSectors.trans h.totalSectors, h'.desc.trans h.desc, h'.cached.trans h.cached,
    h'.l1Groups.trans h.l1Groups, h'.l2Groups.trans h.l2Groups, fun x hx => ?_, fun a ha => ?_,
    fun hs => h'.sound (h.sound hs), fun he => h'.exact (h.exact he)⟩
  · have hx' : x < t.totalSectors := by rwa [h.totalSectors]
    rw [h'.bits x hx', h.bits x hx]
    by_cases hmid : x < mid
    · rw [if_neg (by omega)]
      congr 1
      rw [eq_iff_iff]
      omega
    · by_cases hin : x < hi
      · rw [if_pos (by omega), if_pos (by omega)]
      · rw [if_neg (by omega), if_neg (by omega), if_neg (by omega)]
  · have ha' : ∀ g < t.l1Groups, a / 512 ≠ u64 (t.desc.freeSpaceMapStart + g) := by
      rw [h.l1Groups, h.desc]
      exact ha
    rw [h'.bytes a ha', h.bytes a ha]

theorem Marked.geometry {lo hi : ℕ} {markUsed : Bool} (h : v.Marked t lo hi markUsed)
    (hv : v.Geometry) : t.Geometry :=
  ⟨by rw [h.l1Groups, h.totalSectors, hv.l1Groups], by rw [h.l2Groups, h.l1Groups, hv.l2Groups]⟩

theorem marked_setGroup (hv : v.Geometry) {g lo hi : ℕ} (hg : g < v.l1Groups)
    (hlo : 4096 * g ≤ lo) (hhi : hi ≤ 4096 * g + rfsGroupSize v g) {markUsed : Bool} {buf : Buffer}
    (hbuf : ∀ i < rfsGroupSize v g, bit buf i =
      if lo ≤ 4096 * g + i ∧ 4096 * g + i < hi then markUsed else v.l0Used (4096 * g + i))
    {c : ℕ} (hle : v.l1FreeCount g ≤ v.freeSectors g →
      c ≤ Nat.count (fun i => bit buf i = false) (rfsGroupSize v g))
    (heq : v.l1FreeCount g = v.freeSectors g →
      c = Nat.count (fun i => bit buf i = false) (rfsGroupSize v g)) :
    v.Marked ((v.store (u64 (v.desc.freeSpaceMapStart + g)) 512 buf).setGroup g c) lo hi
      markUsed := by
  have ht := v.totalSectors_lt
  have hstart := hv.start_lt hg
  have hgs := hv.groupSize hg
  have hl0 : ∀ x < v.totalSectors, ((v.store (u64 (v.desc.freeSpaceMapStart + g)) 512 buf).setGroup
      g c).l0Used x = if x / 4096 = g then bit buf (x % 4096) else v.l0Used x :=
    fun x hx => v.store_groupSector_l0Used buf (by omega) (by omega)
  have hsize : ∀ g', rfsGroupSize ((v.store (u64 (v.desc.freeSpaceMapStart + g)) 512 buf).setGroup
      g c) g' = rfsGroupSize v g' := by
    intro g'
    rw [setGroup_groupSize, store_groupSize]
  have hfree : ∀ g' < v.l1Groups, ((v.store (u64 (v.desc.freeSpaceMapStart + g)) 512 buf).setGroup
      g c).freeSectors g' = if g' = g then Nat.count (fun i => bit buf i = false) (rfsGroupSize v g)
        else v.freeSectors g' := by
    intro g' hg'
    have hgs' := hv.groupSize hg'
    have hstart' := hv.start_lt hg'
    unfold freeSectors
    rw [hsize]
    split
    · next h =>
      subst h
      refine count_congr fun i hi => ?_
      have hdiv : (4096 * g' + i) / 4096 = g' := by omega
      have hmod : (4096 * g' + i) % 4096 = i := by omega
      rw [hl0 _ (by omega), if_pos hdiv, hmod]
    · next h =>
      refine count_congr fun i hi => ?_
      have hdiv : (4096 * g' + i) / 4096 = g' := by omega
      rw [hl0 _ (by omega), if_neg (by rwa [hdiv])]
  have hcount := (v.store (u64 (v.desc.freeSpaceMapStart + g)) 512 buf).setGroup_l1FreeCount g c
  refine ⟨rfl, rfl, rfl, rfl, rfl, fun x hx => ?_, fun a ha => ?_, fun hs => ?_, fun he => ?_⟩
  · rw [hl0 x hx]
    split
    · next hxg =>
      have haddr : 4096 * g + x % 4096 = x := by omega
      rw [hbuf _ (by omega), haddr]
    · next hxg => rw [if_neg (by omega)]
  · exact v.store_groupSector_bytes buf g (ha g hg)
  · refine ⟨setGroup_derived (hs.toDerived.store _ _ _) g c, fun g' hg' => ?_⟩
    rw [hcount, hfree g' hg']
    split
    · next h => exact hle (h ▸ hs.freeCount_le g' hg')
    · exact hs.freeCount_le g' hg'
  · refine ⟨setGroup_derived (he.toDerived.store _ _ _) g c, fun g' hg' => ?_⟩
    rw [hcount, hfree g' hg']
    split
    · next h => exact heq (h ▸ he.freeCount g' hg')
    · exact he.freeCount g' hg'

/-! ## One group -/

theorem markWholeGroup_eq {g gSize : ℕ} (hsize : gSize = rfsGroupSize v g) (hpos : 0 < gSize)
    (hle : gSize ≤ 4096) (markUsed : Bool) :
    markWholeGroup markUsed g gSize v = v.setGroup g (if markUsed then 0 else gSize) := by
  unfold markWholeGroup setGroup
  rw [← hsize, u16_of_lt (by omega)]
  cases markUsed
  · simp [hpos]
  · simp [hpos.ne]

theorem bit_fill (markUsed : Bool) (i : ℕ) :
    bit (fun _ => if markUsed then 0xFF#8 else 0x00#8) i = markUsed := by
  have hlt : i % 8 < 8 := Nat.mod_lt _ (by decide)
  have hbyte : ∀ k < 8, (if markUsed then 0xFF#8 else 0x00#8).getLsbD k = markUsed := by
    cases markUsed <;> decide
  exact hbyte _ hlt

/-- The counter of a group after `transitions` of its bits changed. -/
def markedCount (markUsed : Bool) (gSize transitions fc : ℕ) : ℕ :=
  if markUsed then if transitions ≤ fc then u16 (fc - transitions) else 0
  else u16 (fc + u16 (min transitions (sub64 gSize fc)))

theorem markPartialGroup_eq {g gSize : ℕ} (hsize : gSize = rfsGroupSize v g) (hle : gSize ≤ 4096)
    (markUsed : Bool) (transitions : ℕ) :
    markPartialGroup markUsed g gSize transitions v =
      v.setGroup g (markedCount markUsed gSize transitions (v.l1FreeCount g)) := by
  unfold markPartialGroup setGroup markedCount
  rw [← hsize, u16_of_lt (n := gSize) (by omega)]

/-- How many bits are free after the bits in a window changed to `markUsed`. -/
theorem count_free_of_window (markUsed : Bool) {p q : ℕ → Bool} {a b n : ℕ} (hab : a ≤ b)
    (hbn : b ≤ n) (hq : ∀ i < n, q i = if a ≤ i ∧ i < b then markUsed else p i) :
    (markUsed = true → Nat.count (fun i => q i = false) n +
        Nat.count (fun k => p (a + k) ≠ markUsed) (b - a) = Nat.count (fun i => p i = false) n) ∧
      (markUsed = false → Nat.count (fun i => q i = false) n =
        Nat.count (fun i => p i = false) n +
          Nat.count (fun k => p (a + k) ≠ markUsed) (b - a)) := by
  have hwindow := count_window (p := fun i => q i = false) (q := fun i => p i = false) hab hbn
    (fun k hk hout => by rw [hq k hk, if_neg hout])
  have hinside : Nat.count (fun k => q (a + k) = false) (b - a) =
      Nat.count (fun _ => markUsed = false) (b - a) :=
    count_congr fun k hk => by rw [hq _ (by omega), if_pos (by omega)]
  have hcompl := count_compl (fun k => p (a + k) = false) (b - a)
  rw [hinside] at hwindow
  constructor
  · rintro rfl
    have hchanged : Nat.count (fun k => p (a + k) ≠ true) (b - a) =
        Nat.count (fun k => p (a + k) = false) (b - a) :=
      count_congr fun k _ => by rw [Ne, Bool.not_eq_true]
    simp only [Bool.true_eq_false, Nat.count_false] at hwindow
    omega
  · rintro rfl
    have hchanged : Nat.count (fun k => p (a + k) ≠ false) (b - a) =
        Nat.count (fun k => ¬ p (a + k) = false) (b - a) := rfl
    simp only [Nat.count_true] at hwindow
    omega

theorem markedCount_le (fc : ℕ) {markUsed : Bool} {gSize transitions free free' : ℕ}
    (hsize : gSize ≤ 4096) (hfree : free ≤ gSize) (hfree' : free' ≤ gSize)
    (hused : markUsed = true → free' + transitions = free)
    (hunused : markUsed = false → free' = free + transitions) :
    (fc ≤ free → markedCount markUsed gSize transitions fc ≤ free') ∧
      (fc = free → markedCount markUsed gSize transitions fc = free') := by
  unfold markedCount
  cases markUsed
  · have h := hunused rfl
    simp only [Bool.false_eq_true, if_false]
    unfold u16 sub64 u64
    omega
  · have h := hused rfl
    simp only [if_true]
    unfold u16
    split <;> omega

end Volume

open Volume

theorem markGroup_post (env : Env) (v : Rfs) (hv : v.Geometry) (markUsed : Bool)
    {g gSize pos take : ℕ} (hg : g < v.l1Groups) (hsize : gSize = rfsGroupSize v.toVolume g)
    (hpos : 4096 * g ≤ pos) (htake : 0 < take) (hend : pos + take ≤ 4096 * g + gSize) :
    Post (markGroup env markUsed g (4096 * g) gSize pos take) v
      (fun _ t => v.Marked t.toVolume pos (pos + take) markUsed)
      (fun t => t.toVolume = v.toVolume ∧ (v.MapInside → ∃ n, env.io n = false)) := by
  have hrange := fun hm => inRange_mapSector (v := v.toVolume) hm hg
  have hle := (hv.groupSize hg).trans_le (min_le_left _ _)
  rw [← hsize] at hle
  simp only [markGroup, post_bind, post_get]
  split
  · next hwhole =>
    simp only [post_bind, post_modify]
    refine (rfsWriteDevice_post env _ 512 _ v).mono (fun _ t h => ?_)
      (fun t h => ⟨h.1, fun hm => h.2 (hrange hm)⟩)
    obtain ⟨-, ht⟩ := h
    have hpos' : pos = 4096 * g := by omega
    have hsize' : gSize = rfsGroupSize (v.toVolume.store (u64 (v.desc.freeSpaceMapStart + g)) 512
        (fun _ => if markUsed then 0xFF#8 else 0x00#8)) g := by rw [store_groupSize, hsize]
    have hcount : Nat.count (fun i => bit (fun _ => if markUsed then 0xFF#8 else 0x00#8) i = false)
        (rfsGroupSize v.toVolume g) = if markUsed then 0 else gSize := by
      rw [← hsize]
      cases markUsed
      · exact Nat.count_iff_forall.mpr fun i _ => bit_fill false i
      · exact Nat.count_iff_forall_not.mpr fun i _ => by
          rw [bit_fill]
          exact Bool.noConfusion
    rw [ht, markWholeGroup_eq hsize' (by omega) hle]
    refine marked_setGroup hv hg hpos (by rw [← hsize]; exact hend) (fun i hi => ?_)
      (fun _ => hcount.ge) (fun _ => hcount.symm)
    rw [bit_fill, if_pos (by omega)]
  · next hcutOff =>
    simp only [post_bind]
    refine (rfsReadDevice_post env _ 512 v).mono (fun buf t h => ?_)
      (fun t h => ⟨h.1, fun hm => h.2 (hrange hm)⟩)
    obtain ⟨-, rfl, ht⟩ := h
    obtain ⟨hbits, htransitions⟩ := markBytes_spec markUsed (pos - 4096 * g + take) take
      (pos - 4096 * g) (v.groupBuf g) 0 (by omega) le_rfl
    have hwidth : pos - 4096 * g + take - (pos - 4096 * g) = take := by omega
    rw [show v.sectors (u64 (v.desc.freeSpaceMapStart + g)) 512 = v.groupBuf g from rfl]
    generalize markBytes markUsed (pos - 4096 * g + take) take (pos - 4096 * g) (v.groupBuf g) 0 = r
      at hbits htransitions ⊢
    obtain ⟨buf, transitions⟩ := r
    rw [hwidth, Nat.zero_add] at htransitions
    have hbuf : ∀ i < gSize, bit buf i = if pos ≤ 4096 * g + i ∧ 4096 * g + i < pos + take
        then markUsed else v.l0Used (4096 * g + i) := by
      intro i hi
      rw [hbits, v.bit_groupBuf g (by omega)]
      congr 1
      rw [eq_iff_iff]
      omega
    have hcount : transitions = Nat.count (fun k =>
        v.l0Used (4096 * g + (pos - 4096 * g + k)) ≠ markUsed) take := by
      refine htransitions.trans (count_congr fun k hk => ?_)
      rw [v.bit_groupBuf g (by omega)]
    split
    · next hne =>
      simp only [post_bind, post_modify]
      refine (rfsWriteDevice_post env _ 512 buf t).mono (fun _ t' h => ?_) (fun t' h => ?_)
      · obtain ⟨-, ht'⟩ := h
        rw [ht] at ht'
        obtain ⟨hused, hunused⟩ := count_free_of_window markUsed (q := bit buf)
          (p := fun i => v.l0Used (4096 * g + i)) (a := pos - 4096 * g) (b := pos - 4096 * g + take)
          (n := gSize) (by omega) (by omega) (fun i hi => by
            rw [hbuf i hi]
            congr 1
            rw [eq_iff_iff]
            omega)
        rw [hwidth, ← hcount] at hused hunused
        have hsize' : gSize = rfsGroupSize (v.toVolume.store (u64 (v.desc.freeSpaceMapStart + g))
            512 buf) g := by rw [store_groupSize, hsize]
        have hfree : Nat.count (fun i => v.l0Used (4096 * g + i) = false) gSize =
            v.freeSectors g := by rw [hsize]; rfl
        rw [hfree] at hused hunused
        have hbound : v.freeSectors g ≤ gSize := (v.freeSectors_le g).trans hsize.ge
        have hnew := markedCount_le (v.l1FreeCount g) hle hbound (Nat.count_le _) hused hunused
        rw [hsize] at hnew
        rw [ht', markPartialGroup_eq hsize' hle, hsize]
        exact marked_setGroup hv hg hpos (hsize ▸ hend) (hsize ▸ hbuf) hnew.1 hnew.2
      · rw [ht] at h
        exact ⟨h.1, fun hm => h.2 (hrange hm)⟩
    · next hzero =>
      have hnone : ∀ k < take, v.l0Used (4096 * g + (pos - 4096 * g + k)) = markUsed := by
        intro k hk
        by_contra hk'
        exact Nat.count_iff_forall_not.mp (hcount.symm.trans (not_not.mp hzero)) k hk hk'
      rw [post_pure, ht]
      refine Marked.of_bits fun x hx hx' => ?_
      have hx'' := hnone (x - pos) (by omega)
      rwa [show 4096 * g + (pos - 4096 * g + (x - pos)) = x by omega] at hx''

/-! ## The loop -/

theorem Volume.Marked.mapInside_iff {v t : Volume} {lo hi : ℕ} {markUsed : Bool}
    (h : v.Marked t lo hi markUsed) : t.MapInside ↔ v.MapInside := by
  unfold MapInside
  rw [h.desc, h.l1Groups, h.totalSectors]

theorem markLoop_post (env : Env) (markUsed : Bool) (fuel pos rem : ℕ) (v : Rfs)
    (hv : v.Geometry) (hgroups : v.l1Groups ≠ 0) (hend : pos + rem ≤ v.totalSectors)
    (hfuel : rem ≤ fuel) :
    Post (markLoop env markUsed v.totalSectors fuel pos rem) v
      (fun _ t => v.Marked t.toVolume pos (pos + rem) markUsed)
      (fun t => ∃ p, pos ≤ p ∧ p ≤ pos + rem ∧ v.Marked t.toVolume pos p markUsed ∧
        (v.MapInside → ∃ n, env.io n = false)) := by
  induction fuel generalizing pos rem v with
  | zero =>
    obtain rfl : rem = 0 := by omega
    exact Marked.refl _ _ _
  | succ fuel ih =>
    rw [markLoop]
    split
    · next hrem =>
      subst hrem
      exact Marked.refl _ _ _
    · next hrem =>
      have ht := v.totalSectors_lt
      have hfit : v.totalSectors + 4095 < 2 ^ 64 := by
        rcases hv.l1Groups_eq with ⟨h, _⟩ | ⟨_, h⟩
        · exact h
        · exact absurd h hgroups
      have hg : pos / 4096 < v.l1Groups := by
        rcases hv.l1Groups_eq with ⟨_, h⟩ | ⟨_, h⟩ <;> omega
      have hsize := hv.groupSize hg
      have hgEnd : (if u64 (4096 * (pos / 4096) + 4096) ≤ v.totalSectors
          then u64 (4096 * (pos / 4096) + 4096) else v.totalSectors) =
          4096 * (pos / 4096) + rfsGroupSize v.toVolume (pos / 4096) := by
        rw [u64_of_lt (by omega)]
        split <;> omega
      have hgSize : sub64 (4096 * (pos / 4096) + rfsGroupSize v.toVolume (pos / 4096))
          (4096 * (pos / 4096)) = rfsGroupSize v.toVolume (pos / 4096) := by
        rw [sub64_of_le (by omega) (by omega)]
        omega
      have hinGroup : sub64 (4096 * (pos / 4096) + rfsGroupSize v.toVolume (pos / 4096)) pos =
          4096 * (pos / 4096) + rfsGroupSize v.toVolume (pos / 4096) - pos :=
        sub64_of_le (by omega) (by omega)
      simp only [hgEnd, hgSize, hinGroup, post_bind]
      generalize htake : min rem
        (4096 * (pos / 4096) + rfsGroupSize v.toVolume (pos / 4096) - pos) = take
      have htake' : 0 < take ∧ take ≤ rem ∧
          pos + take ≤ 4096 * (pos / 4096) + rfsGroupSize v.toVolume (pos / 4096) := by
        omega
      refine (markGroup_post env v hv markUsed hg rfl (by omega) htake'.1 htake'.2.2).mono
        (fun _ t h => ?_) (fun t h => ?_)
      · -- the rest of the loop starts where this iteration has marked up to
        have hrest := ih (pos + take) (rem - take) t (h.geometry hv) (by rwa [h.l1Groups])
          (by rw [h.totalSectors]; omega) (by omega)
        have hsum : pos + take + (rem - take) = pos + rem := by omega
        rw [h.totalSectors, hsum] at hrest
        refine hrest.mono (fun _ u hu => h.trans hu (by omega) (by omega)) (fun u hu => ?_)
        obtain ⟨p, hp, hp', hmarked, hio⟩ := hu
        exact ⟨p, by omega, hp', h.trans hmarked (by omega) hp,
          fun hm => hio (h.mapInside_iff.mpr hm)⟩
      · exact ⟨pos, le_rfl, by omega, by rw [h.1]; exact Marked.refl _ _ _, h.2⟩

/-- The checks of `rfs_mark_extent` and the place of the map let the marking succeed. -/
structure Volume.Markable (v : Volume) (start length : ℕ) : Prop where
  length_ne : length ≠ 0
  mapStart_ne : v.desc.freeSpaceMapStart ≠ 0
  cached : v.cached = true
  l2Groups_ne : v.l2Groups ≠ 0
  start_lt : start < v.totalSectors
  mapInside : v.MapInside

/-- The extent is marked up to the end of the volume. When the call fails, it is marked up to some
sector, and the summaries have followed. -/
theorem rfsMarkExtent_post (env : Env) (v : Rfs) (hv : v.Geometry) (start length : ℕ)
    (hwrap : start + length < 2 ^ 64) (markUsed : Bool) :
    Post (rfsMarkExtent env start length markUsed) v
      (fun _ t => v.Marked t.toVolume start (min (start + length) v.totalSectors) markUsed)
      (fun t => ∃ p, start ≤ p ∧ p ≤ start + length ∧ v.Marked t.toVolume start p markUsed ∧
        (v.Markable start length → ∃ n, env.io n = false)) := by
  simp only [rfsMarkExtent, post_bind, post_get]
  split
  · next h => exact ⟨start, le_rfl, by omega, Marked.refl _ _ _, fun hm => absurd h hm.length_ne⟩
  · next hlength =>
    split
    · next h =>
      refine ⟨start, le_rfl, by omega, Marked.refl _ _ _, fun hm => ?_⟩
      rcases h with h | h | h
      · exact absurd h hm.mapStart_ne
      · rw [hm.cached] at h
        cases h
      · exact absurd h hm.l2Groups_ne
    · next hstate =>
      split
      · next h =>
        exact ⟨start, le_rfl, by omega, Marked.refl _ _ _,
          fun hm => absurd hm.start_lt (not_lt.mpr h)⟩
      · next hstart =>
        have hgroups : v.l1Groups ≠ 0 := by
          intro h
          apply hstate
          right
          right
          rw [hv.l2Groups, h]
        have hlen : (if v.totalSectors < u64 (start + length) then v.totalSectors - start
            else length) = min (start + length) v.totalSectors - start := by
          rw [u64_of_lt hwrap]
          split <;> omega
        rw [hlen, if_neg (by omega)]
        have hsum : start + (min (start + length) v.totalSectors - start) =
            min (start + length) v.totalSectors := by omega
        have hloop := markLoop_post env markUsed _ start
          (min (start + length) v.totalSectors - start) v hv hgroups (by omega) le_rfl
        rw [hsum] at hloop
        refine hloop.mono (fun _ t h => h) (fun t h => ?_)
        obtain ⟨p, hp, hp', hmarked, hio⟩ := h
        exact ⟨p, hp, by omega, hmarked, fun hm => hio hm.mapInside⟩

/-- Marking an extent keeps the summaries exact, whatever fails on the way, and when it succeeds
it changes exactly the bits of the extent. -/
theorem rfsMarkExtent_exact (env : Env) {v : Rfs} (hv : v.Exact) {start length : ℕ}
    (hwrap : start + length < 2 ^ 64) (markUsed : Bool) :
    Post (rfsMarkExtent env start length markUsed) v
      (fun _ t => t.Exact ∧ ∀ x < v.totalSectors, t.l0Used x =
        if start ≤ x ∧ x < min (start + length) v.totalSectors then markUsed else v.l0Used x)
      (fun t => t.Exact) := by
  refine (rfsMarkExtent_post env v hv.toGeometry start length hwrap markUsed).mono
    (fun _ t h => ⟨h.exact hv, h.bits⟩) (fun t h => ?_)
  obtain ⟨p, -, -, hmarked, -⟩ := h
  exact hmarked.exact hv

def middleUsed : Rfs where
  toVolume := Volume.ofMap 10000 9997 (fun x => 4096 ≤ x && x < 8192) (by decide)
  requests := 0
  allocations := 0
  lastError := .noError

theorem rfsMarkExtent_exact_middleUsed :
    Post (rfsMarkExtent Env.reliable 4000 5000 true) middleUsed
      (fun _ t => t.Exact ∧ ∀ x < middleUsed.totalSectors, t.l0Used x =
        if 4000 ≤ x ∧ x < min (4000 + 5000) middleUsed.totalSectors then true
        else middleUsed.l0Used x)
      (fun t => t.Exact) :=
  rfsMarkExtent_exact Env.reliable (v := middleUsed) (ofMap_exact _ _ _ _) (by omega) true

end RetroRocket
