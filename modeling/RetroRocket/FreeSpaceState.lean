import RetroRocket.FreeSpaceMap

/-!
# What the free space map says

`l0Used` reads the bitmap on the device. `Exact` says that the summaries agree with it, and
`Sound` the part of that agreement that the driver can rely on when it trusts a summary bit.
-/

namespace RetroRocket

namespace Volume

def l0Used (v : Volume) (x : ℕ) : Bool :=
  (v.bytes (512 * u64 (v.desc.freeSpaceMapStart + x / 4096) + x % 4096 / 8)).getLsbD (x % 8)

def groupBuf (v : Volume) (g : ℕ) : Buffer := v.sectors (u64 (v.desc.freeSpaceMapStart + g)) 512

theorem bit_groupBuf (v : Volume) (g : ℕ) {i : ℕ} (hi : i < 4096) :
    bit (v.groupBuf g) i = v.l0Used (4096 * g + i) := by
  have hg : (4096 * g + i) / 4096 = g := by omega
  have hmod : (4096 * g + i) % 4096 = i := by omega
  have hbit : (4096 * g + i) % 8 = i % 8 := by omega
  have hzero : i / 8 / 512 = 0 := by omega
  have hoff : i / 8 % 512 = i / 8 := by omega
  unfold bit groupBuf sectors deviceAddr l0Used
  rw [if_pos (by omega), hg, hmod, hbit, hzero, hoff, Nat.add_zero,
    u64_of_lt (n := u64 (v.desc.freeSpaceMapStart + g)) (u64_lt _)]

/-- The group and super-group numbers are the ones `rfs_build_level_caches` computes. -/
structure Geometry (v : Volume) : Prop where
  l1Groups : v.l1Groups = u64 (v.totalSectors + 4095) / 4096
  l2Groups : v.l2Groups = (v.l1Groups + 1023) / 1024

variable {v : Volume}

theorem Geometry.l1Groups_eq (hv : v.Geometry) :
    (v.totalSectors + 4095 < 2 ^ 64 ∧ v.l1Groups = (v.totalSectors + 4095) / 4096) ∨
      (2 ^ 64 ≤ v.totalSectors + 4095 ∧ v.l1Groups = 0) := by
  have ht := v.totalSectors_lt
  have hg := hv.l1Groups
  unfold u64 at hg
  omega

theorem Geometry.start_lt (hv : v.Geometry) {g : ℕ} (hg : g < v.l1Groups) :
    4096 * g < v.totalSectors := by
  rcases hv.l1Groups_eq with ⟨_, h⟩ | ⟨_, h⟩ <;> omega

theorem Geometry.groupSize (hv : v.Geometry) {g : ℕ} (hg : g < v.l1Groups) :
    rfsGroupSize v g = min 4096 (v.totalSectors - 4096 * g) := by
  have ht := v.totalSectors_lt
  have hs := hv.start_lt hg
  rcases hv.l1Groups_eq with ⟨hlt, h⟩ | ⟨_, h⟩
  · unfold rfsGroupSize
    dsimp only
    rw [u64_of_lt (by omega), sub64_of_le (by omega) ht]
    split <;> omega
  · omega

theorem Geometry.groupSize_le (hv : v.Geometry) {g : ℕ} (hg : g < v.l1Groups) :
    rfsGroupSize v g ≤ 4096 ∧ 4096 * g + rfsGroupSize v g ≤ v.totalSectors := by
  have := hv.start_lt hg
  rw [hv.groupSize hg]
  omega

def MapInside (v : Volume) : Prop := v.desc.freeSpaceMapStart + v.l1Groups ≤ v.totalSectors

theorem inRange_mapSector {g : ℕ} (hmap : v.MapInside) (hg : g < v.l1Groups) :
    v.InRange (u64 (v.desc.freeSpaceMapStart + g)) 512 := by
  unfold MapInside at hmap
  have ht := v.totalSectors_lt
  have hlt : v.desc.freeSpaceMapStart + g < 2 ^ 64 := by omega
  rw [u64_of_lt hlt]
  exact inRange_of_le (by decide) (by omega)

def freeSectors (v : Volume) (g : ℕ) : ℕ :=
  Nat.count (fun i => v.l0Used (4096 * g + i) = false) (rfsGroupSize v g)

theorem freeSectors_le (v : Volume) (g : ℕ) : v.freeSectors g ≤ rfsGroupSize v g := Nat.count_le _

theorem freeSectors_eq_groupSize {g : ℕ} :
    v.freeSectors g = rfsGroupSize v g ↔
      ∀ i < rfsGroupSize v g, v.l0Used (4096 * g + i) = false := Nat.count_iff_forall

structure Derived (v : Volume) : Prop extends v.Geometry where
  cached : v.cached = true
  notFull : ∀ g < v.l1Groups, bitsetGet v.l1NotFull g = decide (0 < v.l1FreeCount g)
  allFree : ∀ g < v.l1Groups,
    bitsetGet v.l1AllFree g = decide (v.l1FreeCount g = rfsGroupSize v g)
  l2NotFull : ∀ sg < v.l2Groups,
    bitsetGet v.l2NotFull sg = true ↔ ∃ g ∈ superGroups v sg, bitsetGet v.l1NotFull g = true
  l2AllFree : ∀ sg < v.l2Groups,
    bitsetGet v.l2AllFree sg = true ↔ ∀ g ∈ superGroups v sg, bitsetGet v.l1AllFree g = true

structure Exact (v : Volume) : Prop extends v.Derived where
  freeCount : ∀ g < v.l1Groups, v.l1FreeCount g = v.freeSectors g

structure Sound (v : Volume) : Prop extends v.Derived where
  freeCount_le : ∀ g < v.l1Groups, v.l1FreeCount g ≤ v.freeSectors g

theorem mem_superGroups {sg g : ℕ} :
    g ∈ superGroups v sg ↔ 1024 * sg ≤ g ∧ g < 1024 * sg + 1024 ∧ g < v.l1Groups := by
  unfold superGroups
  simp only [List.mem_range'_1]
  omega

theorem Exact.allFree_iff (hv : v.Exact) {g : ℕ} (hg : g < v.l1Groups) :
    bitsetGet v.l1AllFree g = true ↔
      ∀ i < rfsGroupSize v g, v.l0Used (4096 * g + i) = false := by
  rw [hv.allFree g hg, decide_eq_true_iff, hv.freeCount g hg, freeSectors_eq_groupSize]

theorem Exact.notFull_iff (hv : v.Exact) {g : ℕ} (hg : g < v.l1Groups) :
    bitsetGet v.l1NotFull g = true ↔
      ∃ i < rfsGroupSize v g, v.l0Used (4096 * g + i) = false := by
  rw [hv.notFull g hg, decide_eq_true_iff, hv.freeCount g hg, Nat.pos_iff_ne_zero]
  exact Nat.count_ne_iff_exists

def AllFreeSound (v : Volume) : Prop :=
  ∀ g < v.l1Groups, bitsetGet v.l1AllFree g = true →
    ∀ i < rfsGroupSize v g, v.l0Used (4096 * g + i) = false

theorem Exact.sound (hv : v.Exact) : v.Sound :=
  ⟨hv.toDerived, fun g hg => (hv.freeCount g hg).le⟩

theorem Sound.allFreeSound (hv : v.Sound) : v.AllFreeSound := by
  intro g hg hbit
  rw [hv.allFree g hg, decide_eq_true_iff] at hbit
  rw [← freeSectors_eq_groupSize]
  exact le_antisymm (freeSectors_le v g) (hbit ▸ hv.freeCount_le g hg)

def summarise (v : Volume) : Volume :=
  let l1Groups := u64 (v.totalSectors + 4095) / 4096
  let children := fun sg => (List.range l1Groups).filter (fun g => g / 1024 = sg)
  { v with
    cached := true
    l1Groups := l1Groups
    l2Groups := (l1Groups + 1023) / 1024
    l1FreeCount := v.freeSectors
    l1NotFull := packBits fun g => decide (0 < v.freeSectors g)
    l1AllFree := packBits fun g => decide (v.freeSectors g = rfsGroupSize v g)
    l2NotFull := packBits fun sg => (children sg).any fun g => decide (0 < v.freeSectors g)
    l2AllFree := packBits fun sg =>
      (children sg).all fun g => decide (v.freeSectors g = rfsGroupSize v g) }

theorem summarise_groupSize (v : Volume) (g : ℕ) :
    rfsGroupSize v.summarise g = rfsGroupSize v g := by
  unfold rfsGroupSize
  rfl

theorem summarise_freeSectors (v : Volume) (g : ℕ) :
    v.summarise.freeSectors g = v.freeSectors g := by
  unfold freeSectors
  rw [summarise_groupSize]
  exact count_congr fun k _ => Iff.rfl

theorem summarise_l1FreeCount (v : Volume) (g : ℕ) :
    v.summarise.l1FreeCount g = v.freeSectors g := by
  simp only [summarise]

theorem summarise_l1NotFull (v : Volume) (g : ℕ) :
    bitsetGet v.summarise.l1NotFull g = decide (0 < v.freeSectors g) := bitsetGet_packBits _ g

theorem summarise_l1AllFree (v : Volume) (g : ℕ) :
    bitsetGet v.summarise.l1AllFree g = decide (v.freeSectors g = rfsGroupSize v g) :=
  bitsetGet_packBits _ g

theorem summarise_l2NotFull (v : Volume) (sg : ℕ) :
    bitsetGet v.summarise.l2NotFull sg = ((List.range v.summarise.l1Groups).filter
      (fun g => g / 1024 = sg)).any fun g => decide (0 < v.freeSectors g) := bitsetGet_packBits _ sg

theorem summarise_l2AllFree (v : Volume) (sg : ℕ) :
    bitsetGet v.summarise.l2AllFree sg = ((List.range v.summarise.l1Groups).filter
      (fun g => g / 1024 = sg)).all fun g => decide (v.freeSectors g = rfsGroupSize v g) :=
  bitsetGet_packBits _ sg

theorem mem_superGroups_iff {sg g : ℕ} :
    g ∈ superGroups v sg ↔ g < v.l1Groups ∧ g / 1024 = sg := by
  rw [mem_superGroups]
  omega

theorem summarise_exact (v : Volume) : v.summarise.Exact where
  l1Groups := rfl
  l2Groups := rfl
  cached := rfl
  freeCount g _ := by rw [summarise_l1FreeCount, summarise_freeSectors]
  notFull g _ := by rw [summarise_l1NotFull, summarise_l1FreeCount]
  allFree g _ := by rw [summarise_l1AllFree, summarise_l1FreeCount, summarise_groupSize]
  l2NotFull sg _ := by
    rw [summarise_l2NotFull, List.any_eq_true]
    apply exists_congr
    intro g
    rw [mem_superGroups_iff, List.mem_filter, List.mem_range, decide_eq_true_iff,
      summarise_l1NotFull]
  l2AllFree sg _ := by
    rw [summarise_l2AllFree, List.all_eq_true]
    apply forall_congr'
    intro g
    rw [mem_superGroups_iff, List.mem_filter, List.mem_range, decide_eq_true_iff,
      summarise_l1AllFree]

/-- The volume of `total` sectors whose L0 map starts at sector `start` and holds the bits `used`,
with the summaries of that map. -/
def ofMap (total start : ℕ) (used : ℕ → Bool) (htotal : total < 2 ^ 64) : Volume :=
  summarise
    { bytes := fun a => packBits used (a - 512 * start)
      totalSectors := total
      totalSectors_lt := htotal
      desc := ⟨1, start, (total + 4095) / 4096⟩
      cached := false
      l1Groups := 0
      l2Groups := 0
      l1FreeCount := fun _ => 0
      l1NotFull := fun _ => 0
      l1AllFree := fun _ => 0
      l2NotFull := fun _ => 0
      l2AllFree := fun _ => 0 }

theorem ofMap_exact (total start : ℕ) (used : ℕ → Bool) (htotal : total < 2 ^ 64) :
    (ofMap total start used htotal).Exact := summarise_exact _

theorem ofMap_l0Used {total start : ℕ} {used : ℕ → Bool} {htotal : total < 2 ^ 64} {x : ℕ}
    (hx : start + x / 4096 < 2 ^ 64) : (ofMap total start used htotal).l0Used x = used x := by
  have haddr : 512 * (start + x / 4096) + x % 4096 / 8 - 512 * start = x / 8 := by omega
  have hval : (ofMap total start used htotal).l0Used x =
      (packBits used (512 * u64 (start + x / 4096) + x % 4096 / 8 - 512 * start)).getLsbD (x % 8) :=
    rfl
  rw [hval, u64_of_lt hx, haddr]
  exact bit_packBits used x

end Volume

end RetroRocket
