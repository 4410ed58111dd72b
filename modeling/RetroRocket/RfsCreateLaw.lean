import RetroRocket.ExtentSearch
import RetroRocket.RfsCreate
import RetroRocket.RfsDirectoryLaw

/-!
# What a creation leaves on the volume

An extent that is allocated is free before, and whatever is done with it is done in free sectors:
the sectors in use keep what they hold, and so do the blocks of a directory. The entry is put in the
first empty slot of the directory, or in a block behind the last one.
-/

namespace RetroRocket

open RetroRocket.Action

attribute [local irreducible] Action.Post rfsGroupSize

def Packed (block : Buffer) : Prop := ∀ i j, i ≤ j → j < entriesPerBlock →
  entryName (dirEntry block i) 0 = 0 → entryName (dirEntry block j) 0 = 0

namespace Volume

variable {v t u : Volume}

/-! ## Sectors in use -/

def MapSector (v : Volume) (x : ℕ) : Prop :=
  ∃ g < v.l1Groups, x = u64 (v.desc.freeSpaceMapStart + g)

structure MapKept (v : Volume) : Prop where
  exact : v.Exact
  inside : v.MapInside
  groups : 0 < v.l1Groups
  map : ∀ x, v.MapSector x → v.l0Used x = true
  first : v.l0Used 0 = true

/-- The sectors that `v` has in use hold the same on `t`, the sectors of the map apart. -/
structure Kept (v t : Volume) : Prop where
  totalSectors : t.totalSectors = v.totalSectors
  desc : t.desc = v.desc
  l1Groups : t.l1Groups = v.l1Groups
  mapKept : t.MapKept
  used : ∀ x < v.totalSectors, v.l0Used x = true → t.l0Used x = true
  bytes : ∀ a, a / 512 < v.totalSectors → v.l0Used (a / 512) = true → ¬ v.MapSector (a / 512) →
    t.bytes a = v.bytes a

theorem Kept.refl (hv : v.MapKept) : v.Kept v :=
  ⟨rfl, rfl, rfl, hv, fun _ _ h => h, fun _ _ _ _ => rfl⟩

theorem Kept.mapSector_iff (h : v.Kept t) {x : ℕ} : t.MapSector x ↔ v.MapSector x := by
  unfold MapSector
  rw [h.l1Groups, h.desc]

theorem Kept.trans (h : v.Kept t) (h' : t.Kept u) : v.Kept u where
  totalSectors := h'.totalSectors.trans h.totalSectors
  desc := h'.desc.trans h.desc
  l1Groups := h'.l1Groups.trans h.l1Groups
  mapKept := h'.mapKept
  used x hx hused := h'.used x (by rwa [h.totalSectors]) (h.used x hx hused)
  bytes a ha hused hmap := by
    have hmap' : ¬ t.MapSector (a / 512) := fun hm => hmap (h.mapSector_iff.mp hm)
    rw [h'.bytes a (by rwa [h.totalSectors]) (h.used _ ha hused) hmap', h.bytes a ha hused hmap]

theorem MapKept.pos (hv : v.MapKept) : 0 < v.totalSectors := hv.exact.start_lt hv.groups

theorem MapKept.mapSector_lt (hv : v.MapKept) {x : ℕ} (hx : v.MapSector x) :
    x < v.totalSectors := by
  obtain ⟨g, hg, rfl⟩ := hx
  have ht := v.totalSectors_lt
  have hmap : v.desc.freeSpaceMapStart + v.l1Groups ≤ v.totalSectors := hv.inside
  rw [u64_of_lt (by omega)]
  omega

theorem MapKept.not_free (hv : v.MapKept) {x : ℕ} (hx : v.Free x) : ¬ v.MapSector x := by
  intro hmap
  unfold Free at hx
  rw [hv.map x hmap] at hx
  cases hx

theorem Kept.marked {s need lo hi : ℕ} {markUsed : Bool} (hv : v.MapKept) (h : v.Kept t)
    (hfree : v.FreeExtent s need) (hlo : s ≤ lo) (hhi : hi ≤ s + need)
    (hm : t.Marked u lo hi markUsed) : v.Kept u := by
  have hbit : ∀ x < v.totalSectors, v.l0Used x = true → u.l0Used x = true := by
    intro x hx hused
    have hout : ¬ (lo ≤ x ∧ x < hi) := by
      rintro ⟨hx, hx'⟩
      have hf : v.l0Used x = false := hfree.2 x (by omega) (by omega)
      rw [hused] at hf
      cases hf
    rw [hm.bits x (by rwa [h.totalSectors]), if_neg hout]
    exact h.used x hx hused
  have hsector : ∀ x, u.MapSector x → v.MapSector x := by
    intro x hx
    unfold MapSector at hx
    rw [hm.l1Groups, hm.desc] at hx
    exact h.mapSector_iff.mp hx
  refine ⟨hm.totalSectors.trans h.totalSectors, hm.desc.trans h.desc, hm.l1Groups.trans h.l1Groups,
    ⟨hm.exact h.mapKept.exact, hm.mapInside_iff.mpr h.mapKept.inside, ?_, fun x hx => ?_,
      hbit 0 hv.pos hv.first⟩, hbit, fun a ha hused hnot => ?_⟩
  · rw [hm.l1Groups]
    exact h.mapKept.groups
  · have hx' := hsector x hx
    exact hbit x (hv.mapSector_lt hx') (hv.map x hx')
  · rw [hm.bytes a, h.bytes a ha hused hnot]
    intro g hg heq
    rw [h.l1Groups] at hg
    rw [h.desc] at heq
    exact hnot ⟨g, hg, heq⟩

theorem store_mapSector {start size x : ℕ} {data : Buffer} :
    (v.store start size data).MapSector x ↔ v.MapSector x := Iff.rfl

theorem store_l0Used {start size x : ℕ} (data : Buffer) (hsize : size % 512 = 0)
    (hend : start + size / 512 ≤ v.totalSectors) (hx : x / 4096 < v.l1Groups)
    (hmap : ∀ y, v.MapSector y → y < start ∨ start + size / 512 ≤ y) :
    (v.store start size data).l0Used x = v.l0Used x := by
  have ht := v.totalSectors_lt
  have hout := hmap _ ⟨x / 4096, hx, rfl⟩
  unfold l0Used
  rw [v.store_bytes data _ hsize (by omega), store_desc]
  rw [if_neg (by omega)]

theorem Exact.store {start size : ℕ} (hv : v.Exact) (data : Buffer) (hsize : size % 512 = 0)
    (hend : start + size / 512 ≤ v.totalSectors)
    (hmap : ∀ y, v.MapSector y → y < start ∨ start + size / 512 ≤ y) :
    (v.store start size data).Exact := by
  refine ⟨hv.toDerived.store start size data, fun g hg => ?_⟩
  have hle := (hv.groupSize hg).trans_le (min_le_left _ _)
  have hfree : (v.store start size data).freeSectors g = v.freeSectors g := by
    unfold freeSectors
    rw [store_groupSize]
    refine count_congr fun i hi => ?_
    have hdiv : (4096 * g + i) / 4096 = g := by omega
    rw [store_l0Used data hsize hend (by rwa [hdiv]) hmap]
  rw [hfree]
  exact hv.freeCount g hg

theorem MapKept.store {start size : ℕ} (hv : v.MapKept) (data : Buffer) (hsize : size % 512 = 0)
    (hend : start + size / 512 ≤ v.totalSectors)
    (hmap : ∀ y, v.MapSector y → y < start ∨ start + size / 512 ≤ y) :
    (v.store start size data).MapKept ∧
      ∀ x < v.totalSectors, (v.store start size data).l0Used x = v.l0Used x := by
  have hbit : ∀ x < v.totalSectors, (v.store start size data).l0Used x = v.l0Used x := by
    intro x hx
    have hgroup : x / 4096 < v.l1Groups := by
      rcases hv.exact.l1Groups_eq with ⟨-, h⟩ | ⟨-, h⟩
      · omega
      · exact absurd h hv.groups.ne'
    exact store_l0Used data hsize hend hgroup hmap
  refine ⟨⟨hv.exact.store data hsize hend hmap, hv.inside, hv.groups, fun x hx => ?_, ?_⟩, hbit⟩
  · rw [hbit x (hv.mapSector_lt hx)]
    exact hv.map x hx
  · rw [hbit 0 hv.pos]
    exact hv.first

theorem Kept.store {s need start size : ℕ} (hv : v.MapKept) (h : v.Kept t)
    (hfree : v.FreeExtent s need)
    (data : Buffer) (hsize : size % 512 = 0) (hlo : s ≤ start)
    (hhi : start + size / 512 ≤ s + need) :
    v.Kept (t.store start size data) := by
  have hend : start + size / 512 ≤ t.totalSectors := by
    rw [h.totalSectors]
    exact hhi.trans hfree.1
  have hmap : ∀ y, t.MapSector y → y < start ∨ start + size / 512 ≤ y := by
    intro y hy
    by_contra hin
    exact hv.not_free (hfree.2 y (by omega) (by omega)) (h.mapSector_iff.mp hy)
  obtain ⟨hkept, hbit⟩ := h.mapKept.store data hsize hend hmap
  refine ⟨h.totalSectors, h.desc, h.l1Groups, hkept, fun x hx hused => ?_,
    fun a ha hused hnot => ?_⟩
  · rw [hbit x (by rwa [h.totalSectors])]
    exact h.used x hx hused
  · have ht := t.totalSectors_lt
    have hout : ¬ (512 * start ≤ a ∧ a < 512 * start + size) := by
      rintro ⟨ha, ha'⟩
      have hf : v.l0Used (a / 512) = false := hfree.2 (a / 512) (by omega) (by omega)
      rw [hused] at hf
      cases hf
    rw [t.store_bytes data a hsize (by omega), if_neg hout]
    exact h.bytes a ha hused hnot

/-! ## Directories -/

variable {start : ℕ} {blocks : List ℕ}

/-- A directory whose blocks lie in used sectors, apart from the map and from each other. In each of
them the empty entries are the last ones. -/
structure Directory (v : Volume) (start : ℕ) (blocks : List ℕ) : Prop where
  mapKept : v.MapKept
  chain : v.DirChain start blocks
  used : ∀ b ∈ blocks, ∀ x, b ≤ x → x < b + 64 → v.l0Used x = true ∧ ¬ v.MapSector x
  nodup : blocks.Nodup
  apart : ∀ b ∈ blocks, ∀ c ∈ blocks, b ≠ c → b + 64 ≤ c ∨ c + 64 ≤ b
  names : ∀ b ∈ blocks, ∀ i < entriesPerBlock, NameEnds (dirEntry (v.block b) i)
  packed : ∀ b ∈ blocks, Packed (v.block b)

def HasSlot (v : Volume) (blocks : List ℕ) : Prop :=
  ∃ b ∈ blocks, ∃ i < entriesPerBlock, entryName (dirEntry (v.block b) i) 0 = 0

theorem Directory.inVolume (h : v.Directory start blocks) {b : ℕ} (hb : b ∈ blocks) :
    b + 64 ≤ v.totalSectors := (h.chain.isBlock b hb).inVolume

theorem Directory.block_kept (h : v.Directory start blocks) (hk : v.Kept t) {b : ℕ}
    (hb : b ∈ blocks) :
    t.block b = v.block b := by
  have hin := h.inVolume hb
  refine block_congr hin hk.totalSectors fun a ha ha' => ?_
  obtain ⟨hused, hmap⟩ := h.used b hb _ ha ha'
  exact hk.bytes a (by omega) hused hmap

theorem Directory.kept (h : v.Directory start blocks) (hk : v.Kept t) :
    t.Directory start blocks := by
  have hblock := fun b hb => h.block_kept hk (b := b) hb
  refine ⟨hk.mapKept, h.chain.congr hk.totalSectors fun b hb k _ => by rw [hblock b hb], ?_,
    h.nodup, h.apart, fun b hb => ?_, fun b hb => ?_⟩
  · intro b hb x hx hx'
    have hin := h.inVolume hb
    obtain ⟨hused, hmap⟩ := h.used b hb x hx hx'
    exact ⟨hk.used x (by omega) hused, fun hm => hmap (hk.mapSector_iff.mp hm)⟩
  · rw [hblock b hb]
    exact h.names b hb
  · rw [hblock b hb]
    exact h.packed b hb

theorem HasSlot.kept (hd : v.Directory start blocks) (hk : v.Kept t) :
    t.HasSlot blocks ↔ v.HasSlot blocks := by
  refine exists_congr fun b => and_congr_right fun hb => ?_
  rw [hd.block_kept hk hb]

theorem walk_congr {name : List Byte} {l : List ℕ} (h : ∀ b ∈ l, t.block b = v.block b) :
    t.walk name l = v.walk name l := by
  induction l with
  | nil => rfl
  | cons b l ih =>
    rw [List.forall_mem_cons] at h
    rw [walk, walk, h.1, ih h.2]

theorem Directory.map_apart (h : v.Directory start blocks) {b y : ℕ} (hb : b ∈ blocks)
    (hy : v.MapSector y) : y < b ∨ b + 64 ≤ y := by
  by_contra hin
  exact (h.used b hb y (by omega) (by omega)).2 hy

theorem MapKept.storeBlock (hv : v.MapKept) {b : ℕ} (hb : b + 64 ≤ v.totalSectors) (data : Buffer)
    (hmap : ∀ y, v.MapSector y → y < b ∨ b + 64 ≤ y) :
    (v.store b rfsDirBytes data).MapKept ∧
      ∀ x < v.totalSectors, (v.store b rfsDirBytes data).l0Used x = v.l0Used x := by
  have hsize : rfsDirBytes % 512 = 0 := by decide
  exact hv.store data hsize hb hmap

theorem Directory.store (h : v.Directory start blocks) {b : ℕ} (hb : b ∈ blocks) {data : Buffer}
    (hend : ∀ k, rfsDirBytes ≤ k → data k = 0) (hstart : ∀ k < 256, data k = v.block b k)
    (hnames : ∀ i < entriesPerBlock, NameEnds (dirEntry data i))
    (hpacked : Packed data) :
    (v.store b rfsDirBytes data).Directory start blocks ∧
      (v.store b rfsDirBytes data).block b = data ∧
        ∀ c ∈ blocks, c ≠ b → (v.store b rfsDirBytes data).block c = v.block c := by
  have hsame : (v.store b rfsDirBytes data).block b = data := block_store (h.inVolume hb) data hend
  have hother : ∀ c ∈ blocks, c ≠ b → (v.store b rfsDirBytes data).block c = v.block c :=
    fun c hc hne =>
      block_store_of_ne (h.inVolume hb) (h.inVolume hc) (h.apart b hb c hc hne.symm) data
  obtain ⟨hkept, hbit⟩ := h.mapKept.storeBlock (h.inVolume hb) data fun y hy => h.map_apart hb hy
  have hchain : (v.store b rfsDirBytes data).DirChain start blocks := by
    refine h.chain.congr rfl fun c hc k hk => ?_
    by_cases hcb : c = b
    · rw [hcb, hsame]
      exact hstart k hk
    · rw [hother c hc hcb]
  refine ⟨⟨hkept, hchain, fun c hc x hx hx' => ?_, h.nodup, h.apart, fun c hc => ?_,
    fun c hc => ?_⟩,
    hsame, hother⟩
  · have hin := h.inVolume hc
    rw [hbit x (by omega)]
    exact h.used c hc x hx hx'
  · by_cases hcb : c = b
    · rw [hcb, hsame]
      exact hnames
    · rw [hother c hc hcb]
      exact h.names c hc
  · by_cases hcb : c = b
    · rw [hcb, hsame]
      exact hpacked
    · rw [hother c hc hcb]
      exact h.packed c hc

structure Spare (v : Volume) (blocks : List ℕ) (new : ℕ) : Prop where
  ne_zero : new ≠ 0
  inVolume : new + 64 ≤ v.totalSectors
  used : ∀ x, new ≤ x → x < new + 64 → v.l0Used x = true ∧ ¬ v.MapSector x
  apart : ∀ c ∈ blocks, c + 64 ≤ new ∨ new + 64 ≤ c

def extended (v : Volume) (b new : ℕ) (fresh : Buffer) : Volume :=
  (v.store b rfsDirBytes (store64 148 new (v.block b))).store new rfsDirBytes fresh

variable {l : List ℕ} {b new : ℕ} {fresh : Buffer}

theorem extended_block_new (hs : v.Spare blocks new) (hend : ∀ k, rfsDirBytes ≤ k → fresh k = 0) :
    (v.extended b new fresh).block new = fresh := by
  have hin : new + 64 ≤ (v.store b rfsDirBytes (store64 148 new (v.block b))).totalSectors :=
    hs.inVolume
  exact block_store hin fresh hend

theorem Directory.extended_block_last (h : v.Directory start blocks) (hb : b ∈ blocks)
    (hs : v.Spare blocks new) :
    (v.extended b new fresh).block b = store64 148 new (v.block b) := by
  have hend : ∀ k, rfsDirBytes ≤ k → store64 148 new (v.block b) k = 0 := by
    intro k hk
    have hk' : 512 * 64 ≤ k := hk
    rw [store64_of_ne (by omega), block_of_ge hk]
  have hother : (v.extended b new fresh).block b =
      (v.store b rfsDirBytes (store64 148 new (v.block b))).block b :=
    block_store_of_ne (v := v.store b rfsDirBytes (store64 148 new (v.block b))) hs.inVolume
      (h.inVolume hb) (hs.apart b hb).symm fresh
  rw [hother, block_store (h.inVolume hb) _ hend]

theorem Directory.extended_block_of_ne (h : v.Directory start blocks) (hb : b ∈ blocks)
    (hs : v.Spare blocks new) {c : ℕ} (hc : c ∈ blocks) (hne : c ≠ b) :
    (v.extended b new fresh).block c = v.block c := by
  have hother : (v.extended b new fresh).block c =
      (v.store b rfsDirBytes (store64 148 new (v.block b))).block c :=
    block_store_of_ne (v := v.store b rfsDirBytes (store64 148 new (v.block b))) hs.inVolume
      (h.inVolume hc) (hs.apart c hc).symm fresh
  rw [hother]
  exact block_store_of_ne (h.inVolume hb) (h.inVolume hc) (h.apart b hb c hc hne.symm) _

theorem Directory.extended_mapKept (h : v.Directory start blocks) (hb : b ∈ blocks)
    (hs : v.Spare blocks new) : (v.extended b new fresh).MapKept ∧
      ∀ x < v.totalSectors, (v.extended b new fresh).l0Used x = v.l0Used x := by
  obtain ⟨hkept, hbit⟩ := h.mapKept.storeBlock (h.inVolume hb) (store64 148 new (v.block b))
    fun y hy => h.map_apart hb hy
  obtain ⟨hkept', hbit'⟩ := hkept.storeBlock (b := new) hs.inVolume fresh fun y hy => by
    by_contra hin
    exact (hs.used y (by omega) (by omega)).2 hy
  exact ⟨hkept', fun x hx => (hbit' x hx).trans (hbit x hx)⟩

theorem dirEntry_store64 {block : Buffer} {value i : ℕ} :
    dirEntry (store64 148 value block) i = dirEntry block i := by
  funext k
  unfold dirEntry
  rw [store64_of_ne (by omega)]

theorem Directory.extended (h : v.Directory start (l ++ [b])) (hs : v.Spare (l ++ [b]) new)
    (hend : ∀ k, rfsDirBytes ≤ k → fresh k = 0) (hstart : startOk fresh = true)
    (hcont : continuation fresh = 0) (hnames : ∀ i < entriesPerBlock, NameEnds (dirEntry fresh i))
    (hpacked : Packed fresh) :
    (v.extended b new fresh).Directory start (l ++ [b] ++ [new]) := by
  have hb : b ∈ l ++ [b] := List.mem_append_right l List.mem_cons_self
  have hl : ∀ c ∈ l, c ∈ l ++ [b] := fun c hc => List.mem_append_left [b] hc
  have hne : ∀ c ∈ l, c ≠ b := fun c hc =>
    (List.nodup_append.mp h.nodup).2.2 c hc b List.mem_cons_self
  have hnew : (v.extended b new fresh).block new = fresh := extended_block_new hs hend
  have htotal : (v.extended b new fresh).totalSectors = v.totalSectors := rfl
  have hmap : ∀ x, (v.extended b new fresh).MapSector x → v.MapSector x := fun _ hx => hx
  have hlast : (v.extended b new fresh).block b = store64 148 new (v.block b) :=
    h.extended_block_last hb hs
  have hother : ∀ c ∈ l, (v.extended b new fresh).block c = v.block c :=
    fun c hc => h.extended_block_of_ne hb hs (hl c hc) (hne c hc)
  obtain ⟨hkept, hbit⟩ : (v.extended b new fresh).MapKept ∧
      ∀ x < v.totalSectors, (v.extended b new fresh).l0Used x = v.l0Used x :=
        h.extended_mapKept hb hs
  generalize v.extended b new fresh = t at *
  have hmem : ∀ c ∈ l ++ [b] ++ [new], c ∈ l ++ [b] ∨ c = new := fun c hc => by
    rw [List.mem_append, List.mem_singleton] at hc
    exact hc
  have hentry : ∀ c ∈ l ++ [b], ∀ i, dirEntry (t.block c) i = dirEntry (v.block c) i := by
    intro c hc i
    rcases List.mem_append.mp hc with hc | hc
    · rw [hother c hc]
    · rw [List.mem_singleton.mp hc, hlast, dirEntry_store64]
  refine ⟨hkept, ?_, ?_, ?_, ?_, ?_, ?_⟩
  · refine h.chain.snoc htotal (fun c hc k _ => by rw [hother c hc]) (fun k hk => ?_) ?_ ?_ ?_
    · rw [hlast, store64_of_ne (Or.inl hk)]
    · rw [hlast]
      have ht := v.totalSectors_lt
      have hin := hs.inVolume
      exact load64_store64 _ (by omega)
    · exact ⟨hs.ne_zero, htotal.symm ▸ hs.inVolume, by rw [hnew, hstart]⟩
    · rw [hnew, hcont]
  · intro c hc x hx hx'
    have hold : x < v.totalSectors ∧ v.l0Used x = true ∧ ¬ v.MapSector x := by
      rcases hmem c hc with hc | rfl
      · have hin := h.inVolume hc
        exact ⟨by omega, h.used c hc x hx hx'⟩
      · have hin := hs.inVolume
        exact ⟨by omega, hs.used x hx hx'⟩
    rw [hbit x hold.1]
    exact ⟨hold.2.1, fun hx => hold.2.2 (hmap x hx)⟩
  · refine List.nodup_append.mpr ⟨h.nodup, List.nodup_singleton new, fun c hc d hd heq => ?_⟩
    have hapart := hs.apart c hc
    rw [List.mem_singleton] at hd
    omega
  · intro c hc d hd hcd
    rcases hmem c hc with hc | hc <;> rcases hmem d hd with hd | hd
    · exact h.apart c hc d hd hcd
    · rw [hd]
      exact hs.apart c hc
    · rw [hc]
      exact (hs.apart d hd).symm
    · exact absurd (hc.trans hd.symm) hcd
  · intro c hc i hi
    rcases hmem c hc with hc | rfl
    · rw [hentry c hc]
      exact h.names c hc i hi
    · rw [hnew]
      exact hnames i hi
  · intro c hc
    rcases hmem c hc with hc | rfl
    · intro i j
      rw [hentry c hc, hentry c hc]
      exact h.packed c hc i j
    · rw [hnew]
      exact hpacked

end Volume

/-! ## Blocks with an entry put in -/

variable {block e : Buffer} {file : FileInfo} {sectorExtent i : ℕ}

theorem putEntry_end (hi : i < entriesPerBlock) (hend : ∀ k, rfsDirBytes ≤ k → block k = 0) {k : ℕ}
    (hk : rfsDirBytes ≤ k) : putEntry block i e k = 0 := by
  have hi' : i < 127 := hi
  have hk' : 512 * 64 ≤ k := hk
  unfold putEntry
  rw [if_neg (by omega), hend k hk]

theorem putEntry_names (he : NameEnds e)
    (hnames : ∀ j < entriesPerBlock, NameEnds (dirEntry block j)) :
    ∀ j < entriesPerBlock, NameEnds (dirEntry (putEntry block i e) j) := by
  intro j hj
  by_cases hji : j = i
  · rw [hji]
    exact he.congr fun k hk => dirEntry_putEntry hk
  · exact (hnames j hj).congr fun k hk => dirEntry_putEntry_of_ne hji hk

theorem putEntry_packed (he : entryName e 0 ≠ 0) (hpacked : Packed block)
    (hbefore : ∀ j < i, entryName (dirEntry block j) 0 ≠ 0)
    (hempty : entryName (dirEntry block i) 0 = 0) : Packed (putEntry block i e) := by
  have hother : ∀ j, j ≠ i → entryName (dirEntry (putEntry block i e) j) 0 =
      entryName (dirEntry block j) 0 := fun j hj => dirEntry_putEntry_of_ne hj (by decide)
  have hput : entryName (dirEntry (putEntry block i e) i) 0 = entryName e 0 :=
    dirEntry_putEntry (by decide)
  intro j k hjk hk hzero
  rcases lt_trichotomy j i with hji | hji | hji
  · rw [hother j hji.ne] at hzero
    exact absurd hzero (hbefore j hji)
  · rw [hji, hput] at hzero
    exact absurd hzero he
  · rw [hother k (by omega)]
    exact hpacked i k (by omega) hk hempty

theorem newEntry_first (hne : file.filename ≠ []) (hzero : (0 : Byte) ∉ file.filename) :
    entryName (newEntry file sectorExtent e) 0 ≠ 0 := by
  rw [newEntry_name (by decide)]
  unfold strlcpy
  cases hname : file.filename with
  | nil => exact absurd hname hne
  | cons c name =>
    rw [hname] at hzero
    rw [if_pos ⟨le_rfl, by simp [rfsMaxName]⟩]
    exact fun h => hzero (h ▸ List.mem_cons_self)

def freshBlock (start : ℕ) : Buffer :=
  store64 140 64 (store64 132 start fun k => if k = 0 then flagDirStart else 0)

theorem freshBlock_of_le {start k : ℕ} (hk : 148 ≤ k) : freshBlock start k = 0 := by
  unfold freshBlock
  rw [store64_of_ne (by omega), store64_of_ne (by omega), if_neg (by omega)]

theorem freshBlock_startOk (start : ℕ) : startOk (freshBlock start) = true := by
  have hsectors : load64 (freshBlock start) 140 = 64 := load64_store64 _ (by decide)
  have hflags : freshBlock start 0 = flagDirStart := by
    unfold freshBlock
    rw [store64_of_ne (by omega), store64_of_ne (by omega), if_pos rfl]
  unfold startOk
  rw [hsectors, hflags]
  decide

theorem freshBlock_continuation (start : ℕ) : continuation (freshBlock start) = 0 := by
  have hload : load64 (freshBlock start) 148 = load64 (fun _ => 0) 148 :=
    leValue_congr_of_mem fun k hk _ => freshBlock_of_le hk
  exact hload

theorem freshBlock_entry (start j : ℕ) : dirEntry (freshBlock start) j = fun _ => 0 := by
  funext k
  unfold dirEntry
  exact freshBlock_of_le (by omega)

/-! ## Entering -/

namespace Volume

variable {v t u : Volume} {start : ℕ} {blocks : List ℕ}

inductive Entered (v t : Volume) (start : ℕ) (blocks : List ℕ) (file : FileInfo) : List ℕ → Prop
  | slot {l₁ l₂ : List ℕ} {b i sectorExtent : ℕ} {e : Buffer} (hblocks : blocks = l₁ ++ b :: l₂)
      (hfull : ∀ c ∈ l₁, scanBlock (v.block c) file.filename = .full)
      (hempty : scanBlock (v.block b) file.filename = .empty i)
      (hput : t.block b = putEntry (v.block b) i (newEntry file sectorExtent e))
      (hother : ∀ c ∈ blocks, c ≠ b → t.block c = v.block c) (ht : t.Directory start blocks)
      (hdesc : t.desc = v.desc) : Entered v t start blocks file blocks
  | fresh {new sectorExtent : ℕ} (hfull : ∀ c ∈ blocks, scanBlock (v.block c) file.filename = .full)
      (hput : t.block new = putEntry (freshBlock start) 0 (newEntry file sectorExtent fun _ => 0))
      (hentry : ∀ c ∈ blocks, ∀ j, dirEntry (t.block c) j = dirEntry (v.block c) j)
      (ht : t.Directory start (blocks ++ [new])) (hdesc : t.desc = v.desc) :
      Entered v t start blocks file (blocks ++ [new])

end Volume

variable {v : Volume} {t : Rfs} {s need start lbapos : ℕ} {blocks : List ℕ}

theorem rfsMarkExtent_kept (hv : v.MapKept) (h : v.Kept t.toVolume) (hfree : v.FreeExtent s need)
    (markUsed : Bool) :
    Post (rfsMarkExtent Env.reliable s need markUsed) t
      (fun _ u => v.Kept u.toVolume ∧ ∀ x, s ≤ x → x < s + need → u.l0Used x = markUsed)
      (fun u => v.Kept u.toVolume ∧ ¬ t.Markable s need) := by
  have hend : s + need ≤ t.totalSectors := by
    rw [h.totalSectors]
    exact hfree.1
  have hlt := t.totalSectors_lt
  have hmark :=
    rfsMarkExtent_post Env.reliable t h.mapKept.exact.toGeometry s need (by omega) markUsed
  refine hmark.mono (fun _ u hu => ?_) (fun u hu => ?_)
  · rw [min_eq_left hend] at hu
    refine ⟨h.marked hv hfree le_rfl le_rfl hu, fun x hx hx' => ?_⟩
    rw [hu.bits x (by omega), if_pos ⟨hx, hx'⟩]
  · obtain ⟨p, -, hp, hu, hio⟩ := hu
    refine ⟨h.marked hv hfree le_rfl hp hu, fun hmarkable => ?_⟩
    obtain ⟨n, hn⟩ := hio hmarkable
    cases hn

theorem spare_of_free {u : Volume} (hd : v.Directory start blocks) (hu : v.Kept u)
    (hfree : v.FreeExtent s 64) (hused : ∀ x, s ≤ x → x < s + 64 → u.l0Used x = true) :
    u.Spare blocks s := by
  have hnot : ∀ x, s ≤ x → x < s + 64 → v.l0Used x ≠ true := by
    intro x hx hx' h
    have hf : v.l0Used x = false := hfree.2 x hx hx'
    rw [h] at hf
    cases hf
  refine ⟨fun h0 => ?_, ?_, fun x hx hx' => ⟨hused x hx hx', fun hm => ?_⟩, fun c hc => ?_⟩
  · exact hnot 0 (by omega) (by omega) hd.mapKept.first
  · rw [hu.totalSectors]
    exact hfree.1
  · exact hd.mapKept.not_free (hfree.2 x hx hx') (hu.mapSector_iff.mp hm)
  · by_contra hin
    have hmax := hd.used c hc (max c s) (by omega) (by omega)
    exact hnot (max c s) (by omega) (by omega) hmax.1

theorem Volume.Kept.dirStart {u : Volume} (h : v.Kept u) (lbapos : ℕ) :
    dirStart u lbapos = dirStart v lbapos := by
  unfold RetroRocket.dirStart
  rw [h.desc]

theorem extendDirectory_post {v : Rfs} (hd : v.Directory start blocks)
    (hstart : dirStart v.toVolume lbapos = start) (hlen : blocks.length ≤ walkLimit)
    (hfull : ∀ c ∈ blocks, scanBlock (v.block c) file.filename = .full) (hne : file.filename ≠ [])
    (hzero : (0 : Byte) ∉ file.filename) :
    Post (extendDirectory Env.reliable lbapos file sectorExtent) v
      (fun _ t => ∃ new, v.Entered t.toVolume start blocks file (blocks ++ [new]))
      (fun t => v.Kept t.toVolume) := by
  have hfirst : entryName (newEntry file sectorExtent fun _ => 0) 0 ≠ 0 := newEntry_first hne hzero
  have hsound := hd.mapKept.exact.sound.allFreeSound
  have hrefl := Volume.Kept.refl hd.mapKept
  unfold extendDirectory
  rw [post_bind]
  refine (rfsFindFreeExtent_small_post Env.reliable
    (by decide) v hd.mapKept.exact.toGeometry hsound).mono
    (fun new t ht => ?_) (fun t ht => ht.symm ▸ hrefl)
  obtain ⟨ht, hfree⟩ := ht
  rw [post_bind]
  refine (rfsMarkExtent_kept hd.mapKept (ht.symm ▸ hrefl) hfree true).mono (fun _ u hu => ?_)
    (fun u hu => hu.1)
  obtain ⟨hu, hused⟩ := hu
  have hdu := hd.kept hu
  have hspare := spare_of_free hd hu hfree hused
  rw [post_bind, post_get, post_bind, hu.dirStart, hstart]
  refine (lastBlock_post hdu.chain hlen).mono (fun r u' hr => ?_) (fun _ h => h.elim)
  obtain ⟨hu', l, b, rfl, rfl⟩ := hr
  have hb : b ∈ l ++ [b] := List.mem_append_right l List.mem_cons_self
  dsimp only
  rw [post_bind]
  refine (rfsWriteDevice_reliable _ ?_).mono (fun _ w hw => ?_) (fun _ h => h.elim)
  · rw [hu']
    exact inRange_block (hdu.inVolume hb)
  rw [hu'] at hw
  refine (rfsWriteDevice_reliable _ ?_).mono (fun _ w' hw' => ?_) (fun _ h => h.elim)
  · rw [hw]
    exact inRange_block hspare.inVolume
  have hw'' : w'.toVolume = u.extended b new
      (putEntry (freshBlock start) 0 (newEntry file sectorExtent fun _ => 0)) := by
    rw [hw', hw]
    rfl
  rw [hw'']
  have hend : ∀ k, rfsDirBytes ≤ k →
      putEntry (freshBlock start) 0 (newEntry file sectorExtent fun _ => 0) k = 0 := by
    refine fun k hk => putEntry_end (by decide) (fun k hk => freshBlock_of_le ?_) hk
    have hk' : 512 * 64 ≤ k := hk
    omega
  have hzeros : ∀ j, entryName (dirEntry (freshBlock start) j) 0 = 0 := fun j => by
    rw [freshBlock_entry]
    rfl
  have hds := hdu.extended hspare hend
    ((startOk_congr fun k hk => putEntry_of_lt (by omega)).trans (freshBlock_startOk start))
    ((continuation_congr fun k hk => putEntry_of_lt hk).trans (freshBlock_continuation start))
    (putEntry_names newEntry_ends fun j _ => ⟨0, by decide, hzeros j⟩)
    (putEntry_packed hfirst (fun _ j _ _ _ => hzeros j) (fun j hj => absurd hj (Nat.not_lt_zero j))
      (hzeros 0))
  refine ⟨new, Volume.Entered.fresh hfull (Volume.extended_block_new hspare hend)
    (fun c hc j => ?_) hds
    hu.desc⟩
  by_cases hcb : c = b
  · rw [hcb, hdu.extended_block_last hb hspare, Volume.dirEntry_store64, hd.block_kept hu hb]
  · rw [hdu.extended_block_of_ne hb hspare hc hcb, hd.block_kept hu hc]

/-- With a name that is not there, the entry is put in the directory, or the volume keeps what it
holds; this only happens without an empty slot, or behind too many blocks. -/
theorem rfsUpsertDirectoryEntry_post {v : Rfs} (hd : v.Directory start blocks)
    (hstart : dirStart v.toVolume lbapos = start)
    (hwalk : v.walk file.filename (blocks.take walkLimit) = none) (hne : file.filename ≠ [])
    (hzero : (0 : Byte) ∉ file.filename) :
    Post (rfsUpsertDirectoryEntry Env.reliable lbapos file sectorExtent) v
      (fun _ t => blocks.length ≤ walkLimit ∧
        ∃ blocks', v.Entered t.toVolume start blocks file blocks')
      (fun t => v.Kept t.toVolume ∧ (blocks.length ≤ walkLimit → ¬ v.HasSlot blocks)) := by
  have hrefl := Volume.Kept.refl hd.mapKept
  unfold rfsUpsertDirectoryEntry
  rw [if_neg hne, post_bind, post_get, post_bind, hstart]
  refine (upsertWalk_post hd.chain).mono (fun r t hr => ?_) (fun t ht => ?_)
  · obtain ⟨ht, hr⟩ := hr
    obtain ⟨hlen, rfl⟩ := hr hwalk
    rw [List.take_of_length_le hlen] at hwalk
    have hdt : t.Directory start blocks := ht.symm ▸ hd
    rcases place_cases hwalk with ⟨hplace, hfull⟩ | ⟨l₁, b, i, l₂, rfl, hplace, hfull, hempty⟩
    · rw [hplace]
      dsimp only
      refine (extendDirectory_post hdt (ht.symm ▸ hstart) hlen (ht.symm ▸ hfull) hne hzero).mono
        (fun _ u hu => ?_) (fun u hu => ?_)
      · obtain ⟨new, hnew⟩ := hu
        exact ⟨hlen, _, ht ▸ hnew⟩
      · refine ⟨ht ▸ hu, fun _ hslot => ?_⟩
        obtain ⟨b, hb, i, hi, hfirst⟩ := hslot
        exact (scanEntries_full (hfull b hb) (Nat.zero_le i) (by omega)).1 hfirst
    · have hb : b ∈ l₁ ++ b :: l₂ := List.mem_append_right l₁ List.mem_cons_self
      obtain ⟨hi, hfirst, hpassed⟩ := scanEntries_empty hempty
      rw [Nat.zero_add] at hi
      rw [hplace]
      dsimp only
      rw [post_bind]
      refine (readBlock_post (hdt.inVolume hb)).mono (fun block u hu => ?_) (fun _ h => h.elim)
      obtain ⟨rfl, hu⟩ := hu
      refine (rfsWriteDevice_reliable _ ?_).mono (fun _ w hw => ?_) (fun _ h => h.elim)
      · rw [hu]
        exact inRange_block (hdt.inVolume hb)
      rw [hu, ht] at hw
      rw [hw]
      obtain ⟨hdw, hput, hother⟩ := hd.store hb
        (fun k hk => putEntry_end hi (fun k hk => Volume.block_of_ge hk) hk)
        (fun k hk => putEntry_of_lt hk) (putEntry_names newEntry_ends (hd.names b hb))
        (putEntry_packed (newEntry_first hne hzero) (hd.packed b hb)
          (fun j hj => (hpassed j (Nat.zero_le j) hj).1) hfirst)
      exact ⟨hlen, _, Volume.Entered.slot rfl hfull hempty hput hother hdw rfl⟩
  · rw [ht.1]
    exact ⟨hrefl, fun hlen => absurd ht.2 (not_lt.mpr hlen)⟩

/-! ## Creating -/

theorem orRollBack_post {action : Action Rfs Unit} {Q : Unit → Rfs → Prop} {P : Prop}
    (hv : v.MapKept)
    (hfree : v.FreeExtent s need) (h : Post action t Q (fun u => v.Kept u.toVolume ∧ P)) :
    Post (orRollBack Env.reliable s need action) t Q (fun u => v.Kept u.toVolume ∧ P) := by
  unfold orRollBack
  rw [post_bind, post_attempt]
  refine h.mono (fun r u hu => ?_) (fun u hu => ?_)
  · dsimp only
    rw [post_pure]
    exact hu
  · dsimp only
    rw [post_bind, post_attempt]
    refine (rfsMarkExtent_kept hv hu.1 hfree false).mono (fun _ w hw => ?_) (fun w hw => ?_)
    · rw [post_fail]
      exact ⟨hw.1, hu.2⟩
    · rw [post_fail]
      exact ⟨hw.1, hu.2⟩

theorem zeroExtent_post {fuel pos remaining : ℕ} (hv : v.MapKept) (h : v.Kept t.toVolume)
    (hfree : v.FreeExtent s need) (hpos : s ≤ pos) (hend : pos + remaining ≤ s + need) :
    Post (zeroExtent Env.reliable fuel pos remaining) t (fun _ u => v.Kept u.toVolume)
      (fun _ => False) := by
  induction fuel generalizing t pos remaining with
  | zero =>
    unfold zeroExtent
    rw [post_pure]
    exact h
  | succ fuel ih =>
    unfold zeroExtent
    split
    · rw [post_pure]
      exact h
    · have hlast : pos + remaining ≤ t.totalSectors := by
        rw [h.totalSectors]
        exact hend.trans hfree.1
      have hlt := t.totalSectors_lt
      have hsize : 512 * min remaining 16 % 512 = 0 := Nat.mul_mod_right _ _
      have hcount : 512 * min remaining 16 / 512 = min remaining 16 :=
        Nat.mul_div_cancel_left _ (by decide)
      have hle : min remaining 16 ≤ remaining := min_le_left _ _
      rw [post_bind]
      refine (rfsWriteDevice_reliable _ (Volume.inRange_of_le hsize ?_)).mono (fun _ u hu => ?_)
        (fun _ h => h)
      · rw [hcount]
        omega
      · rw [u64_of_lt (by omega)]
        refine ih ?_ (by omega) (by omega)
        rw [hu]
        exact h.store hv hfree _ hsize hpos (by rw [hcount]; omega)

def Volume.Created (v t : Volume) (start : ℕ) (blocks : List ℕ) (name : List Byte) (sector : ℕ)
    (blocks' : List ℕ) : Prop :=
  ∃ u file, v.Kept u ∧ file.filename = name ∧ file.lbapos = sector ∧ sector < v.totalSectors ∧
    u.Entered t start blocks file blocks'

structure Volume.Accommodates (v : Volume) (blocks : List ℕ) (name : List Byte) (need : ℕ) :
    Prop where
  named : name ≠ []
  absent : v.walk name (blocks.take walkLimit) = none
  few : blocks.length ≤ walkLimit
  slot : v.HasSlot blocks
  small : need ≤ 4096
  run : v.RunInGroup need
  low : ∀ x < 65, ¬ v.Free x
  mapStart_ne : v.desc.freeSpaceMapStart ≠ 0

theorem rfsFindFreeExtent_free {v : Rfs} (hv : v.MapKept) (hneed : 0 < need)
    (hsound : need ≤ 4096 ∨ v.FirstTailFree need) :
    Post (rfsFindFreeExtent Env.reliable need) v
      (fun s t => t.toVolume = v.toVolume ∧ v.FreeExtent s need)
      (fun t => t.toVolume = v.toVolume ∧ (need ≤ 4096 → ¬ v.RunInGroup need)) := by
  have hfound := extentsSound_of_firstTailFree hv.exact hsound
  rw [post_iff]
  refine ⟨fun s t hrun => ⟨?_, hfound _ _ _ hrun⟩, fun t hrun => ⟨?_, fun hsmall => ?_⟩⟩
  · by_cases hsmall : need ≤ 4096
    · exact ((rfsFindFreeExtent_small_post _ hsmall v hv.exact.toGeometry
        hv.exact.sound.allFreeSound).of_eq_some hrun).1
    · exact ((rfsFindFreeExtent_across_post _ (not_le.mp hsmall) v hv.exact).of_eq_some hrun).1
  · by_cases hsmall : need ≤ 4096
    · exact (rfsFindFreeExtent_small_post _ hsmall v hv.exact.toGeometry
        hv.exact.sound.allFreeSound).of_eq_none hrun
    · exact ((rfsFindFreeExtent_across_post _ (not_le.mp hsmall) v hv.exact).of_eq_none hrun).1
  · rcases (rfsFindFreeExtent_small_answer _ hneed hsmall v hv.exact).of_eq_none hrun
      hv.inside with h | h
    · obtain ⟨n, hn⟩ := h
      cases hn
    · exact h

theorem Volume.Kept.markable (h : v.Kept t.toVolume) (hmap : v.desc.freeSpaceMapStart ≠ 0)
    (hneed : 0 < need) (hfree : v.FreeExtent s need) : t.Markable s need := by
  have hl2 := h.mapKept.exact.l2Groups
  have hgroups := h.mapKept.groups
  have hend := hfree.1
  refine ⟨hneed.ne', ?_, h.mapKept.exact.cached, by omega, ?_, h.mapKept.inside⟩
  · rwa [h.desc]
  · rw [h.totalSectors]
    omega

theorem rfsLocateEntry_post {v : Rfs} {name : List Byte} (hd : v.Directory start blocks)
    (hstart : dirStart v.toVolume lbapos = start) (hne : name ≠ []) :
    Post (rfsLocateEntry Env.reliable lbapos name) v
      (fun r t => t.toVolume = v.toVolume ∧ r = v.walk name (blocks.take walkLimit))
      (fun _ => False) := by
  unfold rfsLocateEntry
  rw [post_bind, post_get, if_neg hne, hstart]
  exact locateWalk_post hd.chain

theorem enter_post (file : FileInfo) (hd : v.Directory start blocks)
    (hstart : dirStart v lbapos = start)
    (hwalk : v.walk file.filename (blocks.take walkLimit) = none) (hne : file.filename ≠ [])
    (hzero : (0 : Byte) ∉ file.filename) (hu : v.Kept t.toVolume) (hneed : 0 < need)
    (hfree : v.FreeExtent s need) (hfile : file.lbapos = s) :
    Post (do
        orRollBack Env.reliable s need
          (rfsUpsertDirectoryEntry Env.reliable lbapos file sectorExtent)
        pure s) t
      (fun r u => r = s ∧ blocks.length ≤ walkLimit ∧
        ∃ blocks', v.Created u.toVolume start blocks file.filename s blocks')
      (fun u => v.Kept u.toVolume ∧ (blocks.length ≤ walkLimit → ¬ v.HasSlot blocks)) := by
  have hwalk' : t.walk file.filename (blocks.take walkLimit) = none := by
    rw [Volume.walk_congr fun b hb => hd.block_kept hu (List.mem_of_mem_take hb), hwalk]
  have hend := hfree.1
  rw [post_bind]
  refine orRollBack_post hd.mapKept hfree ?_
  refine (rfsUpsertDirectoryEntry_post (hd.kept hu) ((hu.dirStart lbapos).trans hstart) hwalk' hne
    hzero).mono (fun _ w hw => ?_) (fun w hw => ?_)
  · obtain ⟨hlen, blocks', hentered⟩ := hw
    rw [post_pure]
    exact ⟨rfl, hlen, blocks', t.toVolume, file, hu, rfl, hfile, by omega, hentered⟩
  · refine ⟨hu.trans hw.1, fun hlen hslot => hw.2 hlen ?_⟩
    rwa [Volume.HasSlot.kept hd hu]

theorem rfsCreateDirectory_post {v : Rfs} {name : List Byte} (hd : v.Directory start blocks)
    (hstart : dirStart v.toVolume lbapos = start) (hzero : (0 : Byte) ∉ name) :
    Post (rfsCreateDirectory Env.reliable lbapos name) v
      (fun s t => (name ≠ [] ∧ v.walk name (blocks.take walkLimit) = none ∧
        blocks.length ≤ walkLimit) ∧ ∃ blocks', v.Created t.toVolume start blocks name s blocks')
      (fun t => v.Kept t.toVolume ∧ ¬ v.Accommodates blocks name 64) := by
  have hrefl := Volume.Kept.refl hd.mapKept
  unfold rfsCreateDirectory
  split
  · next hname =>
    rw [post_failWith]
    exact ⟨hrefl, fun h => h.named hname⟩
  · next hne =>
    rw [post_bind]
    refine (rfsLocateEntry_post hd hstart hne).mono (fun r t hr => ?_) (fun _ h => h.elim)
    obtain ⟨ht, rfl⟩ := hr
    cases hwalk : v.walk name (blocks.take walkLimit) with
    | some found =>
      dsimp only
      rw [post_failWith]
      exact ⟨ht ▸ hrefl, fun h => absurd (hwalk.symm.trans h.absent) (Option.some_ne_none _)⟩
    | none =>
      dsimp only
      rw [post_bind, post_get, post_bind]
      refine (kmalloc_post Env.reliable t).mono (fun ok u hu => ?_) (fun _ h => h.elim)
      obtain ⟨hu, hok⟩ := hu
      split
      · next hfalse =>
        obtain ⟨n, hn⟩ := hok hfalse
        cases hn
      · rw [ht] at hu
        rw [post_bind, post_attempt]
        have hpos : 0 < 64 := by decide
        refine (rfsFindFreeExtent_free (v := u) (hu ▸ hd.mapKept) hpos (Or.inl (by decide))).mono
          (fun s w hw => ?_) (fun w hw => ?_)
        · obtain ⟨hw, hfree⟩ := hw
          rw [hu] at hw hfree
          dsimp only
          rw [post_bind]
          refine (rfsMarkExtent_kept hd.mapKept (hw.symm ▸ hrefl) hfree true).mono
            (fun _ x hx => ?_)
            (fun x hx => ?_)
          · have hend := hfree.1
            rw [post_bind]
            refine orRollBack_post hd.mapKept hfree ?_
            refine (zeroExtent_post hd.mapKept hx.1 hfree le_rfl le_rfl).mono (fun _ y hy => ?_)
              (fun _ h => h.elim)
            have hyend : s + 64 ≤ y.totalSectors := by rwa [hy.totalSectors]
            rw [post_bind]
            refine orRollBack_post hd.mapKept hfree ?_
            refine (rfsWriteDevice_reliable _ (inRange_block hyend)).mono (fun _ z hz => ?_)
              (fun _ h => h.elim)
            have hz' : v.Kept z.toVolume := by
              rw [hz]
              exact hy.store hd.mapKept hfree _ (by decide) le_rfl le_rfl
            refine (enter_post ⟨name, s, 0, true⟩ hd hstart hwalk hne hzero hz' (by decide)
              hfree rfl).mono (fun r w hw => ?_) (fun w hw => ⟨hw.1, fun h => hw.2 h.few h.slot⟩)
            obtain ⟨rfl, hlen, hcreated⟩ := hw
            exact ⟨⟨hne, rfl, hlen⟩, hcreated⟩
          · refine ⟨hx.1, fun h => hx.2 ?_⟩
            exact (hw.symm ▸ hrefl : v.Kept w.toVolume).markable h.mapStart_ne (by decide) hfree
        · rw [hu] at hw
          dsimp only
          rw [post_failWith]
          refine ⟨hw.1.symm ▸ hrefl, fun h => hw.2 h.small h.run⟩

theorem reserveSectors_pos (name : List Byte) (size : ℕ) : 0 < reserveSectors name size := by
  unfold reserveSectors
  dsimp only
  split <;> omega

theorem rfsCreateFile_post {v : Rfs} {name : List Byte} {size : ℕ} (hd : v.Directory start blocks)
    (hstart : dirStart v.toVolume lbapos = start) (hzero : (0 : Byte) ∉ name)
    (hsound : reserveSectors name size ≤ 4096 ∨ v.FirstTailFree (reserveSectors name size)) :
    Post (rfsCreateFile Env.reliable lbapos name size) v
      (fun s t => (name ≠ [] ∧ v.walk name (blocks.take walkLimit) = none ∧
        blocks.length ≤ walkLimit) ∧ ∃ blocks', v.Created t.toVolume start blocks name s blocks')
      (fun t => v.Kept t.toVolume ∧ ¬ v.Accommodates blocks name (reserveSectors name size)) := by
  have hrefl := Volume.Kept.refl hd.mapKept
  have hneed := reserveSectors_pos name size
  unfold rfsCreateFile
  split
  · next hname =>
    rw [post_failWith]
    exact ⟨hrefl, fun h => h.named hname⟩
  · next hne =>
    rw [post_bind]
    refine (rfsLocateEntry_post hd hstart hne).mono (fun r t hr => ?_) (fun _ h => h.elim)
    obtain ⟨ht, rfl⟩ := hr
    cases hwalk : v.walk name (blocks.take walkLimit) with
    | some found =>
      dsimp only
      rw [post_failWith]
      exact ⟨ht ▸ hrefl, fun h => absurd (hwalk.symm.trans h.absent) (Option.some_ne_none _)⟩
    | none =>
      generalize reserveSectors name size = need at *
      dsimp only
      rw [post_bind, post_attempt]
      refine (rfsFindFreeExtent_free (v := t) (ht ▸ hd.mapKept) hneed (ht ▸ hsound)).mono
        (fun s u hu => ?_) (fun u hu => ?_)
      · obtain ⟨hu, hfree⟩ := hu
        rw [ht] at hu hfree
        have hend := hfree.1
        dsimp only
        split
        · next hlow =>
          rw [post_fail]
          exact ⟨hu.symm ▸ hrefl, fun h => h.low s hlow (hfree.2 s le_rfl (by omega))⟩
        · rw [post_bind]
          refine (kmalloc_post Env.reliable u).mono (fun ok w hw => ?_) (fun _ h => h.elim)
          obtain ⟨hw, hok⟩ := hw
          split
          · next hfalse =>
            obtain ⟨n, hn⟩ := hok hfalse
            cases hn
          · rw [hu] at hw
            rw [post_bind]
            refine (rfsMarkExtent_kept hd.mapKept (hw.symm ▸ hrefl) hfree true).mono
              (fun _ x hx => ?_) (fun x hx => ?_)
            · rw [post_bind]
              refine orRollBack_post hd.mapKept hfree ?_
              refine (zeroExtent_post hd.mapKept hx.1 hfree le_rfl le_rfl).mono (fun _ y hy => ?_)
                (fun _ h => h.elim)
              refine (enter_post ⟨name, s, size, false⟩ hd hstart hwalk hne hzero hy hneed
                hfree rfl).mono (fun r w hw => ?_) (fun w hw => ⟨hw.1, fun h => hw.2 h.few h.slot⟩)
              obtain ⟨rfl, hlen, hcreated⟩ := hw
              exact ⟨⟨hne, rfl, hlen⟩, hcreated⟩
            · refine ⟨hx.1, fun h => hx.2 ?_⟩
              exact (hw.symm ▸ hrefl : v.Kept w.toVolume).markable h.mapStart_ne hneed hfree
      · rw [ht] at hu
        dsimp only
        rw [post_failWith]
        exact ⟨hu.1.symm ▸ hrefl, fun h => hu.2 h.small h.run⟩

end RetroRocket
