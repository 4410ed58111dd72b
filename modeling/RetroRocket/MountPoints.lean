import RetroRocket.IntegerText
import RetroRocket.StringHeap

/-!
# Mount points

`vfs_add_mountpoint` and `vfs_get_mountpoint_for` of `filesystem.c`. The mounts are kept by falling
length, and the first one that a path begins with is taken, if the path goes on with a slash or ends
there. A path goes on with a slash behind no mount that ends in one, so the root is found for the
path of the root, and not for a path below it.
-/

namespace RetroRocket

/-- A path that `strlen`, which returns 32 bits, can measure. -/
structure MountPath where
  text : CString
  short : text.length < 2 ^ 32

/-- `strlen`, which is not the length of a longer string. -/
def MountPath.length32 (p : MountPath) : ℕ := u32 p.text.length

def MountPath.bytes (p : MountPath) : List Byte := p.text.1

theorem MountPath.ended (p : MountPath) : 0 ∉ p.bytes := p.text.2

/-- `strnicmp` of C strings. -/
def strnicmp : List Byte → List Byte → ℕ → ℤ
  | _, _, 0 => 0
  | s, t, n + 1 =>
    if upperByte (s.headD 0) ≠ upperByte (t.headD 0) then (s.headD 0).toNat - (t.headD 0).toNat
    else if s.headD 0 = 0 then 0
    else strnicmp s.tail t.tail n

def slash : Byte := charByte '/'

/-! ## The list of mounts -/

structure Mountpoint (δ : Type) where
  path : MountPath
  len : ℕ
  responsibleDriver : δ

variable {δ : Type}

def insertMountpoint (mount : Mountpoint δ) : List (Mountpoint δ) → List (Mountpoint δ)
  | [] => [mount]
  | cur :: next =>
    if mount.len ≤ cur.len then cur :: insertMountpoint mount next else mount :: cur :: next

/-- What `vfs_add_mountpoint` is called with, where a null pointer is `none`, and whether there is
memory for the mount and for the copy of its path. -/
structure MountCall (δ : Type) where
  mountpoint : Option MountPath
  responsibleDriver : Option δ
  memory : Bool × Bool

def vfsAddMountpoint (mountpoints : List (Mountpoint δ)) (c : MountCall δ) :
    Bool × List (Mountpoint δ) :=
  match c.mountpoint, c.responsibleDriver with
  | some mountpoint, some responsibleDriver =>
    if c.memory.1 = false then (false, mountpoints)
    else if c.memory.2 = false then (false, mountpoints)
    else
      (true, insertMountpoint ⟨mountpoint, mountpoint.length32, responsibleDriver⟩ mountpoints)
  | _, _ => (false, mountpoints)

def Mountpoint.matchesPath (cur : Mountpoint δ) (path : List Byte) : Bool :=
  strnicmp path cur.path.bytes cur.len == 0 &&
    (path.getD cur.len 0 == 0 || path.getD cur.len 0 == slash)

def vfsGetMountpointFor (mountpoints : List (Mountpoint δ)) (normalisedPath : Option CString) :
    Option (Mountpoint δ) :=
  normalisedPath.bind fun path => mountpoints.find? fun cur => cur.matchesPath path.1

def mounted (calls : List (MountCall δ)) : List (Mountpoint δ) :=
  calls.foldl (fun mountpoints c => (vfsAddMountpoint mountpoints c).2) []

/-! ## What a mount is for -/

def folded (path : List Byte) : List Byte := path.map upperByte

def WholePrefix (mount path : List Byte) : Prop :=
  ∃ rest, folded path = folded mount ++ rest ∧
    (rest = [] ∨ rest.head? = some slash ∨ mount.getLast? = some slash)

def Resolves (mountpoints : List (Mountpoint δ)) (path : CString) : Prop :=
  ∃ m, vfsGetMountpointFor mountpoints (some path) = some m ∧ m ∈ mountpoints ∧
    WholePrefix m.path.bytes path.1 ∧
    ∀ m' ∈ mountpoints, WholePrefix m'.path.bytes path.1 →
      m'.path.bytes.length ≤ m.path.bytes.length

def EndsComponent (path : List Byte) (n : ℕ) : Prop := path.length = n ∨ path[n]? = some slash

/-! ## Comparisons -/

variable {mountpoints : List (Mountpoint δ)} {m m' : Mountpoint δ} {path mount : List Byte}

theorem upperByte_facts : ∀ n < 256, (upperByte (BitVec.ofNat 8 n) = 0 → BitVec.ofNat 8 n = 0) ∧
    (upperByte (BitVec.ofNat 8 n) = slash → BitVec.ofNat 8 n = slash) := by
  decide +kernel

theorem upperByte_eq_zero {c : Byte} (h : upperByte c = 0) : c = 0 := by
  have hfacts := upperByte_facts c.toNat c.isLt
  rw [BitVec.ofNat_toNat, BitVec.setWidth_eq] at hfacts
  exact hfacts.1 h

theorem strnicmp_eq_zero (hpath : 0 ∉ path) (hmount : 0 ∉ mount) :
    strnicmp path mount mount.length = 0 ↔ folded mount <+: folded path := by
  induction mount generalizing path with
  | nil => exact iff_of_true rfl List.nil_prefix
  | cons c mount ih =>
    have hc : c ≠ 0 := fun h => hmount (h ▸ List.mem_cons_self)
    rw [List.length_cons, strnicmp]
    cases path with
    | nil =>
      have hne : upperByte 0 ≠ upperByte c := fun h => hc (upperByte_eq_zero h.symm)
      rw [List.headD_nil, List.headD_cons, if_pos hne]
      refine iff_of_false (fun h => hc (BitVec.eq_of_toNat_eq ?_)) (by simp [folded])
      have hnat : (0 : Byte).toNat = 0 := rfl
      omega
    | cons d path =>
      have hd : d ≠ 0 := fun h => hpath (h ▸ List.mem_cons_self)
      rw [List.headD_cons, List.headD_cons, List.tail_cons, List.tail_cons]
      change _ ↔ upperByte c :: folded mount <+: upperByte d :: folded path
      rw [List.cons_prefix_cons]
      by_cases heq : upperByte d = upperByte c
      · rw [if_neg (not_not.mpr heq), if_neg hd, ih (fun h => hpath (List.mem_cons_of_mem d h))
          fun h => hmount (List.mem_cons_of_mem c h)]
        exact (and_iff_right heq.symm).symm
      · rw [if_pos heq]
        refine iff_of_false (fun h => heq ?_) fun h => heq h.1.symm
        have hsame : d = c := BitVec.eq_of_toNat_eq (by omega)
        rw [hsame]

theorem length_folded (path : List Byte) : (folded path).length = path.length := List.length_map _

theorem getD_eq_iff (hpath : 0 ∉ path) {n : ℕ} (hn : n ≤ path.length) :
    (path.getD n 0 = 0 ∨ path.getD n 0 = slash) ↔ EndsComponent path n := by
  rw [EndsComponent, List.getD_eq_getElem?_getD]
  by_cases hend : path.length = n
  · rw [List.getElem?_eq_none (Nat.le_of_eq hend)]
    exact iff_of_true (Or.inl rfl) (Or.inl hend)
  · rw [List.getElem?_eq_getElem (by omega), Option.getD_some, Option.some.injEq]
    have hne : path[n] ≠ 0 := fun h => hpath (h ▸ List.getElem_mem _)
    exact ⟨fun h => Or.inr (h.resolve_left hne), fun h => Or.inr (h.resolve_left hend)⟩

theorem folded_prefix_length (h : folded mount <+: folded path) : mount.length ≤ path.length := by
  have hle := h.length_le
  rwa [length_folded, length_folded] at hle

theorem matchesPath_iff (hm : m.len = m.path.bytes.length) (hpath : 0 ∉ path) :
    m.matchesPath path = true ↔
      folded m.path.bytes <+: folded path ∧ EndsComponent path m.path.bytes.length := by
  rw [Mountpoint.matchesPath, Bool.and_eq_true, Bool.or_eq_true, beq_iff_eq,
    beq_iff_eq, beq_iff_eq, hm,
    strnicmp_eq_zero hpath m.path.ended]
  constructor
  · rintro ⟨hpre, hnext⟩
    exact ⟨hpre, (getD_eq_iff hpath (folded_prefix_length hpre)).mp hnext⟩
  · rintro ⟨hpre, hnext⟩
    exact ⟨hpre, (getD_eq_iff hpath (folded_prefix_length hpre)).mpr hnext⟩

theorem wholePrefix_of_endsComponent (hpre : folded mount <+: folded path)
    (hend : EndsComponent path mount.length) : WholePrefix mount path := by
  obtain ⟨rest, hrest⟩ := hpre
  refine ⟨rest, hrest.symm, ?_⟩
  have hlength := congrArg List.length hrest
  rw [List.length_append, length_folded, length_folded] at hlength
  rcases hend with hend | hend
  · exact Or.inl (List.eq_nil_of_length_eq_zero (by omega))
  · right
    left
    have hfolded : (folded path)[mount.length]? = some slash := by
      rw [folded, List.getElem?_map, hend]
      rfl
    rw [← hrest, List.getElem?_append_right (Nat.le_of_eq (length_folded mount)), length_folded,
      Nat.sub_self] at hfolded
    rw [List.head?_eq_getElem?]
    exact hfolded

theorem WholePrefix.prefix_folded (h : WholePrefix mount path) : folded mount <+: folded path := by
  obtain ⟨rest, hrest, -⟩ := h
  exact ⟨rest, hrest.symm⟩

/-! ## The list of mounts -/

structure Ordered (mountpoints : List (Mountpoint δ)) : Prop where
  len : ∀ m ∈ mountpoints, m.len = m.path.bytes.length
  sorted : mountpoints.Pairwise fun m m' => m'.len ≤ m.len

theorem mem_insertMountpoint : m ∈ insertMountpoint m' mountpoints ↔ m = m' ∨ m ∈ mountpoints := by
  induction mountpoints with
  | nil => exact List.mem_singleton.trans (or_iff_left List.not_mem_nil).symm
  | cons cur next ih =>
    rw [insertMountpoint]
    split
    · rw [List.mem_cons, ih, List.mem_cons]
      exact or_left_comm
    · exact List.mem_cons

theorem Ordered.insert (h : Ordered mountpoints) (hm : m.len = m.path.bytes.length) :
    Ordered (insertMountpoint m mountpoints) := by
  refine ⟨fun m' hm' => ?_, ?_⟩
  · rcases mem_insertMountpoint.mp hm' with rfl | hmem
    · exact hm
    · exact h.len m' hmem
  · have hsorted := h.sorted
    clear h
    induction mountpoints with
    | nil => exact List.pairwise_singleton _ _
    | cons cur next ih =>
      obtain ⟨hcur, hnext⟩ := List.pairwise_cons.mp hsorted
      rw [insertMountpoint]
      split
      · next hle =>
        refine List.pairwise_cons.mpr ⟨fun m' hm' => ?_, ih hnext⟩
        rcases mem_insertMountpoint.mp hm' with rfl | hmem
        · exact hle
        · exact hcur m' hmem
      · next hlt =>
        refine List.pairwise_cons.mpr ⟨fun m' hm' => ?_, hsorted⟩
        rcases List.mem_cons.mp hm' with rfl | hmem
        · exact Nat.le_of_not_le hlt
        · exact (hcur m' hmem).trans (Nat.le_of_not_le hlt)

theorem Ordered.add (h : Ordered mountpoints) (c : MountCall δ) :
    Ordered (vfsAddMountpoint mountpoints c).2 := by
  unfold vfsAddMountpoint
  split
  · split
    · exact h
    · split
      · exact h
      · exact h.insert (u32_of_lt (MountPath.short _))
  · exact h

theorem ordered_mounted (calls : List (MountCall δ)) : Ordered (mounted calls) := by
  have hrun : ∀ (calls : List (MountCall δ)) (mountpoints : List (Mountpoint δ)),
    Ordered mountpoints →
      Ordered (calls.foldl (fun mountpoints c => (vfsAddMountpoint mountpoints c).2)
          mountpoints) := by
    intro calls
    induction calls with
    | nil => exact fun _ h => h
    | cons c calls ih => exact fun mountpoints h => ih _ (h.add c)
  exact hrun calls [] ⟨fun _ h => absurd h List.not_mem_nil, List.Pairwise.nil⟩

theorem Ordered.le_of_find (h : Ordered mountpoints) {p : Mountpoint δ → Bool}
    (hfind : mountpoints.find? p = some m) (hmem : m' ∈ mountpoints) (hp : p m' = true) :
    m'.len ≤ m.len := by
  have hsorted := h.sorted
  clear h
  induction mountpoints with
  | nil => cases hmem
  | cons cur next ih =>
    obtain ⟨hcur, hnext⟩ := List.pairwise_cons.mp hsorted
    rw [List.find?_cons] at hfind
    cases hhead : p cur with
    | true =>
      rw [hhead] at hfind
      obtain rfl := Option.some.inj hfind
      rcases List.mem_cons.mp hmem with rfl | hmem
      · exact Nat.le_refl _
      · exact hcur m' hmem
    | false =>
      rw [hhead] at hfind
      rcases List.mem_cons.mp hmem with rfl | hmem
      · rw [hhead] at hp
        cases hp
      · exact ih hfind hmem hnext

theorem matchesPath_of_find (h : mountpoints.find? (fun cur => cur.matchesPath path) = some m) :
    m.matchesPath path = true := by
  have hfound := List.find?_some h
  exact hfound

/-! ## Resolution -/

/-- The closest mount is found if and only if a component of the path ends behind the path of a
closest mount. -/
theorem resolves_iff (calls : List (MountCall δ)) (path : CString) :
    Resolves (mounted calls) path ↔
      ∃ m ∈ mounted calls, WholePrefix m.path.bytes path.1 ∧
        (∀ m' ∈ mounted calls, WholePrefix m'.path.bytes path.1 →
          m'.path.bytes.length ≤ m.path.bytes.length) ∧
        EndsComponent path.1 m.path.bytes.length := by
  have hordered := ordered_mounted calls
  constructor
  · rintro ⟨m, hget, hmem, hwhole, hlongest⟩
    have hfound := matchesPath_of_find hget
    exact ⟨m, hmem, hwhole, hlongest, ((matchesPath_iff (hordered.len m hmem) path.2).mp hfound).2⟩
  · rintro ⟨m, hmem, hwhole, hlongest, hend⟩
    have hmatch := (matchesPath_iff (hordered.len m hmem) path.2).mpr ⟨hwhole.prefix_folded, hend⟩
    have hsome : ((mounted calls).find? fun cur => cur.matchesPath path.1).isSome :=
      List.find?_isSome.mpr ⟨m, hmem, hmatch⟩
    obtain ⟨r, hget⟩ := Option.isSome_iff_exists.mp hsome
    have hr := List.mem_of_find?_eq_some hget
    have hrlen := hordered.len r hr
    have hfound := matchesPath_of_find hget
    obtain ⟨hpre, hrend⟩ := (matchesPath_iff hrlen path.2).mp hfound
    have hle := hordered.le_of_find hget hmem hmatch
    rw [hrlen, hordered.len m hmem] at hle
    exact ⟨r, hget, hr, wholePrefix_of_endsComponent hpre hrend,
      fun m' hm' hwhole' => (hlongest m' hm' hwhole').trans hle⟩

def rootMounted : List (MountCall Unit) :=
  [⟨some ⟨⟨[slash], by decide⟩, by decide⟩, some (), true, true⟩]

/-- The path `/a`. -/
def belowRoot : CString := ⟨[slash, charByte 'a'], by decide⟩

/-- No mount is found below the root. -/
theorem not_resolves_belowRoot : ¬ ∀ (calls : List (MountCall Unit)) (path : CString),
    (∃ m ∈ mounted calls, m.path.bytes = [slash]) → path.1.head? = some slash →
      Resolves (mounted calls) path := by
  intro h
  have hroot : ∃ m ∈ mounted rootMounted, m.path.bytes = [slash] :=
    ⟨_, List.mem_singleton.mpr rfl, rfl⟩
  obtain ⟨m, hget, -⟩ := h rootMounted belowRoot hroot rfl
  have hnone : vfsGetMountpointFor (mounted rootMounted) (some belowRoot) = none := by decide
  rw [hnone] at hget
  cases hget

end RetroRocket
