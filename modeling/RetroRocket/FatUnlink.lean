import RetroRocket.CaseFolding
import RetroRocket.FatDirectory
import Mathlib.Data.List.Nodup
import Mathlib.Data.List.Perm.Subperm

/-!
# Removing FAT32 directories

`fat32_unlink_dir` of `directory.c`, with the walk of `parse_fat32_directory` along the clusters of
a directory and `fat32_unlink_file` of `unlinkfile.c`. The device serves every request for a cluster
it has. The directory whose entries are looked at is the one that the name is in, not the one it
names.
-/

namespace RetroRocket

namespace Fat32

def clusterEnd : ℕ := 0x0ffffff8

def clusterBad : ℕ := 0x0ffffff7

structure Media where
  fat : ℕ → BitVec 32
  clusters : ℕ → Buffer
  clusterSize : ℕ
  /-- The device ends before this cluster. -/
  endCluster : ℕ
  endCluster_le : endCluster ≤ clusterBad

/-- `fat32_t`, and the error that was set last. -/
structure Disk extends Media where
  rootDirCluster : ℕ
  volumeName : Option (List Byte)
  freeCount : ℕ
  /-- `info->length / info->clustersize` -/
  totalClusters : ℕ
  error : Option FsError

def getFatEntry (fat : ℕ → BitVec 32) (cluster : ℕ) : ℕ := (fat cluster &&& 0x0fffffff).toNat

def setFatEntry (fat : ℕ → BitVec 32) (cluster : ℕ) (value : BitVec 32) : ℕ → BitVec 32 :=
  Function.update fat cluster (value &&& 0x0fffffff)

/-- `amend_free_count` with an adjustment that is not negative. -/
def Disk.amendFreeCount (d : Disk) (adjustment : ℕ) : Disk :=
  { d with freeCount := min ((d.freeCount + adjustment) % 2 ^ 32) d.totalClusters }

namespace Media

variable (m : Media)

/-- Why `read_cluster` fails. -/
def readError (cluster : ℕ) : Option FsError :=
  if cluster < 2 then some .invalidArg else if m.endCluster ≤ cluster then some .device else none

def entries (cluster : ℕ) : List Entry :=
  (List.range (m.clusterSize / 32)).map fun k i => m.clusters cluster (32 * k + i)

/-! ## The walk along a directory -/

def parseCluster (s : Parse) (cluster : ℕ) : Parse :=
  let s := parseEntries s (m.entries cluster)
  if -1 < s.highestLfnOrder then { s.reset with error := some .brokenDirectory } else s

/-- `none` when the walk does not end. -/
def parseFrom : ℕ → ℕ → Parse → Option Parse
  | 0, _, _ => none
  | fuel + 1, cluster, s =>
    match m.readError cluster with
    | some e => some { s with list := [], error := some e }
    | none =>
      let s := m.parseCluster s cluster
      if clusterBad ≤ getFatEntry m.fat cluster then some s
      else parseFrom fuel (getFatEntry m.fat cluster) s

/-- `parse_fat32_directory`. The error is the one that the walk sets. -/
def parseDirectory (volumeName : Option (List Byte)) (cluster : ℕ) : Option Parse :=
  m.parseFrom (m.endCluster + 1) cluster ⟨volumeName, fun _ _ => 0, -1, [], none⟩

end Media

namespace Disk

variable (d : Disk)

def parse (cluster : ℕ) : Option (Disk × List FsDirectoryEntry) :=
  (d.parseDirectory d.volumeName cluster).map fun s =>
    ({ d with volumeName := s.volumeName, error := s.error <|> d.error }, s.list)

/-- `treeitem->lbapos ? treeitem->lbapos : info->rootdircluster` -/
def dirCluster (lbapos : ℕ) : ℕ := if lbapos ≠ 0 then lbapos else d.rootDirCluster

end Disk

/-! ## `fat32_unlink_file` -/

/-- The loop over the clusters of the file. `none` when it does not end. -/
def freeChain : ℕ → (ℕ → BitVec 32) → ℕ → ℕ → Option ((ℕ → BitVec 32) × ℕ)
  | 0, _, _, _ => none
  | fuel + 1, fat, cur, freed =>
    let cluster := getFatEntry fat cur
    let fat := if cur < clusterBad then setFatEntry fat cur 0 else fat
    if cluster < clusterBad then freeChain fuel fat cluster (freed + 1) else some (fat, freed + 1)

/-- Entry `k` of a cluster and the slots before it are marked as deleted. `entry_lfn_start` is moved
on by the size of an entry in entries, not in bytes. -/
def markDeleted (buffer : Buffer) (k : ℕ) (lfnStart : Option ℕ) : Buffer := fun i =>
  if i = 32 * k then deletedEntry
  else if i % 32 = 0 ∧ i / 32 < k ∧
      ∃ start ∈ lfnStart, start ≤ i / 32 ∧ (i / 32 - start) % 32 = 0 then deletedEntry
  else buffer i

/-- The loop over `n` entries of a cluster from entry `k` on: the cluster without the entry, or
where slots began. -/
def removeFrom (fileStart : ℕ) (buffer : Buffer) : ℕ → ℕ → Option ℕ → Buffer ⊕ Option ℕ
  | 0, _, lfnStart => .inr lfnStart
  | n + 1, k, lfnStart =>
    let entry : Entry := fun i => buffer (32 * k + i)
    if entry 0 &&& 0x80 ≠ 0 ∨ entry 0 = 0 then removeFrom fileStart buffer n (k + 1) lfnStart
    else if parseShortName entry = [] then .inr lfnStart
    else if (parseShortName entry).head? = some dot then
      removeFrom fileStart buffer n (k + 1) lfnStart
    else if entry.attr = attrLongName then
      removeFrom fileStart buffer n (k + 1) (lfnStart <|> some k)
    else if entry.firstCluster = fileStart then .inl (markDeleted buffer k lfnStart)
    else removeFrom fileStart buffer n (k + 1) none

namespace Disk

def removeEntries (d : Disk) (fileStart : ℕ) : ℕ → ℕ → Option ℕ → Option (Bool × Disk)
  | 0, _, _ => none
  | fuel + 1, cluster, lfnStart =>
    match d.readError cluster with
    | some e => some (false, { d with error := some e })
    | none =>
      match removeFrom fileStart (d.clusters cluster) (d.clusterSize / 32) 0 lfnStart with
      | .inl buffer => some (true, { d with clusters := Function.update d.clusters cluster buffer })
      | .inr lfnStart =>
        if clusterBad ≤ getFatEntry d.fat cluster then some (true, d)
        else removeEntries d fileStart fuel (getFatEntry d.fat cluster) lfnStart

def fat32UnlinkFile (d : Disk) (lbapos : ℕ) (name : List Byte) : Option (Bool × Disk) := do
  let (d, list) ← d.parse (d.dirCluster lbapos)
  let found := list.find? fun f => sameName f.filename name
  let fileStart := (found.map FsDirectoryEntry.lbapos).getD clusterEnd
  if fileStart = clusterEnd then some (false, { d with error := some .noSuchFile })
  else do
    let (fat, freed) ← freeChain (d.endCluster + 1) d.fat fileStart 0
    let d := { d with fat := fat }.amendFreeCount freed
    d.removeEntries fileStart (d.endCluster + 1) (d.dirCluster lbapos) none

def fat32UnlinkDir (d : Disk) (lbapos : ℕ) (name : List Byte) : Option (Bool × Disk) := do
  let (d, list) ← d.parse lbapos
  if list ≠ [] then some (false, { d with error := some .directoryNotEmpty })
  else d.fat32UnlinkFile lbapos name

end Disk

/-! ## Directory trees -/

inductive Chain (fat : ℕ → BitVec 32) : ℕ → List ℕ → Prop
  | last {c : ℕ} (hend : clusterBad ≤ getFatEntry fat c) : Chain fat c [c]
  | next {c : ℕ} {l : List ℕ} (hnext : getFatEntry fat c < clusterBad)
      (hl : Chain fat (getFatEntry fat c) l) : Chain fat c (c :: l)

/-- A file or a directory other than `.` and `..`. -/
def Entry.IsFile (e : Entry) : Prop :=
  e 0 ≠ deletedEntry ∧ e.isDot = false ∧ e.attr &&& attrLongName ≠ attrLongName

def Entry.IsLabel (e : Entry) : Prop := e.IsFile ∧ e.attr &&& attrVolumeId ≠ 0

def Media.liveEntries (m : Media) (cluster : ℕ) : List Entry :=
  (m.entries cluster).takeWhile fun e => e 0 ≠ 0

namespace Disk

variable (d : Disk)

def listing (lbapos : ℕ) : List FsDirectoryEntry :=
  ((d.parseDirectory d.volumeName (d.dirCluster lbapos)).map Parse.list).getD []

def named (lbapos : ℕ) (name : List Byte) : Option FsDirectoryEntry :=
  (d.listing lbapos).find? fun f => sameName f.filename name

/-- A directory with no entries other than `.` and `..`. -/
def EmptyDirectory (cluster : ℕ) : Prop :=
  ∃ l, Chain d.fat cluster l ∧ ∀ c ∈ l, ∀ e ∈ d.liveEntries c, ¬ e.IsFile

def NamesEmptyDirectory (lbapos : ℕ) (name : List Byte) : Prop :=
  ∃ f, d.named lbapos name = some f ∧ f.isDirectory = true ∧ d.EmptyDirectory f.lbapos

/-- A directory in a tree: it can be read, labels are in the root only, and what it lists has
clusters of its own. -/
structure Directory where
  lbapos : ℕ
  clusters : List ℕ
  chain : Chain d.fat (d.dirCluster lbapos) clusters
  readable : ∀ c ∈ clusters, d.readError c = none
  unlabelled : lbapos ≠ 0 → ∀ c ∈ clusters, ∀ e ∈ d.liveEntries c, ¬ e.IsLabel
  files : ∀ f ∈ d.listing lbapos, ∃ l, Chain d.fat f.lbapos l ∧ (∀ c ∈ l, c < d.endCluster) ∧
    l.Disjoint clusters

/-- What is expected of `rmdir`: it removes exactly the empty directories, and when it fails the
device is as before. -/
def RmdirRight (lbapos : ℕ) (name : List Byte) : Prop :=
  ∃ result d', d.fat32UnlinkDir lbapos name = some (result, d') ∧
    (result = true ↔ d.NamesEmptyDirectory lbapos name) ∧
    (result = false → d'.toMedia = d.toMedia)

end Disk

variable {fat fat' : ℕ → BitVec 32} {c fuel : ℕ} {l : List ℕ}

/-! ## Chains -/

namespace Chain

theorem unique {l' : List ℕ} (h : Chain fat c l) (h' : Chain fat c l') : l = l' := by
  induction h generalizing l' with
  | last hend =>
    cases h' with
    | last _ => rfl
    | next hnext _ => exact absurd hend (not_le.mpr hnext)
  | next hnext _ ih =>
    cases h' with
    | last hend => exact absurd hend (not_le.mpr hnext)
    | next _ hl => rw [ih hl]

theorem suffix (h : Chain fat c l) {x : ℕ} (hx : x ∈ l) : ∃ l', Chain fat x l' ∧ l' <:+ l := by
  induction h with
  | @last c hend =>
    rw [List.mem_singleton.mp hx]
    exact ⟨[c], last hend, List.suffix_rfl⟩
  | @next c l hnext hl ih =>
    rcases List.mem_cons.mp hx with rfl | hx
    · exact ⟨x :: l, next hnext hl, List.suffix_rfl⟩
    · obtain ⟨l', hl', hsuffix⟩ := ih hx
      exact ⟨l', hl', hsuffix.trans (List.suffix_cons c l)⟩

theorem nodup (h : Chain fat c l) : l.Nodup := by
  induction h with
  | last _ => exact List.nodup_singleton _
  | @next c l hnext hl ih =>
    refine List.nodup_cons.mpr ⟨fun hmem => ?_, ih⟩
    obtain ⟨l', hl', hsuffix⟩ := hl.suffix hmem
    have hlen := hsuffix.length_le
    rw [← (next hnext hl).unique hl', List.length_cons] at hlen
    omega

theorem length_le {n : ℕ} (h : Chain fat c l) (hlt : ∀ x ∈ l, x < n) : l.length ≤ n := by
  have hsub : l ⊆ List.range n := fun x hx => List.mem_range.mpr (hlt x hx)
  have hle := (List.subperm_of_subset h.nodup hsub).length_le
  rwa [List.length_range] at hle

theorem head_mem (h : Chain fat c l) : c ∈ l := by
  cases h <;> exact List.mem_cons_self

theorem congr (h : Chain fat c l) (hsame : ∀ x ∈ l, fat' x = fat x) : Chain fat' c l := by
  induction h with
  | @last c hend =>
    refine last ?_
    unfold getFatEntry
    rwa [hsame c List.mem_cons_self]
  | @next c l hnext hl ih =>
    have hc : getFatEntry fat' c = getFatEntry fat c := by
      unfold getFatEntry
      rw [hsame c List.mem_cons_self]
    refine next (by rwa [hc]) ?_
    rw [hc]
    exact ih fun x hx => hsame x (List.mem_cons_of_mem c hx)

end Chain

theorem freeChain_spec (freed : ℕ) (h : Chain fat c l) (hfuel : l.length ≤ fuel) :
    ∃ fat', freeChain fuel fat c freed = some (fat', freed + l.length) ∧
      ∀ x ∉ l, fat' x = fat x := by
  induction fuel generalizing fat c l freed with
  | zero => exact absurd (List.length_pos_of_mem h.head_mem) (by omega)
  | succ fuel ih =>
    have hother : ∀ x, x ≠ c →
        (if c < clusterBad then setFatEntry fat c 0 else fat) x = fat x := by
      intro x hx
      split
      · exact Function.update_of_ne hx _ _
      · rfl
    cases h with
    | last hend =>
      refine ⟨_, ?_, fun x hx => hother x fun heq => hx (heq ▸ List.mem_cons_self)⟩
      unfold freeChain
      dsimp only
      rw [if_neg (not_lt.mpr hend)]
      rfl
    | @next _ l hnext hl =>
      have hnot : c ∉ l := (List.nodup_cons.mp (Chain.next hnext hl).nodup).1
      have hrest := hl.congr fun x hx => hother x fun heq => hnot (heq ▸ hx)
      obtain ⟨fat', hfree, hsame⟩ := ih (freed + 1) hrest (Nat.le_of_succ_le_succ hfuel)
      refine ⟨fat', ?_, fun x hx => ?_⟩
      · unfold freeChain
        dsimp only
        rw [if_pos hnext, hfree, List.length_cons, add_assoc, add_comm 1]
      · rw [hsame x fun hmem => hx (List.mem_cons_of_mem c hmem)]
        exact hother x fun heq => hx (heq ▸ List.mem_cons_self)

/-! ## Walks -/

variable {m : Media} {s t : Parse} {e : Entry}

theorem parseFrom_succ (hread : m.readError c = none) :
    m.parseFrom (fuel + 1) c s = if clusterBad ≤ getFatEntry m.fat c then some (m.parseCluster s c)
      else m.parseFrom fuel (getFatEntry m.fat c) (m.parseCluster s c) := by
  rw [Media.parseFrom, hread]

theorem exists_parseFrom (h : Chain m.fat c l) (hread : ∀ x ∈ l, m.readError x = none)
    (hfuel : l.length ≤ fuel) (s : Parse) : ∃ t, m.parseFrom fuel c s = some t := by
  induction h generalizing fuel s with
  | @last c hend =>
    obtain ⟨fuel, rfl⟩ := Nat.exists_eq_succ_of_ne_zero (Nat.pos_iff_ne_zero.mp hfuel)
    rw [Nat.succ_eq_add_one, parseFrom_succ (hread c List.mem_cons_self), if_pos hend]
    exact ⟨_, rfl⟩
  | @next c l hnext hl ih =>
    obtain ⟨fuel, rfl⟩ := Nat.exists_eq_succ_of_ne_zero (Nat.ne_zero_of_lt hfuel)
    rw [Nat.succ_eq_add_one, parseFrom_succ (hread c List.mem_cons_self), if_neg (not_le.mpr hnext)]
    exact ih (fun x hx => hread x (List.mem_cons_of_mem c hx)) (Nat.le_of_succ_le_succ hfuel) _

theorem parseEntry_list_nil_iff (hlabel : ¬ e.IsLabel) :
    (parseEntry s e).list = [] ↔ s.list = [] ∧ ¬ e.IsFile := by
  unfold parseEntry
  split
  · next hdeleted => exact (and_iff_left fun hfile => hfile.1 hdeleted).symm
  split
  · next hdot =>
    exact (and_iff_left fun hfile => Bool.false_ne_true (hfile.2.1.symm.trans hdot)).symm
  split
  · next hvolume => exact (and_iff_left fun hfile => hlabel ⟨hfile, hvolume.1⟩).symm
  split
  · next hlong =>
    rw [stash_list]
    exact (and_iff_left fun hfile => hfile.2.2 hlong).symm
  · next hdeleted hdot hvolume hlong =>
    rw [addFile_list]
    refine iff_of_false (List.cons_ne_nil _ _) fun h => h.2 ⟨hdeleted, ?_, hlong⟩
    exact Bool.eq_false_of_not_eq_true hdot

theorem parseEntries_list_nil_iff {entries : List Entry}
    (hlabel : ∀ e ∈ entries.takeWhile fun e => e 0 ≠ 0, ¬ e.IsLabel) :
    (parseEntries s entries).list = [] ↔
      s.list = [] ∧ ∀ e ∈ entries.takeWhile fun e => e 0 ≠ 0, ¬ e.IsFile := by
  induction entries generalizing s with
  | nil => exact (and_iff_left (List.forall_mem_nil _)).symm
  | cons e entries ih =>
    unfold parseEntries
    by_cases hend : e 0 = 0
    · have hstop : (e :: entries).takeWhile (fun e => e 0 ≠ 0) = [] :=
        List.takeWhile_cons_of_neg (by rw [decide_eq_true_iff]; exact not_not_intro hend)
      rw [if_pos hend, hstop]
      exact (and_iff_left (List.forall_mem_nil _)).symm
    · have hgo : (e :: entries).takeWhile (fun e => e 0 ≠ 0) =
          e :: entries.takeWhile fun e => e 0 ≠ 0 :=
        List.takeWhile_cons_of_pos (decide_eq_true hend)
      rw [hgo, List.forall_mem_cons] at hlabel
      rw [if_neg hend, ih hlabel.2, parseEntry_list_nil_iff hlabel.1, hgo, List.forall_mem_cons,
        and_assoc]

theorem parseCluster_list (m : Media) (s : Parse) (c : ℕ) :
    (m.parseCluster s c).list = (parseEntries s (m.entries c)).list := by
  unfold Media.parseCluster
  dsimp only
  split <;> rfl

theorem parseFrom_list_nil_iff (h : Chain m.fat c l) (hread : ∀ x ∈ l, m.readError x = none)
    (hlabel : ∀ x ∈ l, ∀ e ∈ m.liveEntries x, ¬ e.IsLabel) (ht : m.parseFrom fuel c s = some t) :
    t.list = [] ↔ s.list = [] ∧ ∀ x ∈ l, ∀ e ∈ m.liveEntries x, ¬ e.IsFile := by
  induction h generalizing fuel s with
  | @last c hend =>
    cases fuel with
    | zero => cases ht
    | succ fuel =>
      rw [parseFrom_succ (hread c List.mem_cons_self), if_pos hend] at ht
      cases ht
      rw [parseCluster_list, parseEntries_list_nil_iff (hlabel c List.mem_cons_self),
        List.forall_mem_singleton]
      rfl
  | @next c l hnext hl ih =>
    cases fuel with
    | zero => cases ht
    | succ fuel =>
      rw [parseFrom_succ (hread c List.mem_cons_self), if_neg (not_le.mpr hnext)] at ht
      rw [List.forall_mem_cons] at hread hlabel
      rw [ih hread.2 hlabel.2 ht, parseCluster_list, parseEntries_list_nil_iff hlabel.1, and_assoc,
        List.forall_mem_cons]
      rfl

theorem exists_removeEntries {d : Disk} (h : Chain d.fat c l)
    (hread : ∀ x ∈ l, d.readError x = none)
    (hfuel : l.length ≤ fuel) (fileStart : ℕ) (lfnStart : Option ℕ) :
    ∃ d', d.removeEntries fileStart fuel c lfnStart = some (true, d') := by
  induction h generalizing fuel lfnStart with
  | @last c hend =>
    obtain ⟨fuel, rfl⟩ := Nat.exists_eq_succ_of_ne_zero (Nat.pos_iff_ne_zero.mp hfuel)
    unfold Disk.removeEntries
    rw [hread c List.mem_cons_self]
    dsimp only
    split
    · exact ⟨_, rfl⟩
    · rw [if_pos hend]
      exact ⟨_, rfl⟩
  | @next c l hnext hl ih =>
    obtain ⟨fuel, rfl⟩ := Nat.exists_eq_succ_of_ne_zero (Nat.ne_zero_of_lt hfuel)
    unfold Disk.removeEntries
    rw [hread c List.mem_cons_self]
    dsimp only
    split
    · exact ⟨_, rfl⟩
    · rw [if_neg (not_le.mpr hnext)]
      exact ih (fun x hx => hread x (List.mem_cons_of_mem c hx)) (Nat.le_of_succ_le_succ hfuel) _

/-! ## What `rmdir` does -/

theorem readError_eq_none (h : m.readError c = none) : c < m.endCluster := by
  unfold Media.readError at h
  split at h
  · cases h
  · split at h
    · cases h
    · next hlt => exact not_le.mp hlt

namespace Disk

variable {d : Disk} {name : List Byte}

theorem parse_eq {s : Parse} {cluster : ℕ} (h : d.parseDirectory d.volumeName cluster = some s) :
    d.parse cluster =
      some ({ d with volumeName := s.volumeName, error := s.error <|> d.error }, s.list) := by
  unfold parse
  rw [h]
  rfl

theorem Directory.exists_parse (dir : d.Directory) :
    ∃ s, d.parseDirectory d.volumeName (d.dirCluster dir.lbapos) = some s ∧
      d.listing dir.lbapos = s.list := by
  have hlen : dir.clusters.length ≤ d.endCluster + 1 :=
    (dir.chain.length_le fun x hx => readError_eq_none (dir.readable x hx)).trans (Nat.le_succ _)
  obtain ⟨s, hs⟩ := exists_parseFrom dir.chain dir.readable hlen
    ⟨d.volumeName, fun _ _ => 0, -1, [], none⟩
  refine ⟨s, hs, ?_⟩
  unfold listing Media.parseDirectory
  rw [hs]
  rfl

/-- `fat32_unlink_file` succeeds exactly for the names that are listed. -/
theorem fat32UnlinkFile_spec (dir : d.Directory) (name : List Byte) :
    ∃ result d', d.fat32UnlinkFile dir.lbapos name = some (result, d') ∧
      (result = true ↔ ∃ f, d.named dir.lbapos name = some f) ∧
      (result = false → d'.toMedia = d.toMedia) := by
  obtain ⟨s, hs, hlisting⟩ := dir.exists_parse
  unfold fat32UnlinkFile
  rw [parse_eq hs]
  simp only [Option.bind_eq_bind, Option.bind_some]
  cases hfound : s.list.find? fun f => sameName f.filename name with
  | none =>
    refine ⟨false, _, if_pos rfl, ?_, fun _ => rfl⟩
    unfold named
    rw [hlisting, hfound]
    exact iff_of_false Bool.false_ne_true fun ⟨f, hf⟩ => Option.some_ne_none f hf.symm
  | some f =>
    have hmem : f ∈ d.listing dir.lbapos := hlisting ▸ List.mem_of_find?_eq_some hfound
    obtain ⟨l, hl, hlt, hdisjoint⟩ := dir.files f hmem
    have hstart : ¬ f.lbapos = clusterEnd := by
      have hle := d.endCluster_le
      have hhead := hlt _ hl.head_mem
      unfold clusterBad at hle
      unfold clusterEnd
      omega
    have hfuel : l.length ≤ d.endCluster + 1 := (hl.length_le hlt).trans (Nat.le_succ _)
    obtain ⟨fat', hfree, hsame⟩ := freeChain_spec 0 hl hfuel
    have hlen : dir.clusters.length ≤ d.endCluster + 1 :=
      (dir.chain.length_le fun x hx => readError_eq_none (dir.readable x hx)).trans (Nat.le_succ _)
    -- the chain of the directory is not touched by what was freed
    have hchain : Chain fat' (d.dirCluster dir.lbapos) dir.clusters :=
      dir.chain.congr fun x hx => hsame x fun hxl => hdisjoint hxl hx
    simp only [Option.map_some, Option.getD_some, if_neg hstart, hfree, Option.bind_some]
    obtain ⟨d', hd'⟩ := exists_removeEntries (d := Disk.amendFreeCount { d with
        volumeName := s.volumeName, error := s.error <|> d.error, fat := fat' } (0 + l.length))
      hchain dir.readable hlen f.lbapos none
    refine ⟨true, d', hd', ?_, fun h => Bool.noConfusion h⟩
    unfold named
    rw [hlisting]
    exact iff_of_true rfl ⟨f, hfound⟩

theorem fat32UnlinkDir_root (d : Disk) (name : List Byte) : d.fat32UnlinkDir 0 name =
    ({ d with error := some .invalidArg } : Disk).fat32UnlinkFile 0 name := rfl

theorem fat32UnlinkDir_root_spec (dir : d.Directory) (hroot : dir.lbapos = 0) (name : List Byte) :
    ∃ result d', d.fat32UnlinkDir dir.lbapos name = some (result, d') ∧
      (result = true ↔ ∃ f, d.named dir.lbapos name = some f) ∧
      (result = false → d'.toMedia = d.toMedia) := by
  let dir' : Directory { d with error := some .invalidArg } :=
    ⟨dir.lbapos, dir.clusters, dir.chain, dir.readable, dir.unlabelled, dir.files⟩
  have hspec := fat32UnlinkFile_spec dir' name
  have heq : d.fat32UnlinkDir dir.lbapos name =
      ({ d with error := some .invalidArg } : Disk).fat32UnlinkFile dir.lbapos name := by
    rw [hroot]
    exact fat32UnlinkDir_root d name
  rw [heq]
  exact hspec

theorem Directory.listing_of_label (dir : d.Directory) (volumeName : Option (List Byte))
    (error : Option FsError) (hfiles : ∀ x ∈ dir.clusters, ∀ e ∈ d.liveEntries x, ¬ e.IsFile) :
    Disk.listing { d with volumeName := volumeName, error := error } dir.lbapos = [] := by
  have hlen : dir.clusters.length ≤ d.endCluster + 1 :=
    (dir.chain.length_le fun x hx => readError_eq_none (dir.readable x hx)).trans (Nat.le_succ _)
  have hlabel : ∀ x ∈ dir.clusters, ∀ e ∈ d.liveEntries x, ¬ e.IsLabel :=
    fun x hx e he h => hfiles x hx e he h.1
  obtain ⟨s, hs⟩ :=
    exists_parseFrom dir.chain dir.readable hlen ⟨volumeName, fun _ _ => 0, -1, [], none⟩
  have hnil := (parseFrom_list_nil_iff dir.chain dir.readable hlabel hs).mpr ⟨rfl, hfiles⟩
  change ((d.parseDirectory volumeName (d.dirCluster dir.lbapos)).map Parse.list).getD [] = []
  unfold Media.parseDirectory
  rw [hs]
  exact hnil

theorem fat32UnlinkDir_sub (dir : d.Directory) (hsub : dir.lbapos ≠ 0) (name : List Byte) :
    ∃ d', d.fat32UnlinkDir dir.lbapos name = some (false, d') ∧ d'.toMedia = d.toMedia := by
  obtain ⟨s, hs, hlisting⟩ := dir.exists_parse
  have hcluster : d.dirCluster dir.lbapos = dir.lbapos := if_pos hsub
  have hchain := dir.chain
  rw [hcluster] at hs hchain
  unfold fat32UnlinkDir
  rw [parse_eq hs]
  simp only [Option.bind_eq_bind, Option.bind_some]
  by_cases hnil : s.list = []
  · rw [if_neg (not_not_intro hnil)]
    have hfiles := ((parseFrom_list_nil_iff hchain dir.readable (dir.unlabelled hsub) hs).mp hnil).2
    have hempty := dir.listing_of_label s.volumeName (s.error <|> d.error) hfiles
    let dir' : Directory { d with volumeName := s.volumeName, error := s.error <|> d.error } :=
      ⟨dir.lbapos, dir.clusters, dir.chain, dir.readable, dir.unlabelled, fun f hf => by
        rw [hempty] at hf
        cases hf⟩
    obtain ⟨result, d', hresult, hiff, hsame⟩ := fat32UnlinkFile_spec dir' name
    have hfalse : result = false := by
      refine Bool.eq_false_of_not_eq_true fun htrue => ?_
      obtain ⟨f, hf⟩ := hiff.mp htrue
      have hmem := List.mem_of_find?_eq_some hf
      change f ∈ Disk.listing _ dir.lbapos at hmem
      rw [hempty] at hmem
      cases hmem
    subst hfalse
    exact ⟨d', hresult, hsame rfl⟩
  · rw [if_pos hnil]
    exact ⟨_, rfl, rfl⟩

end Disk

/-- `rmdir` is right exactly if, in the root, the name names no file and no directory with entries,
and, in any other directory, it does not name an empty directory. -/
theorem fat32UnlinkDir_right_iff (d : Disk) (dir : d.Directory) (name : List Byte) :
    d.RmdirRight dir.lbapos name ↔
      if dir.lbapos = 0 then
        ∀ f, d.named dir.lbapos name = some f → f.isDirectory = true ∧ d.EmptyDirectory f.lbapos
      else ¬ d.NamesEmptyDirectory dir.lbapos name := by
  split
  · next hroot =>
    obtain ⟨result, d', hresult, hiff, hsame⟩ := Disk.fat32UnlinkDir_root_spec dir hroot name
    constructor
    · rintro ⟨result', d'', hresult', hempty, -⟩ f hf
      rw [hresult] at hresult'
      cases hresult'
      obtain ⟨g, hg, hdirectory⟩ := hempty.mp (hiff.mpr ⟨f, hf⟩)
      rw [hf] at hg
      cases hg
      exact hdirectory
    · intro h
      refine ⟨result, d', hresult, hiff.trans ⟨?_, ?_⟩, hsame⟩
      · rintro ⟨f, hf⟩
        exact ⟨f, hf, h f hf⟩
      · rintro ⟨f, hf, -⟩
        exact ⟨f, hf⟩
  · next hsub =>
    obtain ⟨d', hresult, hsame⟩ := Disk.fat32UnlinkDir_sub dir hsub name
    constructor
    · rintro ⟨result, d'', hresult', hempty, -⟩ h
      rw [hresult] at hresult'
      cases hresult'
      exact Bool.false_ne_true (hempty.mpr h)
    · intro h
      exact ⟨false, d', hresult, iff_of_false Bool.false_ne_true h, fun _ => hsame⟩

/-! ## A tree of two directories -/

instance (e : Entry) : Decidable e.IsFile :=
  inferInstanceAs (Decidable (e 0 ≠ deletedEntry ∧ e.isDot = false ∧ _ ≠ _))

instance (e : Entry) : Decidable e.IsLabel := inferInstanceAs (Decidable (e.IsFile ∧ _ ≠ _))

def directoryEntry (name : List Byte) (cluster : Byte) : Entry := fun i =>
  if i < 11 then name.getD i space else if i = 11 then attrDirectory else
    if i = 26 then cluster else 0

def clusterOf (entries : List Entry) : Buffer :=
  fun i => entries.getD (i / 32) (fun _ => 0) (i % 32)

def docsName : List Byte := [0x44, 0x4f, 0x43, 0x53]

def oldName : List Byte := [0x4f, 0x4c, 0x44]

/-- `DOCS` in the root, and `OLD`, which is empty, in `DOCS`. -/
def twoDirectories : Disk where
  fat c := if 2 ≤ c ∧ c < 5 then 0x0fffffff else 0
  clusters c :=
    if c = 2 then clusterOf [directoryEntry docsName 3]
    else if c = 3 then
      clusterOf [directoryEntry [dot] 3, directoryEntry [dot, dot] 2, directoryEntry oldName 4]
    else clusterOf [directoryEntry [dot] 4, directoryEntry [dot, dot] 3]
  clusterSize := 512
  endCluster := 5
  endCluster_le := by decide
  rootDirCluster := 2
  volumeName := some [0x44]
  freeCount := 0
  totalClusters := 3
  error := none

theorem chain_twoDirectories {c : ℕ} (h : 2 ≤ c ∧ c < 5) : Chain twoDirectories.fat c [c] := by
  refine Chain.last ?_
  have hfat : twoDirectories.fat c = 0x0fffffff := if_pos h
  unfold getFatEntry
  rw [hfat]
  decide

def rootOfTwo : twoDirectories.Directory where
  lbapos := 0
  clusters := [2]
  chain := chain_twoDirectories (by decide)
  readable := by decide
  unlabelled h := absurd rfl h
  files f hf := by
    obtain rfl := List.mem_singleton.mp hf
    exact ⟨[3],
      chain_twoDirectories (by decide), by decide, List.disjoint_singleton.mpr (by decide)⟩

def docsOfTwo : twoDirectories.Directory where
  lbapos := 3
  clusters := [3]
  chain := chain_twoDirectories (by decide)
  readable := by decide
  unlabelled _ := by decide
  files f hf := by
    obtain rfl := List.mem_singleton.mp hf
    exact ⟨[4],
      chain_twoDirectories (by decide), by decide, List.disjoint_singleton.mpr (by decide)⟩

/-- `DOCS` is removed with what is in it, and `OLD` is not removed. -/
theorem not_rmdirRight_twoDirectories : ¬ twoDirectories.RmdirRight 0 docsName ∧
    ¬ twoDirectories.RmdirRight 3 oldName := by
  have hdocs : ∃ f, twoDirectories.named 0 docsName = some f ∧ f.lbapos = 3 := ⟨_, rfl, rfl⟩
  have hold : ∃ f, twoDirectories.named 3 oldName = some f ∧ f.isDirectory = true ∧ f.lbapos = 4 :=
    ⟨_, rfl, rfl, rfl⟩
  have hthree : ¬ ∀ e ∈ twoDirectories.liveEntries 3, ¬ e.IsFile := by decide
  have hfour : ∀ e ∈ twoDirectories.liveEntries 4, ¬ e.IsFile := by decide
  constructor
  · rintro ⟨result, d', hresult, hempty, -⟩
    obtain ⟨f, hf, hpos⟩ := hdocs
    obtain ⟨result', d'', hresult', hiff, -⟩ :=
      Disk.fat32UnlinkDir_root_spec rootOfTwo rfl docsName
    cases hresult.symm.trans hresult'
    obtain ⟨g, hg, -, l, hl, hnone⟩ := hempty.mp (hiff.mpr ⟨f, hf⟩)
    cases hf.symm.trans hg
    rw [hpos] at hl
    have hmem : 3 ∈ l := hl.head_mem
    exact hthree (hnone 3 hmem)
  · rintro ⟨result, d', hresult, hempty, -⟩
    obtain ⟨f, hf, hdirectory, hpos⟩ := hold
    obtain ⟨d'', hresult', -⟩ := Disk.fat32UnlinkDir_sub docsOfTwo (by decide) oldName
    cases hresult.symm.trans hresult'
    refine Bool.false_ne_true (hempty.mpr ⟨f, hf, hdirectory, [4], ?_, ?_⟩)
    · rw [hpos]
      exact chain_twoDirectories (by decide)
    · rw [List.forall_mem_singleton]
      exact hfour

end Fat32

end RetroRocket
