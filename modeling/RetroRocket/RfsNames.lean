import RetroRocket.RfsCreateLaw

/-!
# Which RetroFS names can be found again

Neither creation looks at the length of the name. What is stored is cut off after 127 bytes, and
`rfs_locate_entry` compares all of the name: a name is found again, and refused a second time,
exactly when it fits into its field and the directory can be walked up to its entry.
-/

namespace RetroRocket

open RetroRocket.Action

attribute [local irreducible] Action.Post

/-- A call of `rfs_create_file` or `rfs_create_directory`. -/
inductive CreateCall where
  | file (name : List Byte) (size : ℕ)
  | directory (name : List Byte)

namespace CreateCall

def name : CreateCall → List Byte
  | file name _ => name
  | directory name => name

def sectors : CreateCall → ℕ
  | file name size => reserveSectors name size
  | directory _ => 64

def run (env : Env) (lbapos : ℕ) : CreateCall → Action Rfs ℕ
  | file name size => rfsCreateFile env lbapos name size
  | directory name => rfsCreateDirectory env lbapos name

def existsError : CreateCall → FsError
  | file _ _ => .vfsData
  | directory _ => .directoryExists

def Proper (c : CreateCall) (v : Volume) : Prop :=
  (0 : Byte) ∉ c.name ∧ (c.sectors ≤ 4096 ∨ v.FirstTailFree c.sectors)

end CreateCall

/-- The name is found, with its extent, and no other creation with it succeeds or writes anything,
whatever the case of its letters. -/
def NameStored (v : Rfs) (lbapos : ℕ) (name : List Byte) (sector : ℕ) : Prop :=
  (∃ b i e u, rfsLocateEntry Env.reliable lbapos name v = (some (some (b, i, e)), u) ∧
    entrySectorStart e = sector) ∧
    ∀ c : CreateCall, sameName name c.name = true → ∃ u, c.run Env.reliable lbapos v = (none, u) ∧
      u.toVolume = v.toVolume ∧ u.lastError = c.existsError

variable {v : Rfs} {lbapos start sector : ℕ} {blocks : List ℕ} {name name' : List Byte}

/-! ## Creations -/

theorem CreateCall.run_post (c : CreateCall) (hd : v.Directory start blocks)
    (hstart : dirStart v.toVolume lbapos = start) (hc : c.Proper v.toVolume) :
    Post (c.run Env.reliable lbapos) v
      (fun s t => (c.name ≠ [] ∧ v.walk c.name (blocks.take walkLimit) = none ∧
        blocks.length ≤ walkLimit) ∧ ∃ blocks', v.Created t.toVolume start blocks c.name s blocks')
      (fun t => v.Kept t.toVolume ∧ ¬ v.Accommodates blocks c.name c.sectors) := by
  cases c with
  | file name size => exact rfsCreateFile_post hd hstart hc.1 hc.2
  | directory name => exact rfsCreateDirectory_post hd hstart hc.1

theorem CreateCall.run_found (c : CreateCall) (hd : v.Directory start blocks)
    (hstart : dirStart v.toVolume lbapos = start) (hne : c.name ≠ [])
    (hfound : v.walk c.name (blocks.take walkLimit) ≠ none) :
    Post (c.run Env.reliable lbapos) v (fun _ _ => False)
      (fun t => t.toVolume = v.toVolume ∧ t.lastError = c.existsError) := by
  obtain ⟨found, hfound⟩ := Option.ne_none_iff_exists'.mp hfound
  cases c with
  | file name size =>
    have hne' : ¬ name = [] := hne
    have hfound' : v.walk name (blocks.take walkLimit) = some found := hfound
    unfold CreateCall.run rfsCreateFile
    dsimp only
    rw [if_neg hne', post_bind]
    refine (rfsLocateEntry_post hd hstart hne').mono (fun r t hr => ?_) (fun _ h => h.elim)
    obtain ⟨ht, rfl⟩ := hr
    rw [hfound']
    dsimp only
    rw [post_failWith]
    exact ⟨ht, rfl⟩
  | directory name =>
    have hne' : ¬ name = [] := hne
    have hfound' : v.walk name (blocks.take walkLimit) = some found := hfound
    unfold CreateCall.run rfsCreateDirectory
    dsimp only
    rw [if_neg hne', post_bind]
    refine (rfsLocateEntry_post hd hstart hne').mono (fun r t hr => ?_) (fun _ h => h.elim)
    obtain ⟨ht, rfl⟩ := hr
    rw [hfound']
    dsimp only
    rw [post_failWith]
    exact ⟨ht, rfl⟩

/-! ## Names that are found -/

def Found (v : Volume) (blocks : List ℕ) (name : List Byte) (sector : ℕ) : Prop :=
  ∃ b i e, v.walk name (blocks.take walkLimit) = some (b, i, e) ∧ entrySectorStart e = sector

theorem scanEntries_sameName {block : Buffer} (h : sameName name name' = true) (n i : ℕ) :
    scanEntries block name n i = scanEntries block name' n i := by
  induction n generalizing i with
  | zero => rfl
  | succ n ih => rw [scanEntries, scanEntries, strcasecmp_sameName h, ih]

theorem walk_sameName {v : Volume} (h : sameName name name' = true) (l : List ℕ) :
    v.walk name l = v.walk name' l := by
  induction l with
  | nil => rfl
  | cons b l ih =>
    have hscan : scanBlock (v.block b) name = scanBlock (v.block b) name' :=
      scanEntries_sameName h _ _
    rw [Volume.walk, Volume.walk, hscan, ih]

theorem sameName_ne_nil (h : sameName name name' = true) (hne : name ≠ []) : name' ≠ [] := by
  have hmap : name.map tolower = name'.map tolower := of_decide_eq_true h
  rintro rfl
  exact hne (List.map_eq_nil_iff.mp hmap)

theorem stored_iff_found (hd : v.Directory start blocks)
    (hstart : dirStart v.toVolume lbapos = start)
    (hne : name ≠ []) : NameStored v lbapos name sector ↔ Found v.toVolume blocks name sector := by
  have hlocate := post_iff.mp (rfsLocateEntry_post hd hstart hne)
  constructor
  · rintro ⟨⟨b, i, e, u, hrun, he⟩, -⟩
    exact ⟨b, i, e, (hlocate.1 _ _ hrun).2.symm, he⟩
  · rintro ⟨b, i, e, hwalk, he⟩
    refine ⟨?_, fun c hc => ?_⟩
    · rcases hrun : rfsLocateEntry Env.reliable lbapos name v with ⟨_ | r, u⟩
      · exact (hlocate.2 _ hrun).elim
      · rw [hwalk] at hlocate
        exact ⟨b, i, e, u, by rw [(hlocate.1 _ _ hrun).2], he⟩
    · have hfound : v.walk c.name (blocks.take walkLimit) ≠ none := by
        rw [← walk_sameName hc, hwalk]
        exact Option.some_ne_none _
      have hpost := post_iff.mp (c.run_found hd hstart (sameName_ne_nil hc hne) hfound)
      rcases hrun : c.run Env.reliable lbapos v with ⟨_ | s, u⟩
      · exact ⟨u, rfl, hpost.2 _ hrun⟩
      · exact (hpost.1 _ _ hrun).elim

/-! ## What an entered name changes for the walks -/

variable {block block' : Buffer} {i j : ℕ}

structure StopsAt (block : Buffer) (name : List Byte) (j : ℕ) : Prop where
  lt : j < entriesPerBlock
  passed : ∀ k < j, Passed block name k
  first : entryName (dirEntry block j) 0 ≠ 0
  same : strcasecmp (entryName (dirEntry block j)) name = true

theorem scanEntries_found {n : ℕ} (h : scanEntries block name n i = .found j) :
    (j < i + n ∧ ∀ k, i ≤ k → k < j → Passed block name k) ∧ entryName (dirEntry block j) 0 ≠ 0 ∧
      strcasecmp (entryName (dirEntry block j)) name = true := by
  induction n generalizing i with
  | zero => cases h
  | succ n ih =>
    unfold scanEntries at h
    split at h
    · cases h
    · next hne =>
      split at h
      · next hcmp =>
        cases h
        exact ⟨⟨by omega, fun k hk hk' => absurd hk' (not_lt.mpr hk)⟩, hne, hcmp⟩
      · next hcmp =>
        obtain ⟨⟨hj, hpassed⟩, hfirst⟩ := ih h
        refine ⟨⟨by omega, fun k hk hk' => ?_⟩, hfirst⟩
        by_cases heq : k = i
        · rw [heq]
          exact ⟨hne, Bool.eq_false_of_not_eq_true hcmp⟩
        · exact hpassed k (by omega) hk'

theorem scanBlock_found_iff : scanBlock block name = .found j ↔ StopsAt block name j := by
  constructor
  · intro h
    obtain ⟨⟨hlt, hpassed⟩, hfirst, hsame⟩ := scanEntries_found h
    exact ⟨by omega, fun k hk => hpassed k (Nat.zero_le k) hk, hfirst, hsame⟩
  · intro h
    exact scanEntries_of_passed (fun k _ hk => h.passed k hk) (Nat.zero_le j)
      (by have := h.lt; omega)
      h.first h.same

def SameEntry (block block' : Buffer) (j : ℕ) : Prop :=
  ∀ k < 256, dirEntry block' j k = dirEntry block j k

theorem SameEntry.first (h : SameEntry block block' j) :
    entryName (dirEntry block' j) 0 = entryName (dirEntry block j) 0 := h 4 (by decide)

theorem SameEntry.strcasecmp (h : SameEntry block block' j) (hlen : name.length < rfsMaxName) :
    strcasecmp (entryName (dirEntry block' j)) name = strcasecmp
      (entryName (dirEntry block j)) name :=
  strcasecmp_entry_congr hlen h

theorem SameEntry.symm (h : SameEntry block block' j) : SameEntry block' block j :=
  fun k hk => (h k hk).symm

theorem SameEntry.sectorStart (h : SameEntry block block' j) :
    entrySectorStart (dirEntry block' j) = entrySectorStart (dirEntry block j) :=
  leValue_congr_of_mem fun k _ hk => h k (by omega)

theorem StopsAt.congr (h : StopsAt block name j) (hlen : name.length < rfsMaxName)
    (hsame : ∀ k ≤ j, SameEntry block block' k) : StopsAt block' name j := by
  refine ⟨h.lt, fun k hk => ?_, ?_, ?_⟩
  · unfold Passed
    rw [(hsame k hk.le).first, (hsame k hk.le).strcasecmp hlen]
    exact h.passed k hk
  · rw [(hsame j le_rfl).first]
    exact h.first
  · rw [(hsame j le_rfl).strcasecmp hlen]
    exact h.same

def SameScan (block block' : Buffer) (name : List Byte) : Prop := ∀ j,
  (scanBlock block name = .found j → scanBlock block' name = .found j ∧ SameEntry block block' j) ∧
    (scanBlock block' name = .found j → scanBlock block name = .found j)

theorem sameScan_of_sameEntry (hlen : name.length < rfsMaxName)
    (h : ∀ j < entriesPerBlock, SameEntry block block' j) : SameScan block block' name := by
  intro j
  rw [scanBlock_found_iff, scanBlock_found_iff]
  constructor
  · exact fun hs => ⟨hs.congr hlen fun k hk => h k (hk.trans_lt hs.lt), h j hs.lt⟩
  · exact fun hs => hs.congr hlen fun k hk => (h k (hk.trans_lt hs.lt)).symm

theorem sameScan_putEntry {e : Buffer} (hlen : name.length < rfsMaxName)
    (he : strcasecmp (entryName e) name = false) (hpacked : Packed block)
    (hempty : entryName (dirEntry block i) 0 = 0) : SameScan block (putEntry block i e) name := by
  have hother : ∀ j, j ≠ i → SameEntry block (putEntry block i e) j :=
    fun j hj k hk => dirEntry_putEntry_of_ne hj hk
  have hput : strcasecmp (entryName (dirEntry (putEntry block i e) i)) name = false := by
    rwa [strcasecmp_entry_congr hlen fun k hk => dirEntry_putEntry hk]
  intro j
  rw [scanBlock_found_iff, scanBlock_found_iff]
  -- the entry that is found lies before the slot
  constructor
  · intro hs
    have hji : j < i := by
      rcases lt_trichotomy j i with hlt | heq | hgt
      · exact hlt
      · exact absurd hempty (heq ▸ hs.first)
      · exact absurd hempty (hs.passed i hgt).1
    exact ⟨hs.congr hlen fun k hk => hother k (hk.trans_lt hji).ne, hother j hji.ne⟩
  · intro hs
    have hji : j < i := by
      rcases lt_trichotomy j i with hlt | heq | hgt
      · exact hlt
      · have hsame := hs.same
        rw [heq, hput] at hsame
        cases hsame
      · have hfirst := hs.first
        rw [(hother j hgt.ne').first] at hfirst
        exact absurd (hpacked i j hgt.le hs.lt hempty) hfirst
    exact hs.congr hlen fun k hk => (hother k (hk.trans_lt hji).ne).symm

theorem walk_sameScan {v t : Volume} {l : List ℕ}
    (h : ∀ c ∈ l, SameScan (v.block c) (t.block c) name) :
    (v.walk name l = none → t.walk name l = none) ∧
      ∀ b i e, v.walk name l = some (b, i, e) →
        ∃ e', t.walk name l = some (b, i, e') ∧ entrySectorStart e' = entrySectorStart e := by
  induction l with
  | nil => exact ⟨fun _ => rfl, fun b i e h => by cases h⟩
  | cons c l ih =>
    rw [List.forall_mem_cons] at h
    obtain ⟨hscan, hrest⟩ := h
    by_cases hfound : ∃ j, scanBlock (v.block c) name = .found j
    · obtain ⟨j, hj⟩ := hfound
      obtain ⟨hj', hentry⟩ := (hscan j).1 hj
      rw [Volume.walk, Volume.walk, hj, hj']
      refine ⟨fun h => absurd h (Option.some_ne_none _), fun b i e h => ?_⟩
      cases h
      exact ⟨_, rfl, hentry.sectorStart⟩
    · have hnot : ∀ j, scanBlock (v.block c) name ≠ .found j := fun j hj => hfound ⟨j, hj⟩
      have hnot' : ∀ j, scanBlock (t.block c) name ≠ .found j := fun j hj => hnot j ((hscan j).2 hj)
      rw [walk_cons_of_not_found hnot, walk_cons_of_not_found hnot']
      exact ih hrest

/-! ## Entered names -/

variable {u t : Volume} {file : FileInfo} {blocks' : List ℕ}

theorem Volume.Entered.directory (h : u.Entered t start blocks file blocks') :
    t.Directory start blocks' := by
  cases h with
  | slot _ _ _ _ _ ht _ => exact ht
  | fresh _ _ _ ht _ => exact ht

theorem walk_append_some {l₁ l₂ : List ℕ} {r : ℕ × ℕ × Buffer} (h : t.walk name l₁ = some r) :
    t.walk name (l₁ ++ l₂) = some r := by
  induction l₁ with
  | nil => cases h
  | cons b l ih =>
    rw [Volume.walk] at h
    rw [List.cons_append, Volume.walk]
    split
    · next hfound =>
      rw [hfound] at h
      exact h
    · next hnot =>
      split at h
      · next hfound => exact absurd hfound (hnot _)
      · exact ih h

theorem walk_long {l : List ℕ}
    (hnames : ∀ b ∈ l, ∀ i < entriesPerBlock, NameEnds (dirEntry (t.block b) i))
    (hlong : rfsMaxName ≤ name.length) : t.walk name l = none := by
  induction l with
  | nil => rfl
  | cons b l ih =>
    rw [List.forall_mem_cons] at hnames
    rw [walk_cons_of_not_found (scanBlock_ne_found fun i hi => (hnames.1 i hi).not_long hlong)]
    exact ih hnames.2

theorem walk_put {l₁ l₂ : List ℕ} {b i sectorExtent : ℕ} {e : Buffer} (hi : i < entriesPerBlock)
    (hbefore : ∀ c ∈ l₁, ∀ j, scanBlock (t.block c) file.filename ≠ .found j)
    (hput : t.block b = putEntry block i (newEntry file sectorExtent e))
    (hpassed : ∀ k < i, Passed block file.filename k) (hne : file.filename ≠ [])
    (hzero : (0 : Byte) ∉ file.filename) (hlen : file.filename.length < rfsMaxName)
    (hstart : file.lbapos < 2 ^ 64) :
    ∃ c j e', t.walk file.filename (l₁ ++ b :: l₂) = some (c, j, e') ∧
      entrySectorStart e' = file.lbapos := by
  have hscan : scanBlock (t.block b) file.filename = .found i := by
    rw [hput]
    exact scanBlock_putEntry hi hne hlen hzero hpassed
  refine ⟨b, i, dirEntry (t.block b) i, ?_, ?_⟩
  · rw [walk_append hbefore, Volume.walk, hscan]
  · have hload : entrySectorStart (dirEntry (t.block b) i) =
        entrySectorStart (newEntry file sectorExtent e) := by
      rw [hput]
      exact leValue_congr_of_mem fun k _ hk => dirEntry_putEntry (by omega)
    rw [hload, newEntry_sectorStart hstart]

theorem take_snoc_of_le {l : List ℕ} {c n : ℕ} (h : l.length ≤ n) :
    (l ++ [c]).take n = l ++ [c].take (n - l.length) := by
  rw [List.take_append, List.take_of_length_le h]

/-- The entry is found if its name has not been cut off and its block is not behind the last one
that a walk reads. -/
theorem Volume.Entered.found_iff (h : u.Entered t start blocks file blocks')
    (hlen : blocks.length ≤ walkLimit) (hwalk : u.walk file.filename (blocks.take walkLimit) = none)
    (hne : file.filename ≠ []) (hzero : (0 : Byte) ∉ file.filename) (hlba : file.lbapos < 2 ^ 64) :
    Found t blocks' file.filename file.lbapos ↔
      file.filename.length < rfsMaxName ∧ (blocks.length = walkLimit → u.HasSlot blocks) := by
  have hdir := h.directory
  by_cases hshort : file.filename.length < rfsMaxName
  · rw [List.take_of_length_le hlen] at hwalk
    cases h with
    | @slot l₁ l₂ b i sectorExtent e hblocks hfull hempty hput hother ht hdesc =>
      obtain ⟨hi, hfirst, hpassed⟩ := scanEntries_empty hempty
      rw [Nat.zero_add] at hi
      have hslot : u.HasSlot blocks := by
        refine ⟨b, ?_, i, hi, hfirst⟩
        rw [hblocks]
        exact List.mem_append_right l₁ List.mem_cons_self
      have hbefore : ∀ c ∈ l₁, ∀ j, scanBlock (t.block c) file.filename ≠ .found j := by
        intro c hc
        have hmem : c ∈ blocks := by
          rw [hblocks]
          exact List.mem_append_left (b :: l₂) hc
        have hcb : c ≠ b := by
          have hnodup := ht.nodup
          rw [hblocks] at hnodup
          exact (List.nodup_append.mp hnodup).2.2 c hc b List.mem_cons_self
        rw [hother c hmem hcb]
        exact not_found_of_full (hfull c hc)
      refine ⟨fun _ => ⟨hshort, fun _ => hslot⟩, fun _ => ?_⟩
      unfold Found
      rw [List.take_of_length_le hlen, hblocks]
      exact walk_put hi hbefore hput (fun k hk => hpassed k (Nat.zero_le k) hk) hne
        hzero hshort hlba
    | @fresh new sectorExtent hfull hput hentry ht hdesc =>
      have hnone : ¬ u.HasSlot blocks := by
        rintro ⟨b, hb, i, hi, hfirst⟩
        exact (scanEntries_full (hfull b hb) (Nat.zero_le i) (by omega)).1 hfirst
      have hsame : ∀ c ∈ blocks, SameScan (u.block c) (t.block c) file.filename := fun c hc =>
        sameScan_of_sameEntry hshort fun j _ k _ => by rw [hentry c hc j]
      have hold := (walk_sameScan hsame).1 hwalk
      unfold Found
      rw [take_snoc_of_le hlen]
      by_cases hlimit : blocks.length = walkLimit
      · rw [hlimit, Nat.sub_self, List.take_zero, List.append_nil, hold]
        constructor
        · rintro ⟨b, i, e, hsome, -⟩
          cases hsome
        · exact fun hcond => absurd (hcond.2 rfl) hnone
      · have hroom : [new].length ≤ walkLimit - blocks.length := by
          rw [List.length_singleton]
          omega
        rw [List.take_of_length_le hroom]
        refine ⟨fun _ => ⟨hshort, fun h => absurd h hlimit⟩, fun _ => ?_⟩
        refine walk_put (Nat.succ_pos 126) (fun c hc j hj => ?_) hput
          (fun k hk => absurd hk (Nat.not_lt_zero k)) hne hzero hshort hlba
        exact not_found_of_full (hfull c hc) j ((hsame c hc j).2 hj)
  · have hnone : t.walk file.filename (blocks'.take walkLimit) = none :=
      walk_long (fun b hb => hdir.names b (List.mem_of_mem_take hb)) (not_lt.mp hshort)
    constructor
    · rintro ⟨b, i, e, hsome, -⟩
      rw [hnone] at hsome
      cases hsome
    · exact fun hcond => absurd hcond.1 hshort

theorem Found.short (hd : t.Directory start blocks) (h : Found t blocks name sector) :
    name.length < rfsMaxName := by
  obtain ⟨b, i, e, hwalk, -⟩ := h
  by_contra hlong
  rw [walk_long (fun b hb => hd.names b (List.mem_of_mem_take hb)) (not_lt.mp hlong)] at hwalk
  cases hwalk

theorem Volume.Entered.found_of_ne (h : u.Entered t start blocks file blocks')
    (hu : u.Directory start blocks) (hlen : blocks.length ≤ walkLimit)
    (hzero : (0 : Byte) ∉ file.filename) (hshort : file.filename.length < rfsMaxName)
    (hname : sameName file.filename name = false) (hfound : Found u blocks name sector) :
    Found t blocks' name sector := by
  have hnameShort := hfound.short hu
  have hcmp : ∀ {sectorExtent : ℕ} {e : Buffer},
      strcasecmp (entryName (newEntry file sectorExtent e)) name = false := by
    intro sectorExtent e
    obtain ⟨hstring, hend⟩ := @newEntry_string e file sectorExtent hshort
    rw [Bool.eq_false_iff]
    intro hcmp
    rw [sameName_of_strcasecmp hstring hend hzero hcmp] at hname
    cases hname
  obtain ⟨b, i, e, hwalk, he⟩ := hfound
  rw [List.take_of_length_le hlen] at hwalk
  cases h with
  | @slot l₁ l₂ b' i' sectorExtent e' hblocks hfull hempty hput hother ht hdesc =>
    obtain ⟨-, hfirst, -⟩ := scanEntries_empty hempty
    have hmem : b' ∈ blocks := by
      rw [hblocks]
      exact List.mem_append_right l₁ List.mem_cons_self
    have hsame : ∀ c ∈ blocks, SameScan (u.block c) (t.block c) name := by
      intro c hc
      by_cases hcb : c = b'
      · rw [hcb, hput]
        exact sameScan_putEntry hnameShort hcmp (hu.packed b' hmem) hfirst
      · rw [hother c hc hcb]
        exact sameScan_of_sameEntry hnameShort fun j _ k _ => rfl
    obtain ⟨e'', hwalk', he'⟩ := (walk_sameScan hsame).2 b i e hwalk
    refine ⟨b, i, e'', ?_, he'.trans he⟩
    rw [List.take_of_length_le hlen, hwalk']
  | @fresh new sectorExtent hfull hput hentry ht hdesc =>
    have hsame : ∀ c ∈ blocks, SameScan (u.block c) (t.block c) name := fun c hc =>
      sameScan_of_sameEntry hnameShort fun j _ k _ => by rw [hentry c hc j]
    obtain ⟨e'', hwalk', he'⟩ := (walk_sameScan hsame).2 b i e hwalk
    refine ⟨b, i, e'', ?_, he'.trans he⟩
    rw [take_snoc_of_le hlen]
    exact walk_append_some hwalk'

/-! ## Runs of creations -/

structure Accepted (v t : Volume) (start : ℕ) (blocks blocks' : List ℕ)
    (name : List Byte) (sector : ℕ) :
    Prop where
  named : name ≠ []
  absent : v.walk name (blocks.take walkLimit) = none
  few : blocks.length ≤ walkLimit
  created : v.Created t start blocks name sector blocks'

theorem CreateCall.accepted {c : CreateCall} {t : Rfs} (hd : v.Directory start blocks)
    (hstart : dirStart v.toVolume lbapos = start) (hc : c.Proper v.toVolume)
    (hrun : c.run Env.reliable lbapos v = (some sector, t)) :
    ∃ blocks', Accepted v.toVolume t.toVolume start blocks blocks' c.name sector := by
  obtain ⟨⟨hne, hwalk, hlen⟩, blocks', hcreated⟩ := (c.run_post hd hstart hc).of_eq_some hrun
  exact ⟨blocks', hne, hwalk, hlen, hcreated⟩

theorem Accepted.directory {w : Volume} (h : Accepted w t start blocks blocks' name sector) :
    t.Directory start blocks' := by
  obtain ⟨u, file, -, -, -, -, hentered⟩ := h.created
  exact hentered.directory

theorem Accepted.dirStart {w : Volume} (h : Accepted w t start blocks blocks' name sector) :
    dirStart t lbapos = dirStart w lbapos := by
  obtain ⟨u, file, hu, -, -, -, hentered⟩ := h.created
  have hdesc : t.desc = u.desc := by
    cases hentered with
    | slot _ _ _ _ _ _ hdesc => exact hdesc
    | fresh _ _ _ _ hdesc => exact hdesc
  unfold RetroRocket.dirStart
  rw [hdesc, hu.desc]

theorem Accepted.found_iff {w : Volume} (h : Accepted w t start blocks blocks' name sector)
    (hd : w.Directory start blocks) (hzero : (0 : Byte) ∉ name) :
    Found t blocks' name sector ↔
      name.length < rfsMaxName ∧ (blocks.length = walkLimit → w.HasSlot blocks) := by
  obtain ⟨hne, hwalk, hlen, u, file, hu, rfl, rfl, hsector, hentered⟩ := h
  have hlt := w.totalSectors_lt
  have hwalk' : u.walk file.filename (blocks.take walkLimit) = none := by
    rw [Volume.walk_congr fun b hb => hd.block_kept hu (List.mem_of_mem_take hb), hwalk]
  rw [hentered.found_iff hlen hwalk' hne hzero (hsector.trans hlt), Volume.HasSlot.kept hd hu]

theorem Found.kept {w : Volume} (hd : w.Directory start blocks) (hu : w.Kept u)
    (h : Found w blocks name sector) : Found u blocks name sector := by
  obtain ⟨b, i, e, hwalk, he⟩ := h
  refine ⟨b, i, e, ?_, he⟩
  rw [Volume.walk_congr fun b hb => hd.block_kept hu (List.mem_of_mem_take hb), hwalk]

theorem Accepted.found {w : Volume} {other : List Byte} {s : ℕ}
    (h : Accepted w t start blocks blocks' name sector) (hd : w.Directory start blocks)
    (hzero : (0 : Byte) ∉ name) (hshort : name.length < rfsMaxName)
    (hfound : Found w blocks other s) : Found t blocks' other s := by
  obtain ⟨hne, hwalk, hlen, u, file, hu, rfl, rfl, hsector, hentered⟩ := h
  have hother : sameName file.filename other = false := by
    rw [Bool.eq_false_iff]
    intro hsame
    obtain ⟨b, i, e, hwalk', -⟩ := hfound
    rw [← walk_sameName hsame, hwalk] at hwalk'
    cases hwalk'
  exact hentered.found_of_ne (hd.kept hu) hlen hzero hshort hother (hfound.kept hd hu)

/-- The accepted names of a run of creations in one directory, with their extents. The names fit
into their field, and there is an empty slot where there is no room for a block. -/
inductive Creates (lbapos : ℕ) (v : Rfs) : Rfs → List (List Byte × ℕ) → Prop
  | nil : Creates lbapos v v []
  | accepted {t u : Rfs} {names : List (List Byte × ℕ)} {c : CreateCall} {sector : ℕ}
      (h : Creates lbapos v t names) (hc : c.Proper t.toVolume)
      (hshort : c.name.length < rfsMaxName)
      (hroom : ∀ blocks, t.DirChain (dirStart t.toVolume lbapos) blocks →
        blocks.length = walkLimit → t.HasSlot blocks)
      (hrun : c.run Env.reliable lbapos t = (some sector, u)) :
      Creates lbapos v u ((c.name, sector) :: names)
  | rejected {t u : Rfs} {names : List (List Byte × ℕ)} {c : CreateCall}
      (h : Creates lbapos v t names) (hc : c.Proper t.toVolume)
      (hrun : c.run Env.reliable lbapos t = (none, u)) : Creates lbapos v u names

theorem Creates.found {t : Rfs} {names : List (List Byte × ℕ)} (h : Creates lbapos v t names)
    (hd : v.Directory (dirStart v.toVolume lbapos) blocks) :
    ∃ blocks', t.Directory (dirStart t.toVolume lbapos) blocks' ∧
      ∀ p ∈ names, p.1 ≠ [] ∧ Found t.toVolume blocks' p.1 p.2 := by
  induction h with
  | nil => exact ⟨blocks, hd, fun p hp => by cases hp⟩
  | @accepted t u names c sector h hc hshort hroom hrun ih =>
    obtain ⟨blocks', hdt, hnames⟩ := ih
    obtain ⟨blocks'', haccepted⟩ := c.accepted hdt rfl hc hrun
    have hdu := haccepted.directory
    rw [← haccepted.dirStart] at hdu
    refine ⟨blocks'', hdu, List.forall_mem_cons.mpr ⟨⟨haccepted.named, ?_⟩, fun p hp => ?_⟩⟩
    · exact (haccepted.found_iff hdt hc.1).mpr ⟨hshort, hroom blocks' hdt.chain⟩
    · obtain ⟨hne, hfound⟩ := hnames p hp
      exact ⟨hne, haccepted.found hdt hc.1 hshort hfound⟩
  | @rejected t u names c h hc hrun ih =>
    obtain ⟨blocks', hdt, hnames⟩ := ih
    have hkept := ((c.run_post hdt rfl hc).of_eq_none hrun).1
    refine ⟨blocks', ?_, fun p hp => ⟨(hnames p hp).1, (hnames p hp).2.kept hdt hkept⟩⟩
    rw [hkept.dirStart]
    exact hdt.kept hkept

/-- An accepted name is stored exactly when it is shorter than its field and no walk ends before its
entry, a rejected one leaves the directory as it was, and the names of a run stay stored. -/
theorem rfsCreate_stored_iff (hd : v.Directory (dirStart v.toVolume lbapos) blocks) :
    (∀ (c : CreateCall) sector t, c.Proper v.toVolume →
      c.run Env.reliable lbapos v = (some sector, t) →
      (NameStored t lbapos c.name sector ↔
        c.name.length < rfsMaxName ∧ (blocks.length = walkLimit → v.HasSlot blocks))) ∧
    (∀ (c : CreateCall) t, c.Proper v.toVolume → c.run Env.reliable lbapos v = (none, t) →
      ∀ b ∈ blocks, t.block b = v.block b) ∧
    ∀ t names, Creates lbapos v t names → ∀ p ∈ names, NameStored t lbapos p.1 p.2 := by
  refine ⟨fun c sector t hc hrun => ?_, fun c t hc hrun b hb => ?_, fun t names h p hp => ?_⟩
  · obtain ⟨blocks', haccepted⟩ := c.accepted hd rfl hc hrun
    rw [stored_iff_found haccepted.directory haccepted.dirStart haccepted.named]
    exact haccepted.found_iff hd hc.1
  · exact hd.block_kept ((c.run_post hd rfl hc).of_eq_none hrun).1 hb
  · obtain ⟨blocks', hdt, hnames⟩ := h.found hd
    obtain ⟨hne, hfound⟩ := hnames p hp
    exact (stored_iff_found hdt rfl hne).mpr hfound

/-! ## An empty root directory -/

theorem oneGroup_lt : 4096 < 2 ^ 64 := by decide

def blankVolume : Volume := Volume.ofMap 4096 4095 (fun x => x < 65 || 4095 ≤ x) oneGroup_lt

theorem blankVolume_exact : blankVolume.Exact := Volume.ofMap_exact _ _ _ _

theorem blankVolume_l1Groups : blankVolume.l1Groups = 1 := blankVolume_exact.l1Groups

theorem blankVolume_mapSector {x : ℕ} (h : blankVolume.MapSector x) : x = 4095 := by
  obtain ⟨g, hg, rfl⟩ := h
  rw [blankVolume_l1Groups] at hg
  have hg' : g = 0 := by omega
  rw [hg']
  rfl

theorem blankVolume_l0Used {x : ℕ} (hx : x < 4096) :
    blankVolume.l0Used x = (x < 65 || 4095 ≤ x) := Volume.ofMap_l0Used (by omega)

theorem blankVolume_mapKept : blankVolume.MapKept := by
  refine ⟨blankVolume_exact, ?_, ?_, fun x hx => ?_, ?_⟩
  · unfold Volume.MapInside
    rw [blankVolume_l1Groups]
    exact le_rfl
  · rw [blankVolume_l1Groups]
    exact Nat.one_pos
  · rw [blankVolume_mapSector hx, blankVolume_l0Used (by decide)]
    decide
  · rw [blankVolume_l0Used (by decide)]
    decide

def emptyRoot : Rfs where
  toVolume := blankVolume.store 1 rfsDirBytes (freshBlock 1)
  requests := 0
  allocations := 0
  lastError := .noError

theorem emptyRoot_eq : emptyRoot.toVolume = blankVolume.store 1 rfsDirBytes (freshBlock 1) := rfl

theorem emptyRoot_mapSector {x : ℕ} (h : emptyRoot.MapSector x) : x = 4095 := by
  rw [emptyRoot_eq, Volume.store_mapSector] at h
  exact blankVolume_mapSector h

theorem emptyRoot_mapKept : emptyRoot.MapKept ∧ ∀ x < 4096,
    emptyRoot.l0Used x = blankVolume.l0Used x := by
  have hin : 1 + 64 ≤ blankVolume.totalSectors := by decide
  rw [emptyRoot_eq]
  refine blankVolume_mapKept.storeBlock hin (freshBlock 1) fun y hy => ?_
  rw [blankVolume_mapSector hy]
  omega

theorem emptyRoot_block : emptyRoot.block 1 = freshBlock 1 := by
  have hin : 1 + 64 ≤ blankVolume.totalSectors := by decide
  refine Volume.block_store hin (freshBlock 1) fun k hk => freshBlock_of_le ?_
  have hk' : 512 * 64 ≤ k := hk
  omega

theorem emptyRoot_first (j : ℕ) : entryName (dirEntry (emptyRoot.block 1) j) 0 = 0 := by
  rw [emptyRoot_block, freshBlock_entry]
  rfl

theorem emptyRoot_dirStart : dirStart emptyRoot.toVolume 0 = 1 := rfl

theorem emptyRoot_totalSectors : emptyRoot.totalSectors = 4096 := rfl

theorem emptyRoot_chain : emptyRoot.DirChain 1 [1] := by
  refine Volume.DirChain.last ⟨Nat.one_ne_zero, ?_, ?_⟩ ?_
  · rw [emptyRoot_totalSectors]
    omega
  · rw [emptyRoot_block, freshBlock_startOk]
  · rw [emptyRoot_block, freshBlock_continuation]

theorem emptyRoot_directory : emptyRoot.Directory (dirStart emptyRoot.toVolume 0) [1] := by
  rw [emptyRoot_dirStart]
  refine ⟨emptyRoot_mapKept.1, emptyRoot_chain, ?_, List.nodup_singleton 1, ?_, ?_, ?_⟩
  · intro b hb x hx hx'
    rw [List.mem_singleton] at hb
    rw [emptyRoot_mapKept.2 x (by omega), blankVolume_l0Used (by omega)]
    refine ⟨?_, fun hm => ?_⟩
    · have hlow : x < 65 := by omega
      rw [decide_eq_true hlow, Bool.true_or]
    · rw [emptyRoot_mapSector hm] at hx'
      omega
  · intro b hb c hc hne
    rw [List.mem_singleton] at hb hc
    exact absurd (hb.trans hc.symm) hne
  · intro b hb i _
    rw [List.mem_singleton.mp hb]
    exact ⟨0, by decide, emptyRoot_first i⟩
  · intro b hb i j _ _ _
    rw [List.mem_singleton.mp hb]
    exact emptyRoot_first j

theorem emptyRoot_free {x : ℕ} (hx : x < 4096) : emptyRoot.Free x ↔ 65 ≤ x ∧ x < 4095 := by
  unfold Volume.Free
  rw [emptyRoot_mapKept.2 x hx, blankVolume_l0Used hx, Bool.or_eq_false_iff,
    decide_eq_false_iff_not,
    decide_eq_false_iff_not]
  omega

theorem emptyRoot_accommodates (hne : name ≠ []) : emptyRoot.Accommodates [1] name 64 := by
  have hscan : scanBlock (emptyRoot.block 1) name = .empty 0 := by
    unfold scanBlock scanEntries
    exact if_pos (emptyRoot_first 0)
  refine ⟨hne,
    ?_, by decide, ⟨1, List.mem_cons_self, 0, by decide, emptyRoot_first 0⟩, by decide, ?_,
    fun x hx hfree => ?_, by decide⟩
  · have htake : [1].take walkLimit = [1] := rfl
    rw [htake, walk_cons_of_not_found (not_found_of_empty hscan)]
    rfl
  · refine ⟨0, emptyRoot_mapKept.1.groups, 65, by omega, by omega, ?_, fun x hx hx' => ?_⟩
    · decide
    · exact (emptyRoot_free (by omega)).mpr (by omega)
  · rw [emptyRoot_free (by omega)] at hfree
    omega

theorem rfsCreate_stored_iff_emptyRoot :
    (∀ (c : CreateCall) sector t, c.Proper emptyRoot.toVolume →
      c.run Env.reliable 0 emptyRoot = (some sector, t) →
      (NameStored t 0 c.name sector ↔
        c.name.length < rfsMaxName ∧ ([1].length = walkLimit → emptyRoot.HasSlot [1]))) ∧
    (∀ (c : CreateCall) t, c.Proper emptyRoot.toVolume →
      c.run Env.reliable 0 emptyRoot = (none, t) →
      ∀ b ∈ [1], t.block b = emptyRoot.block b) ∧
    ∀ t names, Creates 0 emptyRoot t names → ∀ p ∈ names, NameStored t 0 p.1 p.2 :=
  rfsCreate_stored_iff emptyRoot_directory

theorem emptyRoot_accepts (hne : name ≠ []) (hzero : (0 : Byte) ∉ name) :
    ∃ sector t, (CreateCall.directory name).run Env.reliable 0 emptyRoot = (some sector, t) := by
  have hsmall : 64 ≤ 4096 := by decide
  have hproper : (CreateCall.directory name).Proper emptyRoot.toVolume := ⟨hzero, Or.inl hsmall⟩
  have hpost := (CreateCall.directory name).run_post emptyRoot_directory rfl hproper
  rcases hrun : (CreateCall.directory name).run Env.reliable 0 emptyRoot with ⟨_ | sector, t⟩
  · exact absurd (emptyRoot_accommodates hne) (hpost.of_eq_none hrun).2
  · exact ⟨sector, t, rfl⟩

def longName : List Byte := List.replicate 128 0x61

/-- The long name is accepted, and is not stored. -/
theorem emptyRoot_longName : ∃ sector t,
    (CreateCall.directory longName).run Env.reliable 0 emptyRoot = (some sector, t) ∧
      ¬ NameStored t 0 longName sector := by
  have hne : longName ≠ [] := by decide
  have hzero : (0 : Byte) ∉ longName := by decide
  obtain ⟨sector, t, hrun⟩ := emptyRoot_accepts hne hzero
  have hproper : (CreateCall.directory longName).Proper emptyRoot.toVolume :=
    ⟨hzero, Or.inl (by decide)⟩
  obtain ⟨blocks', haccepted⟩ := CreateCall.accepted emptyRoot_directory rfl hproper hrun
  refine ⟨sector, t, hrun, fun hstored => ?_⟩
  rw [stored_iff_found haccepted.directory haccepted.dirStart hne] at hstored
  have hlong := hstored.short haccepted.directory
  unfold longName at hlong
  rw [List.length_replicate] at hlong
  exact absurd hlong (by decide)

end RetroRocket
