import RetroRocket.RfsDirectory

/-!
# What the walks over a RetroFS directory find

A directory is described by the list of its blocks. On a device that serves every request a walk
finds what `Volume.walk` finds in that list, and an entry that is put into a block is the first one
to be found.
-/

namespace RetroRocket

open RetroRocket.Action

attribute [local irreducible] Action.Post

/-! ## Fields -/

theorem load64_store64 {off value : ℕ} (f : Buffer) (h : value < 2 ^ 64) :
    load64 (store64 off value f) off = value :=
  (leValue_storeValue fun _ _ _ => rfl).trans (Nat.mod_eq_of_lt h)

theorem store64_of_ne {off value i : ℕ} {f : Buffer} (h : i < off ∨ off + 8 ≤ i) :
    store64 off value f i = f i := storeValue_of_ne h

theorem load64_store64_of_ne {off off' value : ℕ} {f : Buffer}
    (h : off' + 8 ≤ off ∨ off + 8 ≤ off') :
    load64 (store64 off value f) off' = load64 f off' :=
  leValue_congr_of_mem fun _ hi hi' => store64_of_ne (by omega)

/-! ## Blocks -/

namespace Volume

variable {v t : Volume} {b c k : ℕ} {l : List ℕ} {name : List Byte}

def block (v : Volume) (b : ℕ) : Buffer := v.sectors b rfsDirBytes

theorem block_apply (hb : b + 64 ≤ v.totalSectors) (hk : k < rfsDirBytes) :
    v.block b k = v.bytes (512 * b + k) := by
  have ht := v.totalSectors_lt
  have hk' : k < 512 * 64 := hk
  exact v.sectors_apply hk (by omega)

theorem block_of_ge (hk : rfsDirBytes ≤ k) : v.block b k = 0 := if_neg (not_lt.mpr hk)

theorem block_congr (hb : b + 64 ≤ v.totalSectors) (ht : t.totalSectors = v.totalSectors)
    (h : ∀ a, b ≤ a / 512 → a / 512 < b + 64 → t.bytes a = v.bytes a) : t.block b = v.block b := by
  funext k
  by_cases hk : k < rfsDirBytes
  · have hk' : k < 512 * 64 := hk
    rw [block_apply hb hk, block_apply (by rwa [ht]) hk]
    exact h _ (by omega) (by omega)
  · rw [block_of_ge (not_lt.mp hk), block_of_ge (not_lt.mp hk)]

theorem block_store (hb : b + 64 ≤ v.totalSectors) (data : Buffer)
    (hdata : ∀ k, rfsDirBytes ≤ k → data k = 0) : (v.store b rfsDirBytes data).block b = data := by
  have ht := v.totalSectors_lt
  have hb' : b + 64 ≤ (v.store b rfsDirBytes data).totalSectors := hb
  funext k
  by_cases hk : k < rfsDirBytes
  · rw [block_apply hb' hk,
      v.store_bytes data _ (by decide) (by unfold rfsDirBytes; omega), if_pos (by omega),
      Nat.add_sub_cancel_left]
  · rw [block_of_ge (not_lt.mp hk), hdata k (not_lt.mp hk)]

theorem block_store_of_ne (hb : b + 64 ≤ v.totalSectors) (hc : c + 64 ≤ v.totalSectors)
    (h : b + 64 ≤ c ∨ c + 64 ≤ b) (data : Buffer) :
    (v.store b rfsDirBytes data).block c = v.block c := by
  have ht := v.totalSectors_lt
  refine block_congr hc rfl fun a ha ha' => ?_
  rw [v.store_bytes data _
    (by decide) (by unfold rfsDirBytes; omega), if_neg (by unfold rfsDirBytes; omega)]

structure IsBlock (v : Volume) (b : ℕ) : Prop where
  ne_zero : b ≠ 0
  inVolume : b + 64 ≤ v.totalSectors
  start : startOk (v.block b) = true

inductive DirChain (v : Volume) : ℕ → List ℕ → Prop
  | last {b : ℕ} (hb : v.IsBlock b) (hend : continuation (v.block b) = 0) : DirChain v b [b]
  | next {b : ℕ} {l : List ℕ} (hb : v.IsBlock b) (hnext : continuation (v.block b) ≠ 0)
      (hl : DirChain v (continuation (v.block b)) l) : DirChain v b (b :: l)

def walk (v : Volume) (name : List Byte) : List ℕ → Option (ℕ × ℕ × Buffer)
  | [] => none
  | b :: l =>
    match scanBlock (v.block b) name with
    | .found i => some (b, i, dirEntry (v.block b) i)
    | _ => v.walk name l

def place (v : Volume) (name : List Byte) : List ℕ → EntryPlace → EntryPlace
  | [], slot => slot
  | b :: l, slot =>
    match scanBlock (v.block b) name with
    | .found i => .existing b i (v.block b)
    | .empty i =>
      v.place name l
        (match slot with
        | .none => .emptySlot b i
        | slot => slot)
    | .full => v.place name l slot

theorem DirChain.isBlock (h : v.DirChain c l) : ∀ b ∈ l, v.IsBlock b := by
  induction h with
  | last hb _ => exact fun b hmem => List.mem_singleton.mp hmem ▸ hb
  | next hb _ _ ih => exact List.forall_mem_cons.mpr ⟨hb, ih⟩

theorem DirChain.head_mem (h : v.DirChain c l) : c ∈ l := by
  cases h <;> exact List.mem_cons_self

theorem DirChain.head_ne_zero (h : v.DirChain c l) : c ≠ 0 := (h.isBlock c h.head_mem).ne_zero

end Volume

/-! ## Walks -/

variable {v : Rfs} {b c fuel : ℕ} {l : List ℕ} {name : List Byte}

theorem rfsReadDevice_reliable {start size : ℕ} (h : v.InRange start size) :
    Post (rfsReadDevice Env.reliable start size) v
      (fun buf t => buf = v.sectors start size ∧ t.toVolume = v.toVolume) (fun _ => False) := by
  refine (rfsReadDevice_post Env.reliable start size v).mono (fun buf t ht => ht.2) (fun t ht => ?_)
  obtain ⟨n, hn⟩ := ht.2 h
  cases hn

theorem rfsWriteDevice_reliable {start size : ℕ} (data : Buffer) (h : v.InRange start size) :
    Post (rfsWriteDevice Env.reliable start size data) v
      (fun _ t => t.toVolume = v.toVolume.store start size data) (fun _ => False) := by
  refine (rfsWriteDevice_post Env.reliable start size data v).mono (fun _ t ht => ht.2)
    (fun t ht => ?_)
  obtain ⟨n, hn⟩ := ht.2 h
  cases hn

theorem inRange_block (hb : b + 64 ≤ v.totalSectors) : v.InRange b rfsDirBytes :=
  Volume.inRange_of_le (by decide) hb

theorem readBlock_post (hb : b + 64 ≤ v.totalSectors) :
    Post (rfsReadDevice Env.reliable b rfsDirBytes) v
      (fun block t => block = v.block b ∧ t.toVolume = v.toVolume) (fun _ => False) :=
  rfsReadDevice_reliable (inRange_block hb)

theorem walk_cons_of_not_found {v : Volume} (h : ∀ i, scanBlock (v.block b) name ≠ .found i) :
    v.walk name (b :: l) = v.walk name l := by
  rw [Volume.walk]
  cases hscan : scanBlock (v.block b) name with
  | found i => exact absurd hscan (h i)
  | empty i => rfl
  | full => rfl

theorem not_found_of_empty {block : Buffer} {i : ℕ} (h : scanBlock block name = .empty i) (j : ℕ) :
    scanBlock block name ≠ .found j := by
  rw [h]
  exact Scan.noConfusion

theorem not_found_of_full {block : Buffer} (h : scanBlock block name = .full) (j : ℕ) :
    scanBlock block name ≠ .found j := by
  rw [h]
  exact Scan.noConfusion

theorem locateWalk_post (h : v.DirChain c l) :
    Post (locateWalk Env.reliable name fuel c) v
      (fun r t => t.toVolume = v.toVolume ∧ r = v.walk name (l.take fuel)) (fun _ => False) := by
  induction fuel generalizing v c l with
  | zero =>
    unfold locateWalk
    rw [if_neg h.head_ne_zero, post_bind, post_fsSetError, post_pure]
    exact ⟨rfl, rfl⟩
  | succ fuel ih =>
    have hblock := h.isBlock c h.head_mem
    have hstart : ¬ startOk (v.block c) = false := by
      rw [hblock.start]
      decide
    unfold locateWalk
    rw [if_neg hblock.ne_zero, post_bind, post_attempt]
    refine (readBlock_post hblock.inVolume).mono (fun block t ht => ?_) (fun _ h => h.elim)
    obtain ⟨rfl, ht⟩ := ht
    dsimp only
    rw [if_neg hstart]
    -- the walk goes on behind a block without the name
    have hgo : (∀ i, scanBlock (v.block c) name ≠ .found i) →
        Post (if continuation (v.block c) = 0 then pure none
          else locateWalk Env.reliable name fuel (continuation (v.block c))) t
          (fun r t' => t'.toVolume = v.toVolume ∧ r = v.walk name (l.take (fuel + 1)))
          (fun _ => False) := by
      intro hnot
      cases h with
      | last _ hend =>
        rw [if_pos hend, post_pure, List.take_succ_cons, walk_cons_of_not_found hnot, List.take_nil]
        exact ⟨ht, rfl⟩
      | next _ hnext hl =>
        rw [if_neg hnext, List.take_succ_cons, walk_cons_of_not_found hnot, ← ht]
        rw [← ht] at hl
        exact ih hl
    cases hscan : scanBlock (v.block c) name with
    | found i =>
      have hl : l.take (fuel + 1) = c :: (l.tail.take fuel) := by
        cases h <;> rfl
      dsimp only
      rw [post_pure, hl, Volume.walk, hscan]
      exact ⟨ht, rfl⟩
    | empty i =>
      dsimp only
      exact hgo (not_found_of_empty hscan)
    | full =>
      dsimp only
      exact hgo (not_found_of_full hscan)

/-- On a directory without the name, the walk of `rfs_upsert_directory_entry` finds the place for
it, if the blocks are not too many. -/
theorem upsertWalk_post {slot : EntryPlace} (h : v.DirChain c l) :
    Post (upsertWalk Env.reliable name fuel c slot) v
      (fun r t => t.toVolume = v.toVolume ∧
        (v.walk name (l.take fuel) = none → l.length ≤ fuel ∧ r = v.place name l slot))
      (fun t => t.toVolume = v.toVolume ∧ fuel < l.length) := by
  induction fuel generalizing v c l slot with
  | zero =>
    unfold upsertWalk
    rw [if_neg h.head_ne_zero, post_failWith]
    exact ⟨rfl, List.length_pos_of_mem h.head_mem⟩
  | succ fuel ih =>
    have hblock := h.isBlock c h.head_mem
    have hstart : ¬ startOk (v.block c) = false := by
      rw [hblock.start]
      decide
    unfold upsertWalk
    rw [if_neg hblock.ne_zero, post_bind]
    refine (readBlock_post hblock.inVolume).mono (fun block t ht => ?_) (fun _ h => h.elim)
    obtain ⟨rfl, ht⟩ := ht
    rw [if_neg hstart]
    have hgo : (∀ i, scanBlock (v.block c) name ≠ .found i) → ∀ slot',
        v.place name l slot = v.place name l.tail slot' →
        Post (if continuation (v.block c) = 0 then pure slot'
          else upsertWalk Env.reliable name fuel (continuation (v.block c)) slot') t
          (fun r t' => t'.toVolume = v.toVolume ∧
            (v.walk name (l.take (fuel + 1)) = none →
              l.length ≤ fuel + 1 ∧ r = v.place name l slot))
          (fun t' => t'.toVolume = v.toVolume ∧ fuel + 1 < l.length) := by
      intro hnot slot' hslot
      rw [hslot]
      cases h with
      | last _ hend =>
        rw [if_pos hend, post_pure]
        exact ⟨ht, fun _ => ⟨Nat.le_add_left 1 fuel, rfl⟩⟩
      | next _ hnext hl =>
        rw [if_neg hnext, List.take_succ_cons, walk_cons_of_not_found hnot, ← ht]
        rw [← ht] at hl
        refine (ih hl).mono (fun r t' h => ⟨h.1, fun hw => ?_⟩) fun t' h => ⟨h.1, ?_⟩
        · obtain ⟨hlen, hr⟩ := h.2 hw
          exact ⟨Nat.succ_le_succ hlen, hr⟩
        · exact Nat.succ_lt_succ h.2
    have hl : l = c :: l.tail := by
      cases h <;> rfl
    cases hscan : scanBlock (v.block c) name with
    | found i =>
      dsimp only
      rw [post_pure, hl, List.take_succ_cons, Volume.walk, hscan]
      exact ⟨ht, fun h => absurd h (Option.some_ne_none _)⟩
    | empty i =>
      dsimp only
      refine hgo (not_found_of_empty hscan) _ ?_
      rw [hl, List.tail_cons]
      cases slot <;> simp only [Volume.place, hscan]
    | full =>
      dsimp only
      refine hgo (not_found_of_full hscan) _ ?_
      rw [hl, Volume.place, hscan, List.tail_cons]

theorem lastBlock_post (h : v.DirChain c l) (hfuel : l.length ≤ fuel) :
    Post (lastBlock Env.reliable fuel c) v
      (fun r t => t.toVolume = v.toVolume ∧ ∃ l' b, l = l' ++ [b] ∧ r = (b, v.block b))
      (fun _ => False) := by
  induction fuel generalizing v c l with
  | zero => exact absurd (List.length_pos_of_mem h.head_mem) (by omega)
  | succ fuel ih =>
    have hblock := h.isBlock c h.head_mem
    unfold lastBlock
    rw [post_bind]
    refine (readBlock_post hblock.inVolume).mono (fun block t ht => ?_) (fun _ h => h.elim)
    obtain ⟨rfl, ht⟩ := ht
    cases h with
    | last _ hend =>
      rw [if_pos hend, post_pure]
      exact ⟨ht, [], c, rfl, rfl⟩
    | @next _ l _ hnext hl =>
      rw [if_neg hnext, ← ht]
      rw [← ht] at hl
      have hlen : l.length ≤ fuel := Nat.le_of_succ_le_succ hfuel
      refine (ih hl hlen).mono (fun r t' h => ?_) (fun _ h => h)
      obtain ⟨ht', l', b, rfl, hr⟩ := h
      exact ⟨ht', c :: l', b, rfl, hr⟩

/-! ## Scans -/

variable {block : Buffer} {i j n : ℕ}

def Passed (block : Buffer) (name : List Byte) (j : ℕ) : Prop :=
  entryName (dirEntry block j) 0 ≠ 0 ∧ strcasecmp (entryName (dirEntry block j)) name = false

theorem scanEntries_full (h : scanEntries block name n i = .full) (hj : i ≤ j) (hj' : j < i + n) :
    Passed block name j := by
  induction n generalizing i with
  | zero => omega
  | succ n ih =>
    unfold scanEntries at h
    split at h
    · cases h
    · next hne =>
      split at h
      · cases h
      · next hcmp =>
        by_cases heq : j = i
        · rw [heq]
          exact ⟨hne, Bool.eq_false_of_not_eq_true hcmp⟩
        · exact ih h (by omega) (by omega)

theorem scanEntries_empty (h : scanEntries block name n i = .empty j) :
    j < i + n ∧ entryName (dirEntry block j) 0 = 0 ∧ ∀ k, i ≤ k → k < j → Passed block name k := by
  induction n generalizing i with
  | zero => cases h
  | succ n ih =>
    unfold scanEntries at h
    split at h
    · next hzero =>
      cases h
      exact ⟨by omega, hzero, fun k hk hk' => absurd hk' (not_lt.mpr hk)⟩
    · next hne =>
      split at h
      · cases h
      · next hcmp =>
        obtain ⟨hj, hzero, hpassed⟩ := ih h
        refine ⟨by omega, hzero, fun k hk hk' => ?_⟩
        by_cases heq : k = i
        · rw [heq]
          exact ⟨hne, Bool.eq_false_of_not_eq_true hcmp⟩
        · exact hpassed k (by omega) hk'

theorem scanEntries_of_passed (hpassed : ∀ k, i ≤ k → k < j → Passed block name k) (hj : i ≤ j)
    (hj' : j < i + n) (hne : entryName (dirEntry block j) 0 ≠ 0)
    (hcmp : strcasecmp (entryName (dirEntry block j)) name = true) :
    scanEntries block name n i = .found j := by
  induction n generalizing i with
  | zero => omega
  | succ n ih =>
    unfold scanEntries
    by_cases heq : j = i
    · rw [← heq, if_neg hne, if_pos hcmp]
    · obtain ⟨hne', hcmp'⟩ := hpassed i le_rfl (by omega)
      rw [if_neg hne', if_neg (by rw [hcmp']; exact Bool.false_ne_true)]
      exact ih (fun k hk hk' => hpassed k (by omega) hk') (by omega) (by omega)

theorem scanBlock_ne_found (h : ∀ j < entriesPerBlock,
    strcasecmp (entryName (dirEntry block j)) name = false) (j : ℕ) :
    scanBlock block name ≠ .found j := by
  have hscan : ∀ n i, i + n ≤ entriesPerBlock → scanEntries block name n i ≠ .found j := by
    intro n
    induction n with
    | zero => exact fun i _ => Scan.noConfusion
    | succ n ih =>
      intro i hi
      unfold scanEntries
      split
      · exact Scan.noConfusion
      · rw [if_neg (by rw [h i (by omega)]; exact Bool.false_ne_true)]
        exact ih (i + 1) (by omega)
  exact hscan _ 0 (by omega)

/-! ## Places -/

theorem place_slot {s : ℕ} (h : v.walk name l = none) :
    v.place name l (.emptySlot s i) = .emptySlot s i := by
  induction l with
  | nil => rfl
  | cons b l ih =>
    rw [Volume.walk] at h
    rw [Volume.place]
    split at h
    · cases h
    · next hnot =>
      cases hscan : scanBlock (v.block b) name with
      | found i => exact absurd hscan (hnot i)
      | empty i => exact ih h
      | full => exact ih h

theorem place_cases (h : v.walk name l = none) :
    (v.place name l .none = .none ∧ ∀ b ∈ l, scanBlock (v.block b) name = .full) ∨
      ∃ l₁ b i l₂, l = l₁ ++ b :: l₂ ∧ v.place name l .none = .emptySlot b i ∧
        (∀ c ∈ l₁, scanBlock (v.block c) name = .full) ∧ scanBlock (v.block b) name = .empty i := by
  induction l with
  | nil => exact Or.inl ⟨rfl, fun _ h => by cases h⟩
  | cons b l ih =>
    rw [Volume.walk] at h
    rw [Volume.place]
    split at h
    · cases h
    · next hnot =>
      cases hscan : scanBlock (v.block b) name with
      | found i => exact absurd hscan (hnot i)
      | empty i => exact Or.inr ⟨[], b, i, l, rfl, place_slot h, fun _ h => (by cases h), hscan⟩
      | full =>
        rcases ih h with ⟨hplace, hfull⟩ | ⟨l₁, c, i, l₂, rfl, hplace, hfull, hempty⟩
        · exact Or.inl ⟨hplace, List.forall_mem_cons.mpr ⟨hscan, hfull⟩⟩
        · exact Or.inr ⟨b :: l₁, c, i, l₂, rfl, hplace,
            List.forall_mem_cons.mpr ⟨hscan, hfull⟩, hempty⟩

theorem walk_append {t : Volume} {l₁ l₂ : List ℕ}
    (h : ∀ c ∈ l₁, ∀ i, scanBlock (t.block c) name ≠ .found i) :
    t.walk name (l₁ ++ l₂) = t.walk name l₂ := by
  induction l₁ with
  | nil => rfl
  | cons c l₁ ih =>
    rw [List.forall_mem_cons] at h
    rw [List.cons_append, walk_cons_of_not_found h.1, ih h.2]

/-! ## Entries -/

variable {e : Buffer} {k : ℕ} {file : FileInfo} {sectorExtent : ℕ}

theorem dirEntry_putEntry (hk : k < 256) : dirEntry (putEntry block i e) i k = e k := by
  unfold dirEntry putEntry
  rw [if_pos (by omega), Nat.add_sub_cancel_left]

theorem dirEntry_putEntry_of_ne (hj : j ≠ i) (hk : k < 256) :
    dirEntry (putEntry block i e) j k = dirEntry block j k := by
  unfold dirEntry putEntry
  rw [if_neg]
  rintro ⟨h, h'⟩
  rcases Nat.lt_or_gt_of_ne hj with hlt | hlt <;> omega

theorem putEntry_of_lt (hk : k < 256) : putEntry block i e k = block k := by
  unfold putEntry
  rw [if_neg (by omega)]

theorem strcasecmp_entry_congr {e' : Buffer} (hlen : name.length < rfsMaxName)
    (h : ∀ k < 256, e k = e' k) :
    strcasecmp (entryName e) name = strcasecmp (entryName e') name := by
  have hlen' : name.length < 128 := hlen
  exact strcasecmp_congr fun k hk => h (4 + k) (by omega)

def NameEnds (e : Buffer) : Prop := ∃ k < rfsMaxName, entryName e k = 0

theorem NameEnds.not_long (h : NameEnds e) (hlen : rfsMaxName ≤ name.length) :
    strcasecmp (entryName e) name = false := by
  obtain ⟨k, hk, hzero⟩ := h
  rw [Bool.eq_false_iff]
  exact fun hcmp => strcasecmp_ne_zero hcmp (hk.trans_le hlen) hzero

theorem NameEnds.congr {e' : Buffer} (h : NameEnds e) (he : ∀ k < 256, e' k = e k) :
    NameEnds e' := by
  obtain ⟨k, hk, hzero⟩ := h
  have hk' : k < 128 := hk
  exact ⟨k, hk, (he (4 + k) (by omega)).trans hzero⟩

theorem newEntry_name (hk : k < rfsMaxName) : entryName (newEntry file sectorExtent e) k =
    strlcpy 4 rfsMaxName file.filename e (4 + k) := by
  have hk' : k < 128 := hk
  unfold entryName newEntry putFlags putFields
  rw [if_neg (by omega), if_neg (by omega), store64_of_ne (by omega), store64_of_ne (by omega),
    store64_of_ne (by omega)]

theorem newEntry_ends : NameEnds (newEntry file sectorExtent e) := by
  have hlt : min file.filename.length (rfsMaxName - 1) < rfsMaxName :=
    (min_le_right _ _).trans_lt (by decide)
  refine ⟨_, hlt, ?_⟩
  rw [newEntry_name hlt]
  unfold strlcpy
  rw [if_neg (by omega), if_pos rfl]

theorem newEntry_string (hlen : file.filename.length < rfsMaxName) :
    (∀ i < file.filename.length,
      entryName (newEntry file sectorExtent e) i = file.filename.getD i 0) ∧
      entryName (newEntry file sectorExtent e) file.filename.length = 0 := by
  have hmin : min file.filename.length (rfsMaxName - 1) = file.filename.length :=
    min_eq_left (Nat.le_pred_of_lt hlen)
  constructor
  · intro i hi
    rw [newEntry_name (hi.trans hlen)]
    unfold strlcpy
    rw [hmin, if_pos (by omega), Nat.add_sub_cancel_left]
  · rw [newEntry_name hlen]
    unfold strlcpy
    rw [hmin, if_neg (by omega), if_pos rfl]

theorem newEntry_strcasecmp (hlen : file.filename.length < rfsMaxName)
    (hzero : (0 : Byte) ∉ file.filename) :
    strcasecmp (entryName (newEntry file sectorExtent e)) file.filename = true := by
  obtain ⟨hname, hend⟩ := @newEntry_string e file sectorExtent hlen
  exact strcasecmp_self hname hend hzero

theorem newEntry_sectorStart (h : file.lbapos < 2 ^ 64) :
    entrySectorStart (newEntry file sectorExtent e) = file.lbapos := by
  have hflags : entrySectorStart (newEntry file sectorExtent e) =
      load64 (putFields file sectorExtent e) 132 := by
    refine leValue_congr_of_mem fun i hi _ => ?_
    unfold newEntry putFlags
    rw [if_neg (by omega), if_neg (by omega)]
  rw [hflags]
  unfold putFields
  rw [load64_store64_of_ne (Or.inl (by decide)), load64_store64_of_ne (Or.inl (by decide)),
    load64_store64 _ h]

theorem scanBlock_putEntry (hi : i < entriesPerBlock) (hne : file.filename ≠ [])
    (hlen : file.filename.length < rfsMaxName) (hzero : (0 : Byte) ∉ file.filename)
    (hpassed : ∀ k < i, Passed block file.filename k) :
    scanBlock (putEntry block i (newEntry file sectorExtent e)) file.filename = .found i := by
  have hcmp : strcasecmp (entryName (dirEntry (putEntry block i (newEntry file sectorExtent e)) i))
      file.filename = true := by
    rw [strcasecmp_entry_congr hlen fun k hk => dirEntry_putEntry hk]
    exact newEntry_strcasecmp hlen hzero
  refine scanEntries_of_passed (fun k _ hk => ?_) (Nat.zero_le i) (by omega) ?_ hcmp
  · obtain ⟨hfirst, hother⟩ := hpassed k hk
    constructor
    · unfold entryName
      rwa [dirEntry_putEntry_of_ne (Nat.ne_of_lt hk) (by decide)]
    · rwa [strcasecmp_entry_congr hlen fun j hj => dirEntry_putEntry_of_ne (Nat.ne_of_lt hk) hj]
  · exact strcasecmp_ne_zero hcmp (List.length_pos_iff.mpr hne)

/-! ## Start entries -/

theorem startOk_congr {block' : Buffer} (h : ∀ k < 148, block' k = block k) :
    startOk block' = startOk block := by
  have hload : load64 block' 140 = load64 block 140 := leValue_congr_of_mem fun k _ hk => h k hk
  unfold startOk
  rw [h 0 (by decide), hload]

theorem continuation_congr {block' : Buffer} (h : ∀ k < 256, block' k = block k) :
    continuation block' = continuation block :=
  leValue_congr_of_mem fun k _ hk => h k (by omega)

namespace Volume

variable {v t : Volume} {b c new : ℕ} {l : List ℕ}

theorem DirChain.congr (h : v.DirChain c l) (htotal : t.totalSectors = v.totalSectors)
    (hsame : ∀ b ∈ l, ∀ k < 256, t.block b k = v.block b k) : t.DirChain c l := by
  have hblock : ∀ b ∈ l, v.IsBlock b → t.IsBlock b := fun b hb h =>
    ⟨h.ne_zero, by rw [htotal]; exact h.inVolume,
      (startOk_congr fun k hk => hsame b hb k (by omega)).trans h.start⟩
  induction h with
  | @last b hb hend =>
    refine DirChain.last (hblock b List.mem_cons_self hb) ?_
    rw [continuation_congr (hsame b List.mem_cons_self), hend]
  | @next b l hb hnext hl ih =>
    have hcont := continuation_congr (hsame b List.mem_cons_self)
    refine DirChain.next (hblock b List.mem_cons_self hb) (by rwa [hcont]) ?_
    rw [hcont]
    exact ih (fun c hc => hsame c (List.mem_cons_of_mem b hc))
      fun c hc => hblock c (List.mem_cons_of_mem b hc)

theorem DirChain.snoc (h : v.DirChain c (l ++ [b])) (htotal : t.totalSectors = v.totalSectors)
    (hsame : ∀ x ∈ l, ∀ k < 256, t.block x k = v.block x k)
    (hlast : ∀ k < 148, t.block b k = v.block b k) (hcont : continuation (t.block b) = new)
    (hnew : t.IsBlock new) (hend : continuation (t.block new) = 0) :
    t.DirChain c (l ++ [b] ++ [new]) := by
  induction l generalizing c with
  | nil =>
    have hb := h.isBlock b List.mem_cons_self
    cases h with
    | last _ _ =>
      refine DirChain.next ⟨hb.ne_zero, by rw [htotal]; exact hb.inVolume,
        (startOk_congr hlast).trans hb.start⟩ ?_ ?_
      · rw [hcont]
        exact hnew.ne_zero
      · rw [hcont]
        exact DirChain.last hnew hend
    | next _ _ hl => cases hl
  | cons x l ih =>
    have hx := h.isBlock x List.mem_cons_self
    have hstart := startOk_congr (fun k hk => hsame x List.mem_cons_self k (by omega))
    have hcontx := continuation_congr (hsame x List.mem_cons_self)
    rw [List.cons_append] at h
    generalize hrest : l ++ [b] = rest at h
    cases h with
    | last _ _ => simp at hrest
    | next _ hnext hl =>
      rw [← hrest] at hl
      refine DirChain.next
        ⟨hx.ne_zero, by rw [htotal]; exact hx.inVolume, hstart.trans hx.start⟩ ?_ ?_
      · rwa [hcontx]
      · rw [hcontx]
        exact ih hl fun y hy => hsame y (List.mem_cons_of_mem x hy)

end Volume

end RetroRocket
