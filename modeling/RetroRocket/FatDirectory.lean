import RetroRocket.FatNames

/-!
# FAT32 directories

`parse_fat32_directory` of `directory.c`, without the walk over the clusters. The parser keeps the
slots of a long name by their sequence number until it meets the short entry behind them.
-/

namespace RetroRocket

namespace Fat32

def attrVolumeId : Byte := 0x08

def attrDirectory : Byte := 0x10

def attrLongName : Byte := 0x0f

def attrLfnLastEntry : Byte := 0x40

def deletedEntry : Byte := 0xe5

inductive FsError where
  | invalidArg
  | noSuchFile
  | brokenDirectory
  | directoryNotEmpty
  /-- Whatever the device set. -/
  | device
  deriving DecidableEq, Repr

/-! ## Fields of entries -/

def word (e : Entry) (i : ℕ) : BitVec 16 := e (i + 1) ++ e i

/-- `n` characters of two bytes. -/
def wideChars (e : Entry) (i n : ℕ) : List (BitVec 16) :=
  (List.range n).map fun k => word e (i + 2 * k)

namespace Entry

def attr (e : Entry) : Byte := e 11

def firstCluster (e : Entry) : ℕ := (word e 20).toNat * 2 ^ 16 + (word e 26).toNat

def size (e : Entry) : ℕ := (word e 30).toNat * 2 ^ 16 + (word e 28).toNat

/-! The fields of `lfn_t`. -/

def order (e : Entry) : Byte := e 0

def first (e : Entry) : List (BitVec 16) := wideChars e 1 5

def checksum (e : Entry) : Byte := e 13

def second (e : Entry) : List (BitVec 16) := wideChars e 14 6

def third (e : Entry) : List (BitVec 16) := wideChars e 28 2

/-- `.` and `..`. -/
def isDot (e : Entry) : Bool := e 0 = dot ∧ (e 1 = space ∨ e 1 = dot)

def index (e : Entry) : ℕ := (e.order &&& 0x1f).toNat

end Entry

/-! ## The parser -/

/-- `fs_directory_entry_t`. -/
structure FsDirectoryEntry where
  filename : List Byte
  altFilename : List Byte
  lbapos : ℕ
  isDirectory : Bool
  size : ℕ

structure Parse where
  volumeName : Option (List Byte)
  lfns : ℕ → Entry
  highestLfnOrder : ℤ
  /-- The newest first. -/
  list : List FsDirectoryEntry
  error : Option FsError

def Parse.Settled (s : Parse) : Prop := s.highestLfnOrder = -1 ∧ s.lfns = fun _ _ => 0

def Parse.reset (s : Parse) : Parse := { s with lfns := fun _ _ => 0, highestLfnOrder := -1 }

def parseShittyLfnEntry (wideChars : List (BitVec 16)) : List Byte :=
  wideChars.filterMap fun c =>
    if c ≠ 0 ∧ c ≠ 0xffff then some (if c < 0x80 then c.setWidth 8 else 0x3f) else none

def slotName (lfn : Entry) : List Byte :=
  if lfn.first.head? = some 0 ∨ lfn.first.head? = some 0xffff then []
  else parseShittyLfnEntry lfn.first ++ parseShittyLfnEntry lfn.second ++
    parseShittyLfnEntry lfn.third

def longName (lfns : ℕ → Entry) (highest : ℤ) : List Byte :=
  (List.range' 1 highest.toNat).flatMap fun i => slotName (lfns i)

/-- `memcpy(&lfns[idx], lfn, sizeof(lfn_t))`. -/
def Parse.stash (s : Parse) (e : Entry) : Parse :=
  if 0 < e.index then
    { s with
      lfns := Function.update s.lfns e.index e
      highestLfnOrder := max s.highestLfnOrder e.index }
  else s

def fileOf (filename : List Byte) (e : Entry) : FsDirectoryEntry where
  filename := filename
  altFilename := parseShortName e
  lbapos := e.firstCluster
  isDirectory := e.attr &&& attrDirectory ≠ 0
  size := e.size

def Parse.addFile (s : Parse) (e : Entry) : Parse :=
  if -1 < s.highestLfnOrder then
    { s.reset with list := fileOf (longName s.lfns s.highestLfnOrder) e :: s.list }
  else { s with list := fileOf (parseShortName e) e :: s.list }

def parseEntry (s : Parse) (e : Entry) : Parse :=
  if e 0 = deletedEntry then s
  else if e.isDot then s.reset
  else if e.attr &&& attrVolumeId ≠ 0 ∧ s.volumeName = none then
    { s.reset with volumeName := some (parseDotless e) }
  else if e.attr &&& attrLongName = attrLongName then s.stash e
  else s.addFile e

def parseEntries (s : Parse) : List Entry → Parse
  | [] => s
  | e :: entries => if e 0 = 0 then s else parseEntries (parseEntry s e) entries

variable {s : Parse} {e : Entry} {l entries : List Entry} {i : ℕ}

/-! ## Slots -/

structure Entry.IsSlot (e : Entry) : Prop where
  ne_zero : e 0 ≠ 0
  ne_deleted : e 0 ≠ deletedEntry
  notDot : e.isDot = false
  attr : e.attr = attrLongName
  index_pos : 0 < e.index

theorem parseEntry_slot (he : e.IsSlot) (hv : s.volumeName ≠ none) :
    parseEntry s e = s.stash e := by
  unfold parseEntry
  rw [if_neg he.ne_deleted, if_neg (by rw [he.notDot]; exact Bool.false_ne_true),
    if_neg fun h => hv h.2, he.attr]
  rfl

theorem parseEntry_label (he : e.IsSlot) (hv : s.volumeName = none) :
    parseEntry s e = { s.reset with volumeName := some (parseDotless e) } := by
  unfold parseEntry
  rw [if_neg he.ne_deleted, if_neg (by rw [he.notDot]; exact Bool.false_ne_true), he.attr,
    if_pos ⟨by decide, hv⟩]

@[simp] theorem stash_volumeName : (s.stash e).volumeName = s.volumeName := by
  unfold Parse.stash
  split <;> rfl

@[simp] theorem stash_list : (s.stash e).list = s.list := by
  unfold Parse.stash
  split <;> rfl

theorem stash_lfns_of_ne (h : e.index ≠ i) : (s.stash e).lfns i = s.lfns i := by
  unfold Parse.stash
  split
  · exact Function.update_of_ne h.symm _ _
  · rfl

theorem stash_lfns (he : e.IsSlot) : (s.stash e).lfns e.index = e := by
  unfold Parse.stash
  rw [if_pos he.index_pos]
  exact Function.update_self _ _ _

theorem stash_highest (he : e.IsSlot) :
    (s.stash e).highestLfnOrder = max s.highestLfnOrder e.index := by
  unfold Parse.stash
  rw [if_pos he.index_pos]

theorem parseEntries_slots (hl : ∀ e ∈ l, e.IsSlot) (hv : s.volumeName ≠ none) :
    parseEntries s (l ++ entries) = parseEntries (l.foldl Parse.stash s) entries := by
  induction l generalizing s with
  | nil => rfl
  | cons e l ih =>
    have he := hl e List.mem_cons_self
    rw [List.cons_append, parseEntries, if_neg he.ne_zero, parseEntry_slot he hv, List.foldl_cons]
    exact ih (fun x hx => hl x (List.mem_cons_of_mem e hx)) (by rwa [stash_volumeName])

theorem foldl_stash_list : (l.foldl Parse.stash s).list = s.list := by
  induction l generalizing s with
  | nil => rfl
  | cons e l ih => rw [List.foldl_cons, ih, stash_list]

theorem foldl_stash_lfns_of_ne (h : ∀ e ∈ l, e.index ≠ i) :
    (l.foldl Parse.stash s).lfns i = s.lfns i := by
  induction l generalizing s with
  | nil => rfl
  | cons e l ih =>
    rw [List.foldl_cons, ih fun x hx => h x (List.mem_cons_of_mem e hx)]
    exact stash_lfns_of_ne (h e List.mem_cons_self)

theorem foldl_stash_lfns (hl : ∀ e ∈ l, e.IsSlot) (hnodup : (l.map Entry.index).Nodup)
    (he : e ∈ l) : (l.foldl Parse.stash s).lfns e.index = e := by
  induction l generalizing s with
  | nil => cases he
  | cons x l ih =>
    obtain ⟨hx, hnodup'⟩ := List.nodup_cons.mp hnodup
    have hl' : ∀ e ∈ l, e.IsSlot := fun y hy => hl y (List.mem_cons_of_mem x hy)
    rw [List.foldl_cons]
    rcases List.mem_cons.mp he with rfl | he
    · have hother : ∀ y ∈ l, y.index ≠ e.index := by
        intro y hy heq
        exact hx (heq ▸ List.mem_map_of_mem hy)
      rw [foldl_stash_lfns_of_ne hother, stash_lfns (hl e List.mem_cons_self)]
    · exact ih hl' hnodup' he

theorem foldl_stash_highest_le (hl : ∀ e ∈ l, e.IsSlot) (n : ℤ) :
    (l.foldl Parse.stash s).highestLfnOrder ≤ n ↔
      s.highestLfnOrder ≤ n ∧ ∀ e ∈ l, (e.index : ℤ) ≤ n := by
  induction l generalizing s with
  | nil => simp
  | cons x l ih =>
    rw [List.foldl_cons, ih fun y hy => hl y (List.mem_cons_of_mem x hy),
      stash_highest (hl x List.mem_cons_self), max_le_iff, List.forall_mem_cons, and_assoc]

/-! ## Short entries -/

structure Entry.IsShort (e : Entry) : Prop where
  ne_zero : e 0 ≠ 0
  ne_deleted : e 0 ≠ deletedEntry
  ne_dot : e 0 ≠ dot
  notLabel : e.attr &&& attrVolumeId = 0

theorem parseEntry_short (he : e.IsShort) : parseEntry s e = s.addFile e := by
  have hdot : ¬ e.isDot = true := by
    intro h
    exact he.ne_dot (of_decide_eq_true h).1
  have hlong : e.attr &&& attrLongName ≠ attrLongName := by
    have hlabel := he.notLabel
    generalize e.attr = a at hlabel ⊢
    revert hlabel
    revert a
    decide
  unfold parseEntry
  rw [if_neg he.ne_deleted, if_neg hdot, if_neg fun h => h.1 he.notLabel, if_neg hlong]

theorem addFile_list (s : Parse) (e : Entry) : (s.addFile e).list = fileOf
    (if -1 < s.highestLfnOrder then longName s.lfns s.highestLfnOrder else parseShortName e) e ::
      s.list := by
  unfold Parse.addFile
  split <;> rfl

end Fat32

end RetroRocket
