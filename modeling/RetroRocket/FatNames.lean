import Mathlib.Data.List.TakeWhile
import RetroRocket.Bits

/-!
# Short names of FAT32 entries

`make_short` and `parse_short_name` of `lfn.c`. An entry is the memory from its first byte on. A
name lies in the memory `mem`, which ends where a read would fault; the number of bytes read from it
is part of the result. What `make_short` compares its candidates with is the name that
`parse_short_name` made of an existing entry, with a dot in it, so no candidate ever clashes.
-/

namespace RetroRocket

namespace Fat32

/-- `directory_entry_t`, as the memory from its first byte on. -/
abbrev Entry := Buffer

/-! ## Strings -/

/-- The bytes before the first NUL, `n` of them at most. -/
def cString (f : Buffer) : ℕ → List Byte
  | 0 => []
  | n + 1 => if f 0 = 0 then [] else f 0 :: cString (fun i => f (i + 1)) n

def isdigit (x : Byte) : Bool := 0x30 ≤ x.toNat ∧ x.toNat ≤ 0x39

def isalpha (x : Byte) : Bool := 0x61 ≤ (x ||| 0x20).toNat ∧ (x ||| 0x20).toNat ≤ 0x7a

def isalnum (x : Byte) : Bool := isdigit x || isalpha x

def toupper (low : Byte) : Byte := if 0x61 ≤ low.toNat ∧ low.toNat ≤ 0x7a then low - 32 else low

def space : Byte := 0x20

def dot : Byte := 0x2e

def tilde : Byte := 0x7e

/-! ## `parse_short_name` -/

/-- The name with a dot. What is copied from the extension on goes on behind its three bytes when
there is no NUL. -/
def parseShortName (entry : Entry) : List Byte :=
  let name := (cString entry 8).takeWhile (· ≠ space)
  let name := name ++ [dot]
  let name := name ++ cString (fun i => entry (8 + i)) (12 - name.length)
  let name := name.takeWhile (· ≠ space)
  if name.getLast? = some dot then name.dropLast else name

def parseDotless (entry : Entry) : List Byte := (cString entry 11).takeWhile (· ≠ space)

/-! ## `make_short` -/

/-- `while (!isalnum(long_name[x])) x++`: the letter, the bytes read and the memory behind it. -/
def nextAlnum : List Byte → Option (Byte × ℕ × List Byte)
  | [] => none
  | c :: mem =>
    if isalnum c then some (c, 1, mem)
    else (nextAlnum mem).map fun (letter, read, rest) => (letter, read + 1, rest)

/-- The first `n` letters and digits in upper case, and the bytes read. -/
def firstAlnums : ℕ → List Byte → Option (List Byte × ℕ)
  | 0, _ => some ([], 0)
  | n + 1, mem => do
    let (letter, read, mem) ← nextAlnum mem
    let (letters, read') ← firstAlnums n mem
    some (toupper letter :: letters, read + read')

/-- `!memcmp(alt_filename, name, 11)`. -/
def clashes (alt : Buffer) (name : List Byte) : Bool :=
  (List.range 11).all fun i => alt i = name.getD i 0

def candidate (letters : List Byte) (endNumber : ℕ) (behind : Byte) : List Byte :=
  letters ++ [tilde, BitVec.ofNat 8 (endNumber / 10 + 0x30), BitVec.ofNat 8 (endNumber % 10 + 0x30),
    behind, space]

/-- The loop over the numbers. `none` when it does not end. -/
def tryNumbers (letters : List Byte) (current : List Buffer) : ℕ → ℕ → Option (List Byte)
  | 0, _ => none
  | fuel + 1, endNumber =>
    let matching := current.countP fun e => clashes e (candidate letters endNumber 0)
    if 99 < endNumber + matching then some (candidate letters endNumber 0)
    else if matching = 0 then some (candidate letters endNumber space)
    else tryNumbers letters current fuel (endNumber + matching)

/-- `make_short`: the name of eleven bytes, and the number of bytes read from `mem`. -/
def makeShort (mem : List Byte) (current : List Buffer) : Option (List Byte × ℕ) := do
  let (letters, read) ← firstAlnums 6 mem
  let name ← tryNumbers letters current 100 1
  some (name, read)

/-! ## Directories -/

/-- What `strdup` makes of a string, with `behind` in the memory after it. -/
def strdup (s : List Byte) (behind : Buffer) : Buffer :=
  fun i => if i < s.length then s.getD i 0 else if i = s.length then 0 else behind i

structure Existing where
  entry : Entry
  behind : Buffer

def Existing.altFilename (e : Existing) : Buffer := strdup (parseShortName e.entry) e.behind

def Existing.name (e : Existing) : List Byte := (List.range 11).map e.entry

def legalChar (c : Byte) : Bool :=
  (0x41 ≤ c.toNat ∧ c.toNat ≤ 0x5a) ∨ isdigit c ∨
    c.toNat ∈ [0x21, 0x23, 0x24, 0x25, 0x26, 0x27, 0x28, 0x29, 0x2d, 0x40, 0x5e, 0x5f,
      0x60, 0x7b, 0x7d,
      0x7e]

def padded (field : List Byte) : Bool :=
  (field.dropWhile fun c => legalChar c).all fun c => c = space

def Legal (name : List Byte) : Prop :=
  name.length = 11 ∧ padded (name.take 8) ∧ padded (name.drop 8) ∧ name.head? ≠ some space

/-- What is expected of `make_short`: it ends, it reads the name and its NUL at most, and it makes a
legal name that no entry of the directory has. -/
def ShortNameRight (name behind : List Byte) (existing : List Existing) : Prop :=
  ∃ short read,
    makeShort (name ++ 0 :: behind) (existing.map Existing.altFilename) = some (short, read) ∧
    read ≤ name.length + 1 ∧ Legal short ∧ ∀ e ∈ existing, e.name ≠ short

variable {mem mem' letters name behind : List Byte} {c : Byte} {n read endNumber fuel : ℕ}
  {existing : List Existing}

/-! ## Letters and digits -/

theorem nextAlnum_append (h : nextAlnum mem = some (c, read, letters)) (rest : List Byte) :
    nextAlnum (mem ++ rest) = some (c, read, letters ++ rest) := by
  induction mem generalizing read with
  | nil => cases h
  | cons x mem ih =>
    unfold nextAlnum at h
    rw [List.cons_append]
    unfold nextAlnum
    split at h
    · next hx =>
      cases h
      rw [if_pos hx]
    · next hx =>
      obtain ⟨⟨l, r, m⟩, hnext, heq⟩ := Option.map_eq_some_iff.mp h
      cases heq
      rw [if_neg hx, ih hnext]
      rfl

theorem nextAlnum_spec (h : nextAlnum mem = some (c, read, letters)) :
    mem = mem.take read ++ letters ∧ read ≤ mem.length ∧ (mem.take read).filter isalnum = [c] := by
  induction mem generalizing read with
  | nil => cases h
  | cons x mem ih =>
    unfold nextAlnum at h
    split at h
    · next hx =>
      cases h
      refine ⟨rfl, Nat.succ_pos _, ?_⟩
      rw [List.take_succ_cons, List.take_zero, List.filter_cons_of_pos hx, List.filter_nil]
    · next hx =>
      obtain ⟨⟨l, r, m⟩, hnext, heq⟩ := Option.map_eq_some_iff.mp h
      cases heq
      obtain ⟨hmem, hle, hfilter⟩ := ih hnext
      refine ⟨?_, Nat.succ_le_succ hle, ?_⟩
      · rw [List.take_succ_cons, List.cons_append, ← hmem]
      · rw [List.take_succ_cons, List.filter_cons_of_neg hx, hfilter]

theorem exists_nextAlnum (h : 1 ≤ (mem.filter isalnum).length) : ∃ c read rest,
    nextAlnum mem = some (c, read, rest) ∧
      (rest.filter isalnum).length + 1 = (mem.filter isalnum).length := by
  induction mem with
  | nil => exact absurd h (by decide)
  | cons x mem ih =>
    unfold nextAlnum
    by_cases hx : isalnum x = true
    · rw [if_pos hx, List.filter_cons_of_pos hx, List.length_cons]
      exact ⟨x, 1, mem, rfl, rfl⟩
    · rw [List.filter_cons_of_neg hx] at h ⊢
      obtain ⟨c, read, rest, hnext, hlen⟩ := ih h
      rw [if_neg hx, hnext]
      exact ⟨c, read + 1, rest, rfl, hlen⟩

theorem firstAlnums_spec (h : firstAlnums n mem = some (letters, read)) :
    read ≤ mem.length ∧ letters = ((mem.take read).filter isalnum).map toupper ∧
      letters.length = n := by
  induction n generalizing mem letters read with
  | zero =>
    cases h
    exact ⟨Nat.zero_le _, rfl, rfl⟩
  | succ n ih =>
    obtain ⟨⟨c, r, rest⟩, hnext, h⟩ := Option.bind_eq_some_iff.mp h
    obtain ⟨⟨ls, r'⟩, hfirst, h⟩ := Option.bind_eq_some_iff.mp h
    cases h
    obtain ⟨hmem, hle, hfilter⟩ := nextAlnum_spec hnext
    obtain ⟨hle', hls, hlen⟩ := ih hfirst
    have htake : (mem.take r).length = r := List.length_take_of_le hle
    have hsum : mem.length = r + rest.length := by
      conv_lhs => rw [hmem]
      rw [List.length_append, htake]
    refine ⟨by omega, ?_, by rw [List.length_cons, hlen]⟩
    have hsplit : mem.take (r + r') = mem.take r ++ rest.take r' := by
      conv_lhs => rw [hmem, List.take_append, htake, Nat.add_sub_cancel_left]
      rw [List.take_take, min_eq_right (Nat.le_add_right r r')]
    rw [hsplit, List.filter_append, hfilter, hls]
    rfl

theorem firstAlnums_append (h : firstAlnums n mem = some (letters, read)) (rest : List Byte) :
    firstAlnums n (mem ++ rest) = some (letters, read) := by
  induction n generalizing mem letters read with
  | zero =>
    cases h
    rfl
  | succ n ih =>
    obtain ⟨⟨c, r, rest'⟩, hnext, h⟩ := Option.bind_eq_some_iff.mp h
    obtain ⟨⟨ls, r'⟩, hfirst, h⟩ := Option.bind_eq_some_iff.mp h
    cases h
    unfold firstAlnums
    rw [nextAlnum_append hnext]
    change (firstAlnums n (rest' ++ rest)).bind _ = _
    rw [ih hfirst]
    rfl

theorem exists_firstAlnums (h : n ≤ (mem.filter isalnum).length) :
    ∃ letters read, firstAlnums n mem = some (letters, read) := by
  induction n generalizing mem with
  | zero => exact ⟨[], 0, rfl⟩
  | succ n ih =>
    obtain ⟨c, r, rest, hnext, hlen⟩ := exists_nextAlnum (Nat.le_of_add_left_le h)
    have hrest : n ≤ (rest.filter isalnum).length := by omega
    obtain ⟨ls, r', hfirst⟩ := ih hrest
    unfold firstAlnums
    rw [hnext]
    change ∃ letters read, (firstAlnums n rest).bind _ = some (letters, read)
    rw [hfirst]
    exact ⟨_, _, rfl⟩

theorem alnums_of_read_le (h : firstAlnums n (name ++ 0 :: behind) = some (letters, read))
    (hread : read ≤ name.length + 1) : n ≤ (name.filter isalnum).length := by
  obtain ⟨-, hletters, hlen⟩ := firstAlnums_spec h
  have hsplit : name ++ 0 :: behind = (name ++ [0]) ++ behind := by
    rw [List.append_assoc]
    rfl
  have htake : (name ++ 0 :: behind).take read = (name ++ [0]).take read := by
    rw [hsplit, List.take_append_of_le_length]
    rw [List.length_append]
    exact hread
  have hsub : ((name ++ [0]).take read).Sublist (name ++ [0]) := List.take_sublist _ _
  have hle := (hsub.filter isalnum).length_le
  have hzero : (name ++ [0]).filter isalnum = name.filter isalnum := by
    rw [List.filter_append]
    exact List.append_nil _
  rw [hzero] at hle
  rw [hletters, List.length_map, htake] at hlen
  omega

/-! ## Candidates -/

theorem length_cString_le (f : Buffer) (n : ℕ) : (cString f n).length ≤ n := by
  induction n generalizing f with
  | zero => exact le_rfl
  | succ n ih =>
    unfold cString
    split
    · exact Nat.zero_le _
    · exact Nat.succ_le_succ (ih _)

theorem exists_parseShortName (entry : Entry) : ∃ base ext, base.length ≤ 8 ∧
    (parseShortName entry = base ∨ parseShortName entry = base ++ dot :: ext) := by
  have hbase : ∀ x ∈ (cString entry 8).takeWhile (· ≠ space), decide (x ≠ space) = true :=
    fun x hx => List.mem_takeWhile_imp (p := fun x => decide (x ≠ space)) hx
  have hlen : ((cString entry 8).takeWhile (· ≠ space)).length ≤ 8 :=
    (List.takeWhile_prefix _).length_le.trans (length_cString_le entry 8)
  unfold parseShortName
  dsimp only
  generalize (cString entry 8).takeWhile (· ≠ space) = base at hbase hlen ⊢
  have hcut : ∀ ext : List Byte, (base ++ [dot] ++ ext).takeWhile (· ≠ space) =
      base ++ dot :: ext.takeWhile (· ≠ space) := by
    intro ext
    rw [List.append_assoc, List.takeWhile_append_of_pos hbase, List.singleton_append,
      List.takeWhile_cons_of_pos (by decide)]
  rw [hcut]
  generalize List.takeWhile _ (cString _ _) = ext
  split
  · rcases List.eq_nil_or_concat ext with rfl | ⟨ext, x, rfl⟩
    · exact ⟨base, [], hlen, Or.inl List.dropLast_concat⟩
    · rw [List.concat_eq_append, ← List.cons_append, ← List.append_assoc, List.dropLast_concat]
      exact ⟨base, ext, hlen, Or.inr rfl⟩
  · exact ⟨base, ext, hlen, Or.inr rfl⟩

theorem parseShortName_dot (entry : Entry) (h : 9 ≤ (parseShortName entry).length) :
    ∃ i ≤ 8, (parseShortName entry).getD i 0 = dot := by
  obtain ⟨base, ext, hlen, heq | heq⟩ := exists_parseShortName entry
  · rw [heq] at h
    omega
  · refine ⟨base.length, hlen, ?_⟩
    rw [heq, List.getD_append_right _ _ _ _ le_rfl, Nat.sub_self]
    rfl

theorem candidate_getD {i : ℕ} (hletters : letters.length = 6) (hi : i < 9) (behind : Byte)
    (hdot : dot ∉ letters) (hzero : (0 : Byte) ∉ letters) (hnumber : endNumber ≤ 99) :
    (candidate letters endNumber behind).getD i 0 ≠ dot ∧
      (candidate letters endNumber behind).getD i 0 ≠ 0 := by
  have hdigit : ∀ k < 10, BitVec.ofNat 8 (k + 0x30) ≠ dot ∧ BitVec.ofNat 8 (k + 0x30) ≠ 0 := by
    decide
  have htilde : tilde ≠ dot ∧ tilde ≠ 0 := by decide
  unfold candidate
  by_cases hlow : i < letters.length
  · rw [List.getD_append _ _ _ _ hlow, List.getD_eq_getElem _ _ hlow]
    have hmem := List.getElem_mem hlow
    exact ⟨fun h => hdot (h ▸ hmem), fun h => hzero (h ▸ hmem)⟩
  · rw [List.getD_append_right _ _ _ _ (not_lt.mp hlow), hletters]
    have hi' : i - 6 = 0 ∨ i - 6 = 1 ∨ i - 6 = 2 := by omega
    rcases hi' with h | h | h <;> rw [h]
    · exact htilde
    · exact hdigit (endNumber / 10) (by omega)
    · exact hdigit (endNumber % 10) (by omega)

/-- A name that `parse_short_name` made never clashes with a candidate. -/
theorem not_clashes (hletters : letters.length = 6) (hdot : dot ∉ letters)
    (hzero : (0 : Byte) ∉ letters) (hnumber : endNumber ≤ 99) (e : Existing) :
    clashes e.altFilename (candidate letters endNumber 0) = false := by
  rw [Bool.eq_false_iff]
  intro hclash
  have hsame : ∀ i < 9, e.altFilename i = (candidate letters endNumber 0).getD i 0 := by
    intro i hi
    have hall := List.all_eq_true.mp hclash i (List.mem_range.mpr (by omega))
    exact of_decide_eq_true hall
  have hchar := fun i hi => candidate_getD hletters (i := i) hi 0 hdot hzero hnumber
  have hlong : 9 ≤ (parseShortName e.entry).length := by
    by_contra hshort
    have hnul : e.altFilename (parseShortName e.entry).length = 0 := by
      unfold Existing.altFilename strdup
      rw [if_neg (lt_irrefl _), if_pos rfl]
    have hlt : (parseShortName e.entry).length < 9 := not_le.mp hshort
    exact (hchar _ hlt).2 ((hsame _ hlt).symm.trans hnul)
  obtain ⟨i, hi, hdoti⟩ := parseShortName_dot e.entry hlong
  have hat : e.altFilename i = (parseShortName e.entry).getD i 0 := by
    unfold Existing.altFilename strdup
    rw [if_pos (by omega)]
  have hlt : i < 9 := by omega
  exact (hchar i hlt).1 ((hsame i hlt).symm.trans (hat.trans hdoti))

/-! ## The name that is made -/

theorem tryNumbers_eq (hletters : letters.length = 6) (hdot : dot ∉ letters)
    (hzero : (0 : Byte) ∉ letters) (existing : List Existing) :
    tryNumbers letters (existing.map Existing.altFilename) 100 1 = some
      (candidate letters 1 space) := by
  have hnone : (existing.map Existing.altFilename).countP
      (fun e => clashes e (candidate letters 1 0)) = 0 := by
    rw [List.countP_eq_zero]
    intro a ha
    obtain ⟨e, -, rfl⟩ := List.mem_map.mp ha
    rw [not_clashes hletters hdot hzero (by decide) e]
    exact Bool.false_ne_true
  unfold tryNumbers
  dsimp only
  rw [hnone, if_neg (by decide), if_pos rfl]

theorem toupper_of_isalnum (hc : isalnum c = true) :
    legalChar (toupper c) = true ∧ toupper c ≠ dot ∧ toupper c ≠ 0 ∧ toupper c ≠ space := by
  revert hc
  revert c
  decide

def shortOf (name : List Byte) : List Byte :=
  candidate (((name.filter isalnum).take 6).map toupper) 1 space

theorem padded_of_legal {field : List Byte} {k : ℕ} (h : ∀ c ∈ field, legalChar c = true) :
    padded (field ++ List.replicate k space) = true := by
  unfold padded
  rw [List.dropWhile_append_of_pos h, List.all_eq_true]
  intro c hc
  have hmem := (List.dropWhile_sublist _).mem hc
  exact decide_eq_true (List.eq_of_mem_replicate hmem)

theorem legal_candidate (hletters : letters.length = 6) (hlegal : ∀ c ∈ letters, legalChar c = true)
    (hspace : space ∉ letters) : Legal (candidate letters 1 space) := by
  have htake : (candidate letters 1 space).take 8 =
      letters ++ [tilde, 0x30] ++ List.replicate 0 space := by
    unfold candidate
    rw [List.take_append, List.take_of_length_le (by omega), hletters, List.append_assoc]
    rfl
  have hdrop : (candidate letters 1 space).drop 8 = [0x31] ++ List.replicate 2 space := by
    unfold candidate
    rw [List.drop_append, List.drop_of_length_le (by omega), hletters]
    rfl
  have hnumber : ∀ c ∈ [tilde, (0x30 : Byte)], legalChar c = true := by decide
  refine ⟨?_, ?_, ?_, ?_⟩
  · unfold candidate
    rw [List.length_append, hletters]
    rfl
  · rw [htake]
    refine padded_of_legal fun c hc => ?_
    rcases List.mem_append.mp hc with hc | hc
    · exact hlegal c hc
    · exact hnumber c hc
  · rw [hdrop]
    exact padded_of_legal (by decide)
  · unfold candidate
    rcases letters with _ | ⟨c, letters⟩
    · cases hletters
    · rw [List.cons_append, List.head?_cons]
      intro heq
      exact hspace (Option.some.inj heq ▸ List.mem_cons_self)

/-- What `make_short` makes of a name that reads as six letters or digits. -/
theorem makeShort_eq {read : ℕ} (h : firstAlnums 6 mem = some (letters, read))
    (existing : List Existing) :
    makeShort mem (existing.map Existing.altFilename) = some (candidate letters 1 space, read) ∧
      Legal (candidate letters 1 space) := by
  obtain ⟨-, hletters, hlen⟩ := firstAlnums_spec h
  have hchar : ∀ c ∈ letters, legalChar c = true ∧ c ≠ dot ∧ c ≠ 0 ∧ c ≠ space := by
    intro c hc
    rw [hletters] at hc
    obtain ⟨x, hx, rfl⟩ := List.mem_map.mp hc
    exact toupper_of_isalnum (List.mem_filter.mp hx).2
  have hdot : dot ∉ letters := fun hmem => (hchar _ hmem).2.1 rfl
  have hzero : (0 : Byte) ∉ letters := fun hmem => (hchar _ hmem).2.2.1 rfl
  have hspace : space ∉ letters := fun hmem => (hchar _ hmem).2.2.2 rfl
  refine ⟨?_, legal_candidate hlen (fun c hc => (hchar c hc).1) hspace⟩
  unfold makeShort
  rw [h]
  change (tryNumbers letters _ 100 1).bind _ = _
  rw [tryNumbers_eq hlen hdot hzero]
  rfl

theorem firstAlnums_name (h : 6 ≤ (name.filter isalnum).length) (rest : List Byte) :
    ∃ read ≤ name.length,
      firstAlnums 6 (name ++ rest) = some (((name.filter isalnum).take 6).map toupper, read) := by
  obtain ⟨letters, read, hfirst⟩ := exists_firstAlnums h
  obtain ⟨hle, hletters, hlen⟩ := firstAlnums_spec hfirst
  refine ⟨read, hle, ?_⟩
  have hprefix : ((name.take read).filter isalnum) <+: (name.filter isalnum) :=
    (List.take_prefix read name).filter isalnum
  have hcount : ((name.take read).filter isalnum).length = 6 := by
    rw [hletters, List.length_map] at hlen
    exact hlen
  rw [firstAlnums_append hfirst, hletters, List.prefix_iff_eq_take.mp hprefix, hcount]

theorem ShortNameRight.new_of_six (h : ShortNameRight name behind existing) :
    6 ≤ (name.filter isalnum).length ∧ ∀ e ∈ existing, e.name ≠ shortOf name := by
  obtain ⟨short, read, hmake, hread, -, hnew⟩ := h
  obtain ⟨⟨letters, read'⟩, hfirst, hname⟩ := Option.bind_eq_some_iff.mp hmake
  have hread' : read' = read := by
    obtain ⟨n, -, heq⟩ := Option.bind_eq_some_iff.mp hname
    cases heq
    rfl
  subst hread'
  have hsix := alnums_of_read_le hfirst hread
  obtain ⟨r, -, hown⟩ := firstAlnums_name hsix (0 :: behind)
  rw [(makeShort_eq hown existing).1] at hmake
  cases hmake
  exact ⟨hsix, hnew⟩

/-- The short name is right exactly if the long name has six letters or digits and no entry has the
first candidate for its name. -/
theorem makeShort_right_iff (name behind : List Byte) (existing : List Existing) :
    ShortNameRight name behind existing ↔
      6 ≤ (name.filter isalnum).length ∧ ∀ e ∈ existing, e.name ≠ shortOf name := by
  constructor
  · exact ShortNameRight.new_of_six
  · rintro ⟨hsix, hnew⟩
    obtain ⟨read, hread, hown⟩ := firstAlnums_name hsix (0 :: behind)
    obtain ⟨hmake, hlegal⟩ := makeShort_eq hown existing
    exact ⟨_, read, hmake, Nat.le_succ_of_le hread, hlegal, hnew⟩

/-! ## A name without letters, and a name that is taken -/

/-- `ABCDEF~01` on the disk. -/
def takenEntry : Existing where
  entry i := (shortOf [0x41, 0x42, 0x43, 0x44, 0x45, 0x46]).getD i 0
  behind _ := 0

/-- `a.b` is read past its end, and `abcdef.txt` gets the name of an entry. -/
theorem not_shortNameRight : ¬ ShortNameRight [0x61, 0x2e, 0x62] [] [] ∧
    ¬ ShortNameRight [0x61, 0x62, 0x63, 0x64, 0x65, 0x66, 0x2e, 0x74, 0x78, 0x74] []
      [takenEntry] := by
  constructor
  · intro h
    exact absurd h.new_of_six.1 (by decide)
  · intro h
    exact h.new_of_six.2 takenEntry List.mem_cons_self (by decide)

end Fat32

end RetroRocket
