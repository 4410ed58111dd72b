import Mathlib.Data.List.Find
import RetroRocket.BasicEvaluator
import RetroRocket.Buckets

/-!
# The search for a keyword

`build_keyword_prefix_offsets` and the part of `get_next_token` that reads a word. The table of
keywords is put together by the linker, which sorts it by name. The search looks only at the
keywords whose first two characters are those of the text, and compares what follows. It is compared
with a scan of the whole table.
-/

namespace RetroRocket

/-! ## The index -/

def byteAt (text : List Char) (i : ℕ) : ℕ := (text[i]?).elim 0 Char.toNat

def prefix16 (text : List Char) : ℕ := 256 * byteAt text 0 + byteAt text 1

/-- `PREFIX_BUCKETS`. It is irreducible, so that no proof goes down over all the entries. -/
@[irreducible] def prefixBuckets : ℕ := 65536

def wordKey (word : String) : ℕ := prefix16 word.toList

def buildKeywordPrefixOffsets (table : List String) : ℕ → ℕ :=
  let count := table.length
  fillGaps count prefixBuckets (recordFirst wordKey count 0 table fun _ => count)

/-! ## The search -/

def standsAlone (word : String) (next : List Char) : Bool :=
  !next.head?.any isVarChar || word == "PROC" || word == "FN" || word == "EQUALS"

/-- The loop of `get_next_token` over the keywords of a bucket. -/
def searchBucket (text : List Char) : List String → Option String
  | [] => none
  | word :: words =>
    let len := word.toList.length
    -- the bucket has matched the first two characters
    let comparison :=
      if 2 < len then strncmp (text.drop 2) (word.toList.drop 2) (len - 2) else .eq
    match comparison with
    | .eq =>
      if standsAlone word (text.drop len) then some word else searchBucket text words
    | .lt => none
    | .gt => searchBucket text words

def searchKeywords (table : List String) (text : List Char) : Option String :=
  let offsets := buildKeywordPrefixOffsets table
  let key := prefix16 text
  searchBucket text (slice table (offsets key) (offsets (key + 1)))

/-- The end of `get_next_token`, for a word that is no keyword. -/
def variableToken (c : ParseCtx) : Token × ParseCtx :=
  if c.ptr.head?.any isVarStart then
    let (tooLong, next) := variableEnd c.ptr.length 0 c.ptr
    let c := if tooLong then tokenizerErrorPrint "Variable name too long" c else c
    let next := if next.head? = some '$' ∨ next.head? = some '#' then next.tail else next
    (.variable, { c with nextptr := next })
  else (.noToken, { c with nextptr := c.nextptr.tail })

/-- The rest of `get_next_token` behind the search. -/
def foundToken (c : ParseCtx) : Option String → Token × ParseCtx
  | some word => (.keyword word, { c with nextptr := c.ptr.drop word.toList.length })
  | none => variableToken c

/-- The part of `get_next_token` for a text that begins with no number, sign or quote. -/
def wordToken (table : List String) (c : ParseCtx) : Token × ParseCtx :=
  foundToken c (searchKeywords table c.ptr)

/-! ## The scan of the whole table -/

def beginsWith (text : List Char) (word : String) : Bool :=
  word.toList.isPrefixOf text && standsAlone word (text.drop word.toList.length)

def scanTable (table : List String) (text : List Char) : Option String :=
  table.find? (beginsWith text)

def NameBefore (a b : String) : Prop := a.toList < b.toList

instance : DecidableRel NameBefore := fun a b => inferInstanceAs (Decidable (a.toList < b.toList))

theorem keywords_sorted : keywords.Pairwise NameBefore := by decide +kernel

/-! ## Names -/

structure IsName (word : List Char) : Prop where
  two_le : 2 ≤ word.length
  pos : ∀ c ∈ word, 0 < c.toNat
  byte : ∀ c ∈ word, c.toNat < 256

theorem isName_of_mem_keywords {word : String} (h : word ∈ keywords) : IsName word.toList := by
  have hall : keywords.all (fun word => 2 ≤ word.toList.length ∧
      word.toList.all (fun c => 0 < c.toNat ∧ c.toNat < 256) = true) = true := by decide +kernel
  obtain ⟨htwo, hc⟩ : 2 ≤ word.toList.length ∧ _ :=
    of_decide_eq_true (List.all_eq_true.mp hall word h)
  have hchar := fun c hmem => of_decide_eq_true (List.all_eq_true.mp hc c hmem)
  exact ⟨htwo, fun c hmem => (hchar c hmem).1, fun c hmem => (hchar c hmem).2⟩

theorem bytes_of_all {text : List Char} (h : text.all (fun c => c.toNat < 256) = true) :
    ∀ c ∈ text, c.toNat < 256 := by
  simpa using h

theorem IsName.cons_cons {word : List Char} (h : IsName word) :
    ∃ a b rest, word = a :: b :: rest := by
  match word, h.two_le with
  | a :: b :: rest, _ => exact ⟨a, b, rest, rfl⟩

@[simp] theorem prefix16_cons_cons (a b : Char) (rest : List Char) :
    prefix16 (a :: b :: rest) = 256 * a.toNat + b.toNat := rfl

theorem IsName.prefix16_lt {word : List Char} (h : IsName word) :
    prefix16 word < prefixBuckets := by
  obtain ⟨a, b, rest, rfl⟩ := h.cons_cons
  have ha := h.byte a (by simp)
  have hb := h.byte b (by simp)
  simp only [prefix16_cons_cons, prefixBuckets]
  omega

theorem char_lt_iff {a b : Char} : a < b ↔ a.toNat < b.toNat := by
  rw [Char.lt_def, UInt32.lt_iff_toNat_lt]
  rfl

theorem IsName.prefix16_le {v w : List Char} (hv : IsName v) (hw : IsName w) (h : v < w) :
    prefix16 v ≤ prefix16 w := by
  obtain ⟨a, b, s, rfl⟩ := hv.cons_cons
  obtain ⟨a', b', t, rfl⟩ := hw.cons_cons
  have hb := hv.byte b (by simp)
  simp only [prefix16_cons_cons]
  rcases List.cons_lt_cons_iff.mp h with ha | ⟨rfl, hrest⟩
  · have ha := char_lt_iff.mp ha
    omega
  · rcases List.cons_lt_cons_iff.mp hrest with hb | ⟨rfl, -⟩
    · have hb := char_lt_iff.mp hb
      omega
    · omega

theorem IsName.drop_of_prefix16 {word text : List Char} (h : IsName word)
    (htext : ∀ c ∈ text, c.toNat < 256) (heq : prefix16 word = prefix16 text) :
    ∃ a b, text = a :: b :: text.drop 2 ∧ word = a :: b :: word.drop 2 := by
  obtain ⟨a, b, rest, rfl⟩ := h.cons_cons
  have ha := h.pos a (by simp)
  have hb := h.pos b (by simp)
  have hb' := h.byte b (by simp)
  rw [prefix16_cons_cons] at heq
  match text with
  | [] =>
    simp only [prefix16, byteAt, List.getElem?_nil, Option.elim] at heq
    omega
  | [c] =>
    simp only [prefix16, byteAt, List.getElem?_cons_zero, List.getElem?_cons_succ,
      List.getElem?_nil, Option.elim] at heq
    omega
  | c :: d :: more =>
    have hd := htext d (by simp)
    rw [prefix16_cons_cons] at heq
    have hca : a.toNat = c.toNat := by omega
    have hdb : b.toNat = d.toNat := by omega
    refine ⟨c, d, rfl, ?_⟩
    rw [Char.toNat_inj.mp hca, Char.toNat_inj.mp hdb]
    rfl

theorem IsName.wordKey_of_begins {word text : List Char} (h : IsName word)
    (hpre : word <+: text) : prefix16 word = prefix16 text := by
  obtain ⟨a, b, rest, rfl⟩ := h.cons_cons
  obtain ⟨more, rfl⟩ := hpre
  rfl

/-! ## The comparison -/

theorem strncmp_eq_iff {t : List Char} :
    ∀ {s : List Char}, strncmp s t t.length = .eq ↔ t <+: s := by
  induction t with
  | nil => intro s; simp [strncmp]
  | cons b t ih =>
    intro s
    cases s with
    | nil => simp [strncmp]
    | cons a s =>
      by_cases hab : a = b
      · subst hab
        simp [strncmp, ih]
      · have hne : compare a.toNat b.toNat ≠ .eq := by
          rw [Ne, Nat.compare_eq_eq]
          exact fun h => hab (Char.toNat_inj.mp h)
        simp [strncmp, hab, hne, Ne.symm hab]

theorem not_prefix_of_strncmp_lt {t t' : List Char} (htt : t < t') :
    ∀ {s : List Char}, strncmp s t t.length = .lt → ¬ t' <+: s := by
  induction t generalizing t' with
  | nil => intro s h; simp [strncmp] at h
  | cons b t ih =>
    intro s h
    cases t' with
    | nil => exact absurd htt (List.not_lt_nil _)
    | cons b' t' =>
      cases s with
      | nil => simp
      | cons a s =>
        intro hpre
        obtain ⟨rfl, hrest⟩ := List.cons_prefix_cons.mp hpre
        rcases List.cons_lt_cons_iff.mp htt with hlt | ⟨rfl, htail⟩
        · have hlt := char_lt_iff.mp hlt
          have hne : b' ≠ b := by rintro rfl; omega
          simp only [List.length_cons, strncmp, hne, if_false, Nat.compare_eq_lt] at h
          omega
        · simp only [List.length_cons, strncmp, if_true] at h
          exact ih htail h hrest

/-! ## The search finds what the scan finds -/

theorem beginsWith_iff {text : List Char} {word : String} :
    beginsWith text word = true ↔ word.toList <+: text ∧
      standsAlone word (text.drop word.toList.length) = true := by
  rw [beginsWith, Bool.and_eq_true, List.isPrefixOf_iff_prefix]

theorem comparison_eq (text word : List Char) :
    (if 2 < word.length then strncmp (text.drop 2) (word.drop 2) (word.length - 2) else .eq) =
      strncmp (text.drop 2) (word.drop 2) (word.drop 2).length := by
  have hlen : word.length - 2 = (word.drop 2).length := by simp
  rw [hlen]
  split
  · rfl
  · rename_i hle
    rw [show (word.drop 2).length = 0 by omega]
    simp [strncmp]

theorem searchBucket_eq_find {text : List Char} {a b : Char} {words : List String}
    (hsorted : words.Pairwise NameBefore) (htext : text = a :: b :: text.drop 2)
    (hwords : ∀ word ∈ words, word.toList = a :: b :: word.toList.drop 2) :
    searchBucket text words = words.find? (beginsWith text) := by
  induction words with
  | nil => rfl
  | cons word words ih =>
    obtain ⟨hbefore, hrest⟩ := List.pairwise_cons.mp hsorted
    have ih := ih hrest fun w hw => hwords w (List.mem_cons_of_mem _ hw)
    have hword := hwords word List.mem_cons_self
    have hbegins : ∀ w : String, w.toList = a :: b :: w.toList.drop 2 →
        (w.toList <+: text ↔ w.toList.drop 2 <+: text.drop 2) := by
      intro w hw
      rw [htext, hw]
      simp
    rw [searchBucket, comparison_eq, List.find?_cons]
    cases hcmp : strncmp (text.drop 2) (word.toList.drop 2) (word.toList.drop 2).length with
    | eq =>
      have hpre : word.toList.isPrefixOf text = true :=
        List.isPrefixOf_iff_prefix.mpr ((hbegins word hword).mpr (strncmp_eq_iff.mp hcmp))
      cases hend : standsAlone word (text.drop word.toList.length) with
      | true => simp [beginsWith, hpre, hend]
      | false => simp [beginsWith, hend, ih]
    | lt =>
      have hnone : ∀ w ∈ word :: words, beginsWith text w = false := by
        intro w hw
        rw [Bool.eq_false_iff, Ne, beginsWith_iff, hbegins w (hwords w hw)]
        rintro ⟨hpre, -⟩
        rcases List.mem_cons.mp hw with rfl | hmem
        · rw [strncmp_eq_iff.mpr hpre] at hcmp
          cases hcmp
        · have hlt : word.toList.drop 2 < w.toList.drop 2 := by
            have h := hbefore w hmem
            rw [NameBefore, hword, hwords w hw] at h
            simpa [List.cons_lt_cons_iff] using h
          exact not_prefix_of_strncmp_lt hlt hcmp hpre
      rw [hnone word List.mem_cons_self]
      symm
      rw [List.find?_eq_none]
      intro w hw
      simp [hnone w (List.mem_cons_of_mem _ hw)]
    | gt =>
      have hno : beginsWith text word = false := by
        rw [Bool.eq_false_iff, Ne, beginsWith_iff, hbegins word hword, ← strncmp_eq_iff, hcmp]
        simp
      rw [hno, ih]

theorem bucket_eq_filter {table : List String} (hsorted : table.Pairwise NameBefore)
    (hnames : ∀ word ∈ table, IsName word.toList) {k : ℕ} (hk : k < prefixBuckets) :
    slice table (buildKeywordPrefixOffsets table k) (buildKeywordPrefixOffsets table (k + 1)) =
      table.filter fun word => decide (wordKey word = k) := by
  have hkeys : table.Pairwise fun v w => wordKey v ≤ wordKey w :=
    hsorted.imp_of_mem fun hv hw h => (hnames _ hv).prefix16_le (hnames _ hw) h
  have hbound : ∀ word ∈ table, wordKey word < prefixBuckets :=
    fun word hmem => (hnames word hmem).prefix16_lt
  rw [buildKeywordPrefixOffsets, fillGaps_recordFirst hkeys hbound (by omega),
    fillGaps_recordFirst hkeys hbound (by omega), slice_bucketStart hkeys]

theorem prefix16_lt_of_bytes {text : List Char} (htext : ∀ c ∈ text, c.toNat < 256) :
    prefix16 text < prefixBuckets := by
  have hbyte : ∀ i, byteAt text i < 256 := by
    intro i
    rw [byteAt]
    cases hc : text[i]? with
    | none => simp
    | some c => exact htext c (List.mem_of_getElem? hc)
  have h0 := hbyte 0
  have h1 := hbyte 1
  simp only [prefix16, prefixBuckets]
  omega

theorem searchKeywords_eq_scanTable {table : List String} (hsorted : table.Pairwise NameBefore)
    (hnames : ∀ word ∈ table, IsName word.toList) {text : List Char}
    (htext : ∀ c ∈ text, c.toNat < 256) : searchKeywords table text = scanTable table text := by
  rw [searchKeywords, bucket_eq_filter hsorted hnames (prefix16_lt_of_bytes htext)]
  -- a keyword that the text begins with has its key, so that the scan finds none elsewhere
  have hscan : scanTable table text =
      (table.filter fun word => decide (wordKey word = prefix16 text)).find?
        (beginsWith text) := by
    rw [List.find?_filter, scanTable]
    apply List.find?_congr
    intro word hmem
    cases hbegins : beginsWith text word with
    | false => simp
    | true =>
      have hpre := (beginsWith_iff.mp hbegins).1
      simp [wordKey, (hnames word hmem).wordKey_of_begins hpre]
  rw [hscan]
  cases hbucket : table.filter fun word => decide (wordKey word = prefix16 text) with
  | nil => rfl
  | cons first words =>
    rw [← hbucket]
    have hkey : ∀ word ∈ table.filter (fun word => decide (wordKey word = prefix16 text)),
        IsName word.toList ∧ prefix16 word.toList = prefix16 text := by
      intro word hmem
      obtain ⟨hmem, heq⟩ := List.mem_filter.mp hmem
      exact ⟨hnames word hmem, of_decide_eq_true heq⟩
    have hfirst := hkey first (by rw [hbucket]; exact List.mem_cons_self)
    obtain ⟨a, b, hab, -⟩ := hfirst.1.drop_of_prefix16 htext hfirst.2
    apply searchBucket_eq_find (hsorted.filter _) hab
    intro word hmem
    obtain ⟨hname, heq⟩ := hkey word hmem
    obtain ⟨a', b', hab', hword⟩ := hname.drop_of_prefix16 htext heq
    rw [hab'] at hab
    obtain ⟨rfl, rfl⟩ : a' = a ∧ b' = b := by simpa using hab
    exact hword

/-- The search of `BasicTokens`, which takes the keywords with the first two characters of the
text, is the same one. -/
theorem scanKeywords_eq_searchBucket (text : List Char) {words : List String}
    (hmem : ∀ word ∈ words, word ∈ keywords) :
    scanKeywords text words = searchBucket text words := by
  induction words with
  | nil => rfl
  | cons word words ih =>
    have ih := ih fun w hw => hmem w (List.mem_cons_of_mem _ hw)
    have hword := hmem word List.mem_cons_self
    have hother : word ≠ "FN" ∧ word ≠ "EQUALS" := by
      have hall : ∀ w ∈ keywords, w ≠ "FN" ∧ w ≠ "EQUALS" := by decide +kernel
      exact hall word hword
    have hend : standsAlone word (text.drop word.toList.length) = true ↔
        ¬ ((text.drop word.toList.length).head?.any isVarChar) ∨ word = "PROC" := by
      simp [standsAlone, hother]
    rw [searchBucket, comparison_eq, List.length_drop, scanKeywords, ih]
    cases strncmp (text.drop 2) (word.toList.drop 2) (word.toList.length - 2) <;> simp only [hend]

theorem findKeyword_eq_searchKeywords {text : List Char} (htext : ∀ c ∈ text, c.toNat < 256) :
    findKeyword text = searchKeywords keywords text := by
  have hnames : ∀ word ∈ keywords, IsName word.toList := fun _ => isName_of_mem_keywords
  rw [searchKeywords, bucket_eq_filter keywords_sorted hnames (prefix16_lt_of_bytes htext),
    findKeyword, scanKeywords_eq_searchBucket text fun _ => List.mem_of_mem_filter]
  congr 1
  apply List.filter_congr
  intro word hmem
  rw [Bool.eq_iff_iff, decide_eq_true_eq, decide_eq_true_eq, wordKey]
  constructor
  · intro htake
    obtain ⟨a, b, rest, hword⟩ := (hnames word hmem).cons_cons
    match text, hword ▸ htake with
    | [], htake => simp at htake
    | [_], htake => simp at htake
    | c :: d :: more, htake =>
      obtain ⟨rfl, rfl⟩ : a = c ∧ b = d := by simpa using htake
      rw [hword, prefix16_cons_cons, prefix16_cons_cons]
  · intro hkey
    obtain ⟨a, b, htext, hword⟩ := (hnames word hmem).drop_of_prefix16 htext hkey
    rw [htext, hword]
    rfl

/-! ## The token -/

def scanToken (table : List String) (text : List Char) : Token :=
  match scanTable table text with
  | some word => .keyword word
  | none => if text.head?.any isVarStart then .variable else .noToken

theorem variableToken_fst (c : ParseCtx) :
    (variableToken c).1 = if c.ptr.head?.any isVarStart then .variable else .noToken := by
  rw [variableToken]
  split
  · simp
  · rfl

/-- The search is what `get_next_token` does with a text that begins with no number, sign or
quote. -/
theorem getNextToken_eq_wordToken (c : ParseCtx) (htext : ∀ ch ∈ c.ptr, ch.toNat < 256)
    {ch : Char} {rest : List Char} (hptr : c.ptr = ch :: rest)
    (hnumber : ¬ (ch.isDigit ∨ ch = '&' ∨ ch = '.')) (hsign : singlecharToken ch = .noToken)
    (hquote : ch ≠ '"') : getNextToken c = wordToken keywords c := by
  rw [wordToken, ← findKeyword_eq_searchKeywords htext, getNextToken, hptr]
  simp only [hnumber, hsign, hquote, if_false, ne_eq, not_true_eq_false]
  cases findKeyword (ch :: rest) with
  | some word => simp [foundToken, hptr]
  | none => simp [foundToken, variableToken, hptr]

/-- `get_next_token` finds the keyword of the table that a scan would find. A text that begins with
none is a variable if it starts as a name does, and no token otherwise. -/
theorem wordToken_eq_scan (table : List String) (hperm : table.Perm keywords)
    (hsorted : table.Pairwise NameBefore) (c : ParseCtx) (htext : ∀ ch ∈ c.ptr, ch.toNat < 256) :
    (wordToken table c).1 = scanToken table c.ptr ∧
      ∀ word, scanTable table c.ptr = some word →
        wordToken table c =
          (.keyword word, { c with nextptr := c.ptr.drop word.toList.length }) := by
  have hnames : ∀ word ∈ table, IsName word.toList :=
    fun word hmem => isName_of_mem_keywords (hperm.mem_iff.mp hmem)
  have hsearch := searchKeywords_eq_scanTable hsorted hnames htext
  rw [wordToken, hsearch, scanToken]
  cases scanTable table c.ptr with
  | some found => simp [foundToken]
  | none => simp [foundToken, variableToken_fst]

def contextAt (text : List Char) : ParseCtx := { startCtx [] with ptr := text }

theorem wordToken_eq_scan_ending :
    (wordToken keywords (contextAt ['E', 'N', 'D', 'I', 'N', 'G'])).1 =
      scanToken keywords ['E', 'N', 'D', 'I', 'N', 'G'] :=
  (wordToken_eq_scan keywords (List.Perm.refl _) keywords_sorted
    (contextAt ['E', 'N', 'D', 'I', 'N', 'G']) (bytes_of_all (by decide))).1

/-- A text that begins with no keyword need not be a variable. -/
theorem at_sign_is_no_variable :
    ¬ ∀ (table : List String), table.Perm keywords → table.Pairwise NameBefore →
      ∀ c : ParseCtx, (∀ ch ∈ c.ptr, ch.toNat < 256) →
        (wordToken table c).1 =
          match scanTable table c.ptr with
          | some word => .keyword word
          | none => .variable := by
  intro h
  have hclaim := h keywords (List.Perm.refl _) keywords_sorted (contextAt ['@'])
    (bytes_of_all (by decide))
  have hnone : scanTable keywords ['@'] = none := by decide +kernel
  have hfound : searchKeywords keywords ['@'] = none := by
    rw [searchKeywords_eq_scanTable keywords_sorted (fun _ => isName_of_mem_keywords)
      (bytes_of_all (by decide)), hnone]
  have hptr : (contextAt ['@']).ptr = ['@'] := rfl
  rw [wordToken, hptr, hfound, hnone, foundToken, variableToken_fst, hptr] at hclaim
  exact absurd hclaim (by decide)

end RetroRocket
