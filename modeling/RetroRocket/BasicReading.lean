import RetroRocket.BasicTokens

/-!
# Which token a text starts with

One lemma for each kind of token that an expression has: what `get_next_token` makes of a text that
starts with it, and where `tokenizer_next` goes on.
-/

namespace RetroRocket

variable {c d : ParseCtx} {ch : Char} {rest : List Char}

structure ParseCtx.At (c : ParseCtx) (text : List Char) : Prop where
  read : ∃ d : ParseCtx, d.ptr = text ∧ c.ptr = (readToken d).ptr ∧
    c.nextptr = (readToken d).nextptr ∧ c.currentToken = (readToken d).currentToken

/-! ## What a report and a token leave alone -/

structure Store where
  basic : BasicCtx
  line : BitVec 64
  errors : List String

def ParseCtx.store (c : ParseCtx) : Store := ⟨c.basic, c.currentLinenum, c.errors⟩

def Store.report (error : String) (s : Store) : Store :=
  ⟨s.basic.setError error s.line, s.line, error :: s.errors⟩

@[simp] theorem store_tokenizerErrorPrint (error : String) :
    (tokenizerErrorPrint error c).store = c.store.report error := rfl

theorem readToken_at (hptr : d.ptr = rest) : (readToken d).At rest := ⟨d, hptr, rfl, rfl, rfl⟩

theorem ParseCtx.At.tokenizerErrorPrint (h : c.At rest) (error : String) :
    (tokenizerErrorPrint error c).At rest := ⟨h.read⟩

/-- A token behind which the context goes on to `rest`. -/
theorem tokenizerNext_at (hptr : c.ptr ≠ []) (htoken : c.currentToken ≠ .endOfInput)
    (hnext : c.nextptr = rest) :
    ∃ d, d.ptr = rest.dropWhile isBlank ∧ d.store = c.store ∧ tokenizerNext c = readToken d := by
  refine ⟨{ c with ptr := rest.dropWhile isBlank }, rfl, rfl, ?_⟩
  have hfinished : ¬ tokenizerFinished c := by
    unfold tokenizerFinished
    simp [hptr, htoken]
  unfold tokenizerNext
  rw [if_neg hfinished, hnext]

theorem dropWhile_isBlank_append {blanks : List Char} (h : blanks.all isBlank) (rest : List Char) :
    (blanks ++ rest).dropWhile isBlank = rest.dropWhile isBlank := by
  induction blanks with
  | nil => rfl
  | cons b blanks ih =>
    rw [List.all_cons, Bool.and_eq_true] at h
    rw [List.cons_append, List.dropWhile_cons_of_pos h.1]
    exact ih h.2

theorem dropWhile_isBlank_cons (h : isBlank ch = false) :
    (ch :: rest).dropWhile isBlank = ch :: rest :=
  List.dropWhile_cons_of_neg (by simp [h])

theorem readToken_store_cases (d : ParseCtx) :
    (readToken d).store = d.store ∨ ∃ error, (readToken d).store = d.store.report error := by
  have hgo : (getNextToken d).2.store = d.store ∨
      ∃ error, (getNextToken d).2.store = d.store.report error := by
    unfold getNextToken
    split
    · exact Or.inl rfl
    · split_ifs with hnumber hamp hsingle hquote hstart
      · split
        · split
          · exact Or.inl rfl
          · exact Or.inr ⟨_, rfl⟩
        · exact Or.inr ⟨_, rfl⟩
      · split
        · split
          · exact Or.inl rfl
          · exact Or.inr ⟨_, rfl⟩
        · exact Or.inr ⟨_, rfl⟩
      · exact Or.inl rfl
      · next rest _ =>
        rcases stringEnd rest with ⟨_ | _, next⟩
        · exact Or.inr ⟨_, rfl⟩
        · exact Or.inl rfl
      · split
        · exact Or.inl rfl
        · generalize variableEnd _ _ _ = p
          rcases p with ⟨_ | _, next⟩
          · exact Or.inl rfl
          · exact Or.inr ⟨_, rfl⟩
      · split
        · exact Or.inl rfl
        · exact Or.inl rfl
  exact hgo
/-! ## Operators and brackets -/

theorem readToken_single (hptr : d.ptr = ch :: rest)
    (hnumber : ¬ (ch.isDigit ∨ ch = '&' ∨ ch = '.')) (htoken : singlecharToken ch ≠ .noToken) :
    readToken d = { d with currentToken := singlecharToken ch, nextptr := rest } := by
  unfold readToken getNextToken
  rw [hptr]
  dsimp only
  rw [if_neg hnumber, if_pos htoken]

/-! ## Numbers -/

def EndsNumber (rest : List Char) : Prop := ∀ c ∈ rest.head?, ¬ (c.isDigit ∨ c = '.')

theorem numberEnd_of_lt {isPart : Char → Bool} {part : List Char} {limit : ℕ}
    (hpart : ∀ c ∈ part, isPart c) (hrest : ∀ c ∈ rest.head?, ¬ isPart c)
    (h : part.length < limit) :
    numberEnd isPart limit (part ++ rest) = some (part.length, rest) := by
  induction part generalizing limit with
  | nil =>
    cases limit with
    | zero => exact absurd h (Nat.not_lt_zero _)
    | succ limit =>
      cases rest with
      | nil => rfl
      | cons ch rest => exact if_neg (hrest ch rfl)
  | cons ch part ih =>
    cases limit with
    | zero => exact absurd h (Nat.not_lt_zero _)
    | succ limit =>
      rw [List.cons_append, numberEnd, if_pos (hpart ch List.mem_cons_self),
        ih (fun c hc => hpart c (List.mem_cons_of_mem _ hc)) (Nat.lt_of_succ_lt_succ h)]
      rfl

theorem numberEnd_of_le {isPart : Char → Bool} {part : List Char} {limit : ℕ}
    (hpart : ∀ c ∈ part, isPart c) (h : limit ≤ part.length) :
    numberEnd isPart limit (part ++ rest) = none := by
  induction part generalizing limit with
  | nil =>
    obtain rfl : limit = 0 := Nat.le_zero.mp h
    rfl
  | cons ch part ih =>
    cases limit with
    | zero => rfl
    | succ limit =>
      rw [List.cons_append, numberEnd, if_pos (hpart ch List.mem_cons_self),
        ih (fun c hc => hpart c (List.mem_cons_of_mem _ hc)) (Nat.le_of_succ_le_succ h)]
      rfl

section Number

variable {digits : List Char} (hne : digits ≠ []) (hdigits : ∀ c ∈ digits, c.isDigit)

include hne hdigits

theorem getNextToken_digits (hptr : d.ptr = digits ++ rest) :
    getNextToken d =
      match numberEnd (fun ch => ch.isDigit || ch == '.') maxNumlen (digits ++ rest) with
      | some (i, next) =>
        if 0 < i then (.number, { d with nextptr := next })
        else (.noToken, tokenizerErrorPrint "Number too short" d)
      | none => (.noToken, tokenizerErrorPrint "Number too long" d) := by
  obtain ⟨ch, digits, rfl⟩ := List.exists_cons_of_ne_nil hne
  have hdigit : ch.isDigit := hdigits ch List.mem_cons_self
  have hamp : ch ≠ '&' := by
    rintro rfl
    exact absurd hdigit (by decide)
  unfold getNextToken
  rw [hptr, List.cons_append]
  dsimp only
  rw [if_pos (Or.inl hdigit)]
  exact if_neg hamp

theorem readToken_number (hptr : d.ptr = digits ++ rest) (hrest : EndsNumber rest)
    (hlen : digits.length < maxNumlen) :
    readToken d = { d with currentToken := .number, nextptr := rest } := by
  have hend : numberEnd (fun ch => ch.isDigit || ch == '.') maxNumlen (digits ++ rest) =
      some (digits.length, rest) := by
    apply numberEnd_of_lt _ _ hlen
    · intro c hc
      simp [hdigits c hc]
    · intro c hc
      simpa using hrest c hc
  unfold readToken
  rw [getNextToken_digits hne hdigits hptr, hend]
  dsimp only
  rw [if_pos (List.length_pos_iff.mpr hne)]

theorem readToken_tooLong (hptr : d.ptr = digits ++ rest) (hlen : maxNumlen ≤ digits.length) :
    (readToken d).currentToken = .noToken ∧ (readToken d).ptr = d.ptr := by
  have hend : numberEnd (fun ch => ch.isDigit || ch == '.') maxNumlen (digits ++ rest) = none :=
    numberEnd_of_le (fun c hc => by simp [hdigits c hc]) hlen
  unfold readToken
  rw [getNextToken_digits hne hdigits hptr, hend]
  exact ⟨rfl, rfl⟩

end Number

/-! ## Names -/

def EndsName (rest : List Char) : Prop :=
  ∀ c ∈ rest.head?, ¬ isVarChar c ∧ c ≠ '$' ∧ c ≠ '#' ∧ c ≠ '('

/-- A name that stands for a variable: it is no keyword, and no call of a procedure. `MAX_VARNAME`
counts the NUL behind the name. -/
structure VarName where
  name : Name
  start : ∃ c ∈ name.head?, isVarStart c
  chars : ∀ c ∈ name, isVarChar c
  length : name.length < maxVarname
  keyword : ∀ word ∈ keywords, word.toList ≠ name
  proc : ¬ "PROC".toList <+: name

theorem isVarChar_of_start (h : isVarStart ch) : isVarChar ch := by
  unfold isVarStart at h
  unfold isVarChar Char.isAlphanum
  simp only [Bool.or_eq_true] at h ⊢
  tauto

theorem strncmp_eq {s t : List Char} (h : strncmp s t t.length = .eq) : t <+: s := by
  induction t generalizing s with
  | nil => exact List.nil_prefix
  | cons b t ih =>
    cases s with
    | nil => cases h
    | cons a s =>
      rw [List.length_cons, strncmp] at h
      split at h
      · next hab =>
        rw [hab]
        exact List.cons_prefix_cons.mpr ⟨rfl, ih h⟩
      · next hab =>
        rw [Nat.compare_eq_eq] at h
        exact absurd (Char.toNat_inj.mp h) hab

theorem keyword_isVarChar : ∀ word ∈ keywords, ∀ c ∈ word.toList, isVarChar c := by
  have h : keywords.all (fun word => word.toList.all isVarChar) := by decide +kernel
  simpa only [List.all_eq_true] using h

theorem keyword_length : ∀ word ∈ keywords, 2 ≤ word.toList.length := by
  decide +kernel

section Name

variable (var : VarName) (hrest : EndsName rest)

include hrest

theorem VarName.prefix_of_keyword {word : String} (hword : word ∈ keywords)
    (h : word.toList <+: var.name ++ rest) : ∃ c more, var.name = word.toList ++ c :: more := by
  rcases List.prefix_or_prefix_of_prefix h (List.prefix_append var.name rest) with hpre | hpre
  · obtain ⟨more, hmore⟩ := hpre
    cases more with
    | nil => exact absurd (by simpa using hmore) (var.keyword word hword)
    | cons c more => exact ⟨c, more, hmore.symm⟩
  · obtain ⟨t, ht⟩ := hpre
    cases t with
    | nil => exact absurd (by simpa using ht.symm) (var.keyword word hword)
    | cons c t =>
      rw [← ht, List.prefix_append_right_inj] at h
      cases rest with
      | nil => simp at h
      | cons b rest =>
        obtain ⟨rfl, -⟩ := List.cons_prefix_cons.mp h
        exact absurd (keyword_isVarChar word hword c (by simp [← ht])) (hrest c rfl).1

theorem VarName.scanKeywords {words : List String} (hwords : ∀ word ∈ words, word ∈ keywords)
    (htake : ∀ word ∈ words, word.toList.take 2 = (var.name ++ rest).take 2) :
    RetroRocket.scanKeywords (var.name ++ rest) words = none := by
  induction words with
  | nil => rfl
  | cons word words ih =>
    have ih := ih (fun w hw => hwords w (List.mem_cons_of_mem _ hw))
      fun w hw => htake w (List.mem_cons_of_mem _ hw)
    have hword := hwords word List.mem_cons_self
    unfold RetroRocket.scanKeywords
    cases hcmp : strncmp ((var.name ++ rest).drop 2) (word.toList.drop 2)
      (word.toList.length - 2) with
    | lt => rfl
    | gt => exact ih
    | eq =>
      rw [← List.length_drop] at hcmp
      have hpre : word.toList <+: var.name ++ rest := by
        rw [← List.take_append_drop 2 word.toList, ← List.take_append_drop 2 (var.name ++ rest),
          htake word List.mem_cons_self]
        exact (List.prefix_append_right_inj _).mpr (strncmp_eq hcmp)
      obtain ⟨c, more, hname⟩ := var.prefix_of_keyword hrest hword hpre
      have hc : isVarChar c := var.chars c (by simp [hname])
      dsimp only
      rw [if_neg, ih]
      rintro (hnot | rfl)
      · apply hnot
        simp [hname, hc]
      · exact var.proc ⟨c :: more, hname.symm⟩

theorem VarName.findKeyword : RetroRocket.findKeyword (var.name ++ rest) = none := by
  apply var.scanKeywords hrest
  · intro word hword
    exact (List.mem_filter.mp hword).1
  · intro word hword
    simpa using (List.mem_filter.mp hword).2

omit var

theorem variableEnd_name {name : List Char} {fuel varl : ℕ} (hchars : ∀ c ∈ name, isVarChar c)
    (hstart : varl = 0 → ∀ c ∈ name.head?, isVarStart c) (hlen : varl + name.length ≤ 60)
    (hfuel : name.length ≤ fuel) : variableEnd fuel varl (name ++ rest) = (false, rest) := by
  induction name generalizing fuel varl with
  | nil =>
    cases fuel with
    | zero => rfl
    | succ fuel =>
      cases rest with
      | nil => rfl
      | cons c rest =>
        obtain ⟨hvar, hdollar, hhash, hbracket⟩ := hrest c rfl
        refine if_neg ?_
        rintro (h | ⟨-, h | h | h | h⟩)
        · exact hvar (isVarChar_of_start h)
        · exact hdollar h
        · exact hhash h
        · exact hbracket h
        · exact hvar (by simp [isVarChar, Char.isAlphanum, h])
  | cons c name ih =>
    cases fuel with
    | zero => exact absurd hfuel (Nat.not_succ_le_zero _)
    | succ fuel =>
      have hgo : isVarStart c ∨ (0 < varl ∧ (c = '$' ∨ c = '#' ∨ c = '(' ∨ c.isDigit)) := by
        rcases Nat.eq_zero_or_pos varl with h0 | hpos
        · exact Or.inl (hstart h0 c rfl)
        · have hc := hchars c List.mem_cons_self
          unfold isVarChar Char.isAlphanum at hc
          unfold isVarStart
          simp only [Bool.or_eq_true] at hc ⊢
          tauto
      have hmore : variableEnd fuel (varl + 1) (name ++ rest) = (false, rest) := ih
        (fun d hd => hchars d (List.mem_cons_of_mem _ hd)) (by omega)
        (by rw [List.length_cons] at hlen; omega) (Nat.le_of_succ_le_succ hfuel)
      have hbracket : ∀ inner, name ++ rest ≠ '(' :: inner := by
        intro inner heq
        cases name with
        | nil => exact (hrest '(' (by simp at heq; simp [heq])).2.2.2 rfl
        | cons d name =>
          obtain ⟨rfl, -⟩ := List.cons.inj heq
          exact absurd (hchars '(' (by simp)) (by decide)
      rw [List.cons_append, variableEnd, if_pos hgo]
      · split
        · rw [List.length_cons] at hlen
          omega
        · exact hmore
      · exact hbracket

end Name

theorem VarName.ne_nil (var : VarName) : var.name ≠ [] := by
  obtain ⟨c, hc, -⟩ := var.start
  rintro h
  rw [h] at hc
  cases hc

theorem isVarStart_ne (h : isVarStart ch) :
    ¬ (ch.isDigit ∨ ch = '&' ∨ ch = '.') ∧ singlecharToken ch = .noToken ∧ ch ≠ '"' := by
  have hne : ∀ other, isVarStart other = false → ch ≠ other := by
    rintro other hother rfl
    rw [hother] at h
    cases h
  refine ⟨?_, ?_, hne _ (by decide)⟩
  · rintro (hdigit | hamp | hdot)
    · unfold isVarStart Char.isAlpha Char.isUpper Char.isLower at h
      unfold Char.isDigit at hdigit
      simp only [Bool.or_eq_true, Bool.and_eq_true, decide_eq_true_eq, beq_iff_eq] at h hdigit
      have hnine : '9'.val.toNat = 57 := rfl
      have hupper : 'A'.val.toNat = 65 := rfl
      have hlower : 'a'.val.toNat = 97 := rfl
      rw [ge_iff_le, UInt32.le_iff_toNat_le, UInt32.le_iff_toNat_le] at hdigit
      rcases h with (h | h) | rfl
      · have := UInt32.le_iff_toNat_le.mp h.1
        omega
      · have := UInt32.le_iff_toNat_le.mp h.1
        omega
      · exact absurd hdigit.2 (by decide)
    · exact hne _ (by decide) hamp
    · exact hne _ (by decide) hdot
  · unfold singlecharToken
    split <;> first | rfl | exact absurd rfl (hne _ (by decide))

theorem readToken_name (var : VarName) (hptr : d.ptr = var.name ++ rest) (hrest : EndsName rest) :
    readToken d = { d with currentToken := .variable, nextptr := rest } := by
  have hkeyword := var.findKeyword hrest
  have hlen := var.length
  obtain ⟨ch, hch, hstart⟩ := var.start
  obtain ⟨name, hname⟩ := List.head?_eq_some_iff.mp hch
  have hend : variableEnd ((name ++ rest).length + 1) 0 (var.name ++ rest) = (false, rest) := by
    apply variableEnd_name hrest var.chars
    · rintro - c hc
      rw [hch] at hc
      cases hc
      exact hstart
    · unfold maxVarname at hlen
      omega
    · rw [hname, List.length_cons, List.length_append]
      omega
  obtain ⟨hnumber, hsingle, hquote⟩ := isVarStart_ne hstart
  rw [hname, List.cons_append] at hkeyword hend hptr
  unfold readToken getNextToken
  rw [hptr]
  dsimp only
  rw [if_neg hnumber, if_neg (by simp [hsingle]), if_neg hquote, hkeyword]
  dsimp only
  rw [if_pos hstart, hend]
  dsimp only
  rw [if_neg Bool.false_ne_true, if_neg]
  · rw [hptr]
  · rintro (h | h)
    · exact (hrest _ h).2.1 rfl
    · exact (hrest _ h).2.2.1 rfl

/-! ## Keywords -/

def EndsWord (rest : List Char) : Prop := ∀ c ∈ rest.head?, ¬ isVarChar c

theorem strncmp_append (s rest : List Char) : strncmp (s ++ rest) s s.length = .eq := by
  induction s with
  | nil =>
    unfold strncmp
    rfl
  | cons a s ih =>
    rw [List.cons_append, List.length_cons, strncmp, if_pos rfl]
    exact ih

theorem readToken_keyword {word : String} {ch : Char} {tail : List Char} {more : List String}
    (hword : word.toList = ch :: tail) (hstart : isVarStart ch) (hlen : 2 ≤ word.toList.length)
    (hbucket : (keywords.filter fun w => w.toList.take 2 = word.toList.take 2) = word :: more)
    (hrest : EndsWord rest) (hptr : d.ptr = word.toList ++ rest) :
    readToken d = { d with currentToken := .keyword word, nextptr := rest } := by
  have hfind : findKeyword (word.toList ++ rest) = some word := by
    have htake : (word.toList ++ rest).take 2 = word.toList.take 2 :=
      List.take_append_of_le_length hlen
    have hcmp : strncmp ((word.toList ++ rest).drop 2) (word.toList.drop 2)
        (word.toList.length - 2) = .eq := by
      rw [List.drop_append_of_le_length hlen, ← List.length_drop]
      exact strncmp_append _ _
    unfold findKeyword
    rw [htake, hbucket, scanKeywords, hcmp]
    dsimp only
    rw [List.drop_left, if_pos]
    left
    rw [Option.any_eq_true]
    rintro ⟨c, hc, hvar⟩
    exact hrest c hc hvar
  obtain ⟨hnumber, hsingle, hquote⟩ := isVarStart_ne hstart
  have hnext : ((ch :: (tail ++ rest)).drop word.toList.length) = rest := by
    rw [← List.cons_append, ← hword, List.drop_left]
  rw [hword, List.cons_append] at hfind hptr
  unfold readToken getNextToken
  rw [hptr]
  dsimp only
  rw [if_neg hnumber, if_neg (by simp [hsingle]), if_neg hquote, hfind]
  dsimp only
  rw [hnext]

end RetroRocket
