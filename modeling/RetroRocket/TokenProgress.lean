import RetroRocket.BasicReading
import RetroRocket.Run
import RetroRocket.TokenPointers

/-!
# The tokenizer comes to the end

Every token but a malformed one ends behind its start and not behind the NUL, so `tokenizer_next`
gets on until it is at the end of the input.
-/

namespace RetroRocket

variable {ch : Char} {rest text : List Char} {word : String} {fuel varl depth : ℕ}

/-! ## Where the loops stop -/

theorem numberEnd_eq (isPart : Char → Bool) (limit : ℕ) (text : List Char) :
    numberEnd isPart limit text =
      if (text.takeWhile isPart).length < limit then
        some ((text.takeWhile isPart).length, text.dropWhile isPart)
      else none := by
  have hpart : ∀ c ∈ text.takeWhile isPart, isPart c :=
    List.all_eq_true.mp (List.all_takeWhile)
  have hrest : ∀ c ∈ (text.dropWhile isPart).head?, ¬ isPart c := by
    intro c hc
    have hnot := List.head?_dropWhile_not isPart text
    rw [Option.mem_def.mp hc] at hnot
    simpa using hnot
  have hsplit : numberEnd isPart limit text =
      numberEnd isPart limit (text.takeWhile isPart ++ text.dropWhile isPart) := by
    rw [List.takeWhile_append_dropWhile]
  rw [hsplit]
  split
  · next hlt => exact numberEnd_of_lt hpart hrest hlt
  · next hge => exact numberEnd_of_le hpart (Nat.le_of_not_lt hge)

theorem scanKeywords_eq_some {words : List String}
    (htake : ∀ word ∈ words, word.toList.take 2 = text.take 2)
    (h : scanKeywords text words = some word) : word ∈ words ∧ word.toList <+: text := by
  induction words with
  | nil => cases h
  | cons first words ih =>
    have hrest := ih fun w hw => htake w (List.mem_cons_of_mem _ hw)
    unfold scanKeywords at h
    cases hcmp : strncmp (text.drop 2) (first.toList.drop 2) (first.toList.length - 2) with
    | lt =>
      rw [hcmp] at h
      cases h
    | gt =>
      rw [hcmp] at h
      exact ⟨List.mem_cons_of_mem _ (hrest h).1, (hrest h).2⟩
    | eq =>
      rw [hcmp] at h
      dsimp only at h
      split at h
      · obtain rfl := Option.some.inj h
        refine ⟨List.mem_cons_self, ?_⟩
        rw [← List.length_drop] at hcmp
        rw [← List.take_append_drop 2 first.toList, ← List.take_append_drop 2 text,
          htake first List.mem_cons_self]
        exact (List.prefix_append_right_inj _).mpr (strncmp_eq hcmp)
      · exact ⟨List.mem_cons_of_mem _ (hrest h).1, (hrest h).2⟩

theorem findKeyword_eq_some (h : findKeyword text = some word) :
    word ∈ keywords ∧ word.toList <+: text := by
  unfold findKeyword at h
  have htake : ∀ w ∈ keywords.filter (fun w => w.toList.take 2 = text.take 2),
      w.toList.take 2 = text.take 2 := by
    intro w hw
    simpa using (List.mem_filter.mp hw).2
  obtain ⟨hword, hpre⟩ := scanKeywords_eq_some htake h
  exact ⟨List.mem_of_mem_filter hword, hpre⟩

theorem bracketsEnd_suffix (depth : ℕ) (text : List Char) : bracketsEnd depth text <:+ text := by
  induction text generalizing depth with
  | nil => exact List.suffix_refl _
  | cons c rest ih =>
    have hturn : ∀ d, (if 1 < d then bracketsEnd d rest else c :: rest) <:+ c :: rest := by
      intro d
      split
      · exact (ih d).trans (List.suffix_cons c rest)
      · exact List.suffix_refl _
    exact hturn _

theorem variableEnd_suffix (fuel varl : ℕ) (text : List Char) :
    (variableEnd fuel varl text).2 <:+ text := by
  induction fuel generalizing varl text with
  | zero => exact List.suffix_refl _
  | succ fuel ih =>
    cases text with
    | nil => exact List.suffix_refl _
    | cons c rest =>
      unfold variableEnd
      split
      · apply List.IsSuffix.trans _ (List.suffix_cons c rest)
        split
        · next inner =>
          exact ((ih varl _).trans (bracketsEnd_suffix 1 inner)).trans (List.suffix_cons _ _)
        · split
          · exact List.suffix_refl _
          · exact ih _ _
      · exact List.suffix_refl _

theorem variableEnd_of_start (fuel varl : ℕ) (rest : List Char) (h : isVarStart ch) :
    (variableEnd (fuel + 1) varl (ch :: rest)).2 <:+ rest := by
  unfold variableEnd
  rw [if_pos (Or.inl h)]
  split
  · next inner =>
    exact ((variableEnd_suffix fuel varl _).trans (bracketsEnd_suffix 1 inner)).trans
      (List.suffix_cons _ _)
  · split
    · exact List.suffix_refl _
    · exact variableEnd_suffix _ _ _

theorem singlecharToken_ne_endOfInput (ch : Char) : singlecharToken ch ≠ .endOfInput := by
  unfold singlecharToken
  split <;> decide

namespace TokenCtx

theorem stringLength_le (h : '"' ∈ rest ∨ '\r' ∈ rest) :
    1 ≤ (stringLength rest).2 ∧ (stringLength rest).2 ≤ rest.length := by
  induction rest with
  | nil => simp at h
  | cons c rest ih =>
    unfold stringLength
    split
    · simp
    · next hr =>
      split
      · simp
      · next hq =>
        have hrest : '"' ∈ rest ∨ '\r' ∈ rest := by
          rcases h with h | h
          · exact Or.inl ((List.mem_cons.mp h).resolve_left (Ne.symm hq))
          · exact Or.inr ((List.mem_cons.mp h).resolve_left (Ne.symm hr))
        have := ih hrest
        dsimp only
        rw [List.length_cons]
        omega

/-! ## One token -/

/-- What is at `ptr` is a token: a hexadecimal number of 2 to 31 digits, a number of less than 32
characters, a string constant that is closed, or another token. A character that no token starts
with comes right behind the token before it, and an empty text does not come first. -/
def Regular (s : TokenCtx) : Prop :=
  match s.text.drop s.ptr with
  | [] => s.nextptr.isSome
  | ch :: rest =>
    if ch = '&' then
      1 < (rest.takeWhile isXDigit).length ∧ (rest.takeWhile isXDigit).length < maxNumlen
    else if ch.isDigit ∨ ch = '.' then
      ((ch :: rest).takeWhile fun c => c.isDigit || c == '.').length < maxNumlen
    else if ch = '"' then '"' ∈ rest ∨ '\r' ∈ rest
    else if singlecharToken ch = .noToken ∧ findKeyword (ch :: rest) = none ∧ ¬ isVarStart ch then
      s.nextptr = some s.ptr
    else True

/-- `ptr` and `nextptr` point into the text or to its end. -/
def InBounds (s : TokenCtx) : Prop :=
  s.ptr ≤ s.text.length ∧ ∃ n, s.nextptr = some n ∧ n ≤ s.text.length

/-- The token ends at `n`. -/
structure Ends (s t : TokenCtx) (n : ℕ) : Prop where
  text : t.text = s.text
  nextptr : t.nextptr = some n
  start : s.ptr ≤ t.ptr
  lt : t.ptr < n
  le : n ≤ s.text.length

variable {s t : TokenCtx}

theorem length_of_drop (h : s.text.drop s.ptr = ch :: rest) :
    s.text.length = s.ptr + (rest.length + 1) := by
  have hlength := congrArg List.length h
  rw [List.length_drop, List.length_cons] at hlength
  omega

theorem ends_of {p n : ℕ} (htext : t.text = s.text) (hptr : t.ptr = p)
    (hnext : t.nextptr = some n) (hstart : s.ptr ≤ p) (hlt : p < n) (hle : n ≤ s.text.length) :
    ∃ n, s.Ends t n := by
  subst hptr
  exact ⟨n, htext, hnext, hstart, hlt, hle⟩

theorem getNextToken_ends (h : s.text.drop s.ptr = ch :: rest) (hreg : s.Regular) :
    s.getNextToken.1 ≠ .endOfInput ∧ ∃ n, s.Ends s.getNextToken.2 n := by
  have hlength := length_of_drop h
  have hbehind : s.ptr + 1 ≤ s.text.length := by omega
  unfold Regular at hreg
  unfold getNextToken
  rw [h] at hreg ⊢
  dsimp only at hreg ⊢
  by_cases hhex : ch = '&'
  · rw [if_pos hhex] at hreg
    have hle := (List.takeWhile_prefix (l := rest) isXDigit).length_le
    rw [if_pos (Or.inr (Or.inl hhex)), if_pos hhex, numberEnd_eq, if_pos hreg.2]
    dsimp only
    rw [if_pos hreg.1]
    have hbound : s.ptr + 1 + (rest.takeWhile isXDigit).length ≤ s.text.length := by omega
    have hlt : s.ptr + 1 < s.ptr + 1 + (rest.takeWhile isXDigit).length := by omega
    exact ⟨nofun, ends_of rfl rfl rfl (Nat.le_succ _) hlt hbound⟩
  rw [if_neg hhex] at hreg
  by_cases hnumber : ch.isDigit = true ∨ ch = '.'
  · rw [if_pos hnumber] at hreg
    have hor : ch.isDigit = true ∨ ch = '&' ∨ ch = '.' := hnumber.imp_right Or.inr
    have hle := (List.takeWhile_prefix (l := ch :: rest) fun c => c.isDigit || c == '.').length_le
    have hpos : 0 < ((ch :: rest).takeWhile fun c => c.isDigit || c == '.').length := by
      rw [List.takeWhile_cons_of_pos (by simpa using hnumber)]
      exact Nat.succ_pos _
    rw [List.length_cons] at hle
    rw [if_pos hor, if_neg hhex, numberEnd_eq, if_pos hreg]
    dsimp only
    rw [if_pos hpos]
    have hbound : s.ptr + ((ch :: rest).takeWhile fun c => c.isDigit || c == '.').length ≤
        s.text.length := by omega
    exact ⟨nofun, ends_of rfl rfl rfl (Nat.le_refl s.ptr) (Nat.lt_add_of_pos_right hpos) hbound⟩
  rw [if_neg hnumber] at hreg
  have hor : ¬ (ch.isDigit = true ∨ ch = '&' ∨ ch = '.') := by tauto
  rw [if_neg hor]
  by_cases hsingle : singlecharToken ch = .noToken
  · rw [if_neg (not_not.mpr hsingle)]
    by_cases hquote : ch = '"'
    · rw [if_pos hquote] at hreg
      obtain ⟨hpos, hle⟩ := stringLength_le hreg
      rw [if_pos hquote]
      have hbound : s.ptr + (stringLength rest).2 + 1 ≤ s.text.length := by omega
      have hlt : s.ptr < s.ptr + (stringLength rest).2 + 1 := by omega
      cases hclosed : (stringLength rest).1 with
      | true => exact ⟨nofun, ends_of rfl rfl rfl (Nat.le_refl s.ptr) hlt hbound⟩
      | false => exact ⟨nofun, ends_of rfl rfl rfl (Nat.le_refl s.ptr) hlt hbound⟩
    rw [if_neg hquote] at hreg ⊢
    cases hfind : findKeyword (ch :: rest) with
    | some word =>
      obtain ⟨hword, hpre⟩ := findKeyword_eq_some hfind
      have hlow := keyword_length word hword
      have hle := hpre.length_le
      rw [List.length_cons] at hle
      have hbound : s.ptr + word.toList.length ≤ s.text.length := by omega
      have hlt : s.ptr < s.ptr + word.toList.length := by omega
      exact ⟨nofun, ends_of rfl rfl rfl (Nat.le_refl s.ptr) hlt hbound⟩
    | none =>
      dsimp only
      by_cases hstart : isVarStart ch = true
      · rw [if_pos hstart]
        have hsuffix := variableEnd_of_start rest.length 0 rest hstart
        generalize variableEnd (rest.length + 1) 0 (ch :: rest) = r at hsuffix
        obtain ⟨tooLong, next⟩ := r
        have hle := hsuffix.length_le
        dsimp only at hle ⊢
        have hlast : ∀ last, last = (if next.head? = some '$' ∨ next.head? = some '#' then
            s.text.length - next.length + 1 else s.text.length - next.length) →
            s.ptr < last ∧ last ≤ s.text.length := by
          rintro last rfl
          split
          · next hhead =>
            have hpos : 0 < next.length := by
              cases next with
              | nil => simp at hhead
              | cons c next => exact Nat.succ_pos _
            omega
          · omega
        cases tooLong with
        | true => exact ⟨nofun, ends_of rfl rfl rfl (Nat.le_refl s.ptr) (hlast _ rfl).1
            (hlast _ rfl).2⟩
        | false => exact ⟨nofun, ends_of rfl rfl rfl (Nat.le_refl s.ptr) (hlast _ rfl).1
            (hlast _ rfl).2⟩
      · rw [if_pos ⟨hsingle, hfind, hstart⟩] at hreg
        rw [if_neg hstart, hreg]
        exact ⟨nofun, ends_of rfl rfl rfl (Nat.le_refl s.ptr) (Nat.lt_succ_self s.ptr) hbehind⟩
  · rw [if_pos hsingle]
    exact ⟨singlecharToken_ne_endOfInput ch,
      ends_of rfl rfl rfl (Nat.le_refl s.ptr) (Nat.lt_succ_self s.ptr) hbehind⟩

/-! ## Runs -/

structure Sound (s : TokenCtx) : Prop where
  bounds : s.InBounds
  finished : s.finished = true ↔ s.currentToken = .endOfInput
  forward : s.finished = false → ∃ n, s.nextptr = some n ∧ s.ptr < n

theorem read_sound (hptr : s.ptr ≤ s.text.length) (hnext : ∀ n, s.nextptr = some n → n ≤ s.ptr)
    (hreg : s.Regular) : s.read.Sound ∧ s.read.text = s.text ∧ s.ptr ≤ s.read.ptr := by
  cases h : s.text.drop s.ptr with
  | nil =>
    have hread : s.read = { s with currentToken := .endOfInput } := by
      unfold read getNextToken
      rw [h]
    have hfinished : ({ s with currentToken := .endOfInput } : TokenCtx).finished = true := by
      unfold finished
      dsimp only
      rw [h]
      rfl
    unfold Regular at hreg
    rw [h] at hreg
    obtain ⟨n, hn⟩ := Option.isSome_iff_exists.mp hreg
    rw [hread]
    refine ⟨⟨⟨hptr, n, hn, (hnext n hn).trans hptr⟩, ⟨fun _ => rfl, fun _ => hfinished⟩, ?_⟩, rfl,
      Nat.le_refl _⟩
    intro hnot
    rw [hfinished] at hnot
    cases hnot
  | cons ch rest =>
    obtain ⟨htoken, n, hends⟩ := getNextToken_ends h hreg
    have hread : s.read = { s.getNextToken.2 with currentToken := s.getNextToken.1 } := rfl
    obtain ⟨htext, hnextptr, hstart, hlt, hle⟩ := hends
    have hfinished : s.read.finished = false := by
      unfold finished
      rw [hread]
      dsimp only
      rw [Bool.or_eq_false_iff, htext]
      constructor
      · rw [List.isEmpty_eq_false_iff, ← List.length_pos_iff_ne_nil, List.length_drop]
        omega
      · simpa using htoken
    refine ⟨⟨⟨?_, n, hnextptr, ?_⟩, ?_, ?_⟩, htext, hstart⟩
    · change s.getNextToken.2.ptr ≤ s.getNextToken.2.text.length
      rw [htext]
      omega
    · change n ≤ s.getNextToken.2.text.length
      rwa [htext]
    · rw [hfinished]
      exact ⟨nofun, fun heq => absurd heq htoken⟩
    · exact fun _ => ⟨n, hnextptr, hlt⟩

def Meets (s : TokenCtx) : Prop :=
  s.finished = false → ∀ n, s.nextptr = some n →
    Regular { s with ptr := skipBlanks s.text n }

theorem le_skipBlanks (text : List Char) (p : ℕ) : p ≤ skipBlanks text p := Nat.le_add_right _ _

theorem skipBlanks_le {p : ℕ} (h : p ≤ text.length) : skipBlanks text p ≤ text.length := by
  have hle := (List.takeWhile_prefix (l := text.drop p) isBlank).length_le
  rw [List.length_drop] at hle
  unfold skipBlanks
  omega

theorem Sound.next_eq (h : s.Sound) (hfinished : s.finished = false) :
    ∃ n, s.nextptr = some n ∧ s.tokenizerNext = some
      (read { s with ptr := skipBlanks s.text n }) := by
  obtain ⟨-, n, hn, hle⟩ := h.bounds
  refine ⟨n, hn, ?_⟩
  unfold tokenizerNext
  rw [if_neg (by rw [hfinished]; decide)]
  split
  · next hnone => cases hn.symm.trans hnone
  · next p hp =>
    obtain rfl := Option.some.inj (hn.symm.trans hp)
    exact if_neg (Nat.not_lt.mpr hle)

theorem tokenizerNext_sound (h : s.Sound) (hmeets : s.Meets) :
    ∃ t, s.tokenizerNext = some t ∧ t.Sound ∧ t.text = s.text ∧
      (s.finished = true → t = s) ∧ (s.finished = false → s.ptr < t.ptr) := by
  cases hfinished : s.finished with
  | true => exact ⟨s, if_pos hfinished, h, rfl, fun _ => rfl, nofun⟩
  | false =>
    obtain ⟨n, hn, hnext⟩ := h.next_eq hfinished
    obtain ⟨n', hn', hlt⟩ := h.forward hfinished
    obtain rfl := Option.some.inj (hn.symm.trans hn')
    obtain ⟨-, n', hn', hle⟩ := h.bounds
    obtain rfl := Option.some.inj (hn.symm.trans hn')
    have hskip := le_skipBlanks s.text n
    have hbehind : ∀ p, s.nextptr = some p → p ≤ skipBlanks s.text n := by
      intro p hp
      obtain rfl := Option.some.inj (hn.symm.trans hp)
      exact hskip
    obtain ⟨hsound, htext, hstart⟩ :=
      read_sound (s := { s with ptr := skipBlanks s.text n }) (skipBlanks_le hle) hbehind
        (hmeets hfinished n hn)
    dsimp only at hstart
    exact ⟨_, hnext, hsound, htext, nofun, fun _ => by omega⟩

/-- A call of `tokenizer_next`. -/
def next (s : TokenCtx) (_ : Unit) : Option TokenCtx := s.tokenizerNext

/-- `n` calls of `tokenizer_next`. -/
def nexts : ℕ → TokenCtx → Option TokenCtx
  | 0, s => some s
  | n + 1, s => s.tokenizerNext.bind (nexts n)

theorem run_sound (hstart : Regular ⟨text, 0, none, .noToken, []⟩)
    (hrun : Run next (fun s _ => s.Meets) (tokenizerInit text) t) : t.Sound ∧ t.text = text := by
  apply hrun.invariant (P := fun t => t.Sound ∧ t.text = text)
  · obtain ⟨hsound, htext, -⟩ := read_sound (Nat.zero_le _) (fun n hn => by cases hn) hstart
    exact ⟨hsound, htext⟩
  · rintro t - ⟨hsound, htext⟩ hmeets
    obtain ⟨u, hu, hsound', htext', -⟩ := tokenizerNext_sound hsound hmeets
    exact ⟨u, hu, hsound', htext'.trans htext⟩

theorem nexts_end {k : ℕ} (hrun : Run next (fun s _ => s.Meets) s t) (hsound : t.Sound)
    (hmeets : ∀ u, Run next (fun s _ => s.Meets) s u → u.Meets) (hk : t.text.length - t.ptr ≤ k) :
    ∃ n ≤ k, ∃ u, nexts n t = some u ∧ u.currentToken = .endOfInput := by
  induction k generalizing t with
  | zero =>
    have hdrop : t.text.drop t.ptr = [] := List.drop_eq_nil_of_le (by omega)
    have hfinished : t.finished = true := by
      unfold finished
      rw [hdrop]
      rfl
    exact ⟨0, Nat.le_refl 0, t, rfl, hsound.finished.mp hfinished⟩
  | succ k ih =>
    obtain ⟨u, hu, hsound', htext, -, hforward⟩ := tokenizerNext_sound hsound (hmeets t hrun)
    cases hfinished : t.finished with
    | true => exact ⟨0, Nat.zero_le _, t, rfl, hsound.finished.mp hfinished⟩
    | false =>
      have hlt := hforward hfinished
      have hle := hsound'.bounds.1
      have hcall : next t () = some u := hu
      obtain ⟨n, hn, v, hv, hend⟩ :=
        ih (hrun.step (hmeets t hrun) hcall) hsound' (by rw [htext] at hle ⊢; omega)
      refine ⟨n + 1, Nat.succ_le_succ hn, v, ?_, hend⟩
      unfold nexts
      rw [hu]
      exact hv

/-- If every token that is read is well formed, the pointers stay in the text, every call before the
end of the input advances `ptr`, and the end of the input is reached. -/
theorem progress_of_run (hstart : Regular ⟨text, 0, none, .noToken, []⟩) :
    (∀ t, Run next (fun s _ => s.Meets) (tokenizerInit text) t →
      t.InBounds ∧ (t.currentToken ≠ .endOfInput → t.Meets →
        ∃ u, t.tokenizerNext = some u ∧ t.ptr < u.ptr)) ∧
    ((∀ t, Run next (fun s _ => s.Meets) (tokenizerInit text) t → t.Meets) →
      ∃ n ≤ text.length, ∃ t, nexts n (tokenizerInit text) = some t ∧
        t.currentToken = .endOfInput) := by
  constructor
  · intro t hrun
    obtain ⟨hsound, -⟩ := run_sound hstart hrun
    refine ⟨hsound.bounds, fun htoken hmeets => ?_⟩
    obtain ⟨u, hu, -, -, -, hforward⟩ := tokenizerNext_sound hsound hmeets
    have hfinished : t.finished = false := by
      rw [← Bool.not_eq_true, hsound.finished]
      exact htoken
    exact ⟨u, hu, hforward hfinished⟩
  · intro hmeets
    obtain ⟨hsound, htext⟩ := run_sound hstart .refl
    apply nexts_end .refl hsound hmeets
    rw [htext]
    exact Nat.sub_le _ _

theorem progress_of_run_print : (tokenizerInit "10 PRINT".toList).InBounds := by
  have hstart : Regular ⟨"10 PRINT".toList, 0, none, .noToken, []⟩ := by
    have hnumber :
        ("10 PRINT".toList.takeWhile fun c => c.isDigit || c == '.').length < maxNumlen := by
      decide
    exact hnumber
  exact ((progress_of_run hstart).1 _ .refl).1

theorem nexts_run {n : ℕ} {u : TokenCtx} (hrun : Run next (fun _ _ => True) s t)
    (h : nexts n t = some u) : Run next (fun _ _ => True) s u := by
  induction n generalizing t with
  | zero =>
    obtain rfl := Option.some.inj h
    exact hrun
  | succ n ih =>
    obtain ⟨v, hv, h⟩ := Option.bind_eq_some_iff.mp h
    have hcall : next t () = some v := hv
    exact ih (hrun.step trivial hcall) h

/-- At an `&` that no digit follows, `tokenizer_next` leaves `ptr` where it is. -/
theorem stuck_at_ampersand :
    ∃ t u, Run next (fun _ _ => True) (tokenizerInit "10 A=&G".toList) t ∧
      t.currentToken ≠ .endOfInput ∧ t.tokenizerNext = some u ∧ ¬ t.ptr < u.ptr := by
  have hthird : (nexts 3 (tokenizerInit "10 A=&G".toList)).any (fun t =>
      t.currentToken ≠ .endOfInput ∧ t.tokenizerNext.any fun u => ¬ t.ptr < u.ptr) = true := by
    decide +kernel
  obtain ⟨t, ht, hany⟩ := Option.any_eq_true _ _ |>.mp hthird
  obtain ⟨htoken, hnext⟩ := of_decide_eq_true hany
  obtain ⟨u, hu, hstuck⟩ := Option.any_eq_true _ _ |>.mp hnext
  exact ⟨t, u, nexts_run .refl ht, htoken, hu, of_decide_eq_true hstuck⟩

/-! ## The pointers as texts -/

/-- A context whose pointers are the rest of the text. -/
structure Agrees (s : TokenCtx) (c : ParseCtx) : Prop where
  ptr : c.ptr = s.text.drop s.ptr
  nextptr : ∀ n, s.nextptr = some n → c.nextptr = s.text.drop n
  token : c.currentToken = s.currentToken

variable {c : ParseCtx}

theorem drop_takeWhile (isPart : Char → Bool) (text : List Char) :
    text.drop (text.takeWhile isPart).length = text.dropWhile isPart := by
  have hsplit := List.takeWhile_append_dropWhile (p := isPart) (l := text)
  calc text.drop (text.takeWhile isPart).length
      = (text.takeWhile isPart ++ text.dropWhile isPart).drop (text.takeWhile isPart).length := by
        rw [hsplit]
    _ = text.dropWhile isPart := List.drop_left

theorem stringEnd_eq (h : '"' ∈ rest ∨ '\r' ∈ rest) :
    stringEnd rest = ((stringLength rest).1, rest.drop (stringLength rest).2) := by
  induction rest with
  | nil => simp at h
  | cons c rest ih =>
    unfold stringEnd stringLength
    split
    · rfl
    · next hr =>
      split
      · rfl
      · next hq =>
        have hrest : '"' ∈ rest ∨ '\r' ∈ rest := by
          rcases h with h | h
          · exact Or.inl ((List.mem_cons.mp h).resolve_left (Ne.symm hq))
          · exact Or.inr ((List.mem_cons.mp h).resolve_left (Ne.symm hr))
        rw [ih hrest]
        rfl

/-- On a token that is well formed both read the same. -/
theorem readToken_agrees (hptr : c.ptr = s.text.drop s.ptr)
    (hnext : ∀ n, s.nextptr = some n → c.nextptr = s.text.drop n) (hreg : s.Regular) :
    s.read.Agrees (readToken c) := by
  unfold Regular at hreg
  unfold read readToken getNextToken RetroRocket.getNextToken
  rw [hptr]
  cases h : s.text.drop s.ptr with
  | nil => exact ⟨hptr, hnext, rfl⟩
  | cons ch rest =>
    have hdrop : ∀ k, s.text.drop (s.ptr + k) = (ch :: rest).drop k := by
      intro k
      rw [← List.drop_drop, h]
    rw [h] at hreg
    dsimp only at hreg ⊢
    by_cases hhex : ch = '&'
    · rw [if_pos hhex] at hreg
      have hor : ch.isDigit = true ∨ ch = '&' ∨ ch = '.' := Or.inr (Or.inl hhex)
      rw [if_pos hor, if_pos hor, if_pos hhex, if_pos hhex, numberEnd_eq, if_pos hreg.2]
      dsimp only
      rw [if_pos hreg.1, if_pos hreg.1]
      refine ⟨(hdrop 1).symm, fun n hn => ?_, rfl⟩
      obtain rfl := Option.some.inj hn
      dsimp only
      rw [Nat.add_assoc, hdrop, Nat.add_comm, List.drop_succ_cons, drop_takeWhile]
    rw [if_neg hhex] at hreg
    by_cases hnumber : ch.isDigit = true ∨ ch = '.'
    · rw [if_pos hnumber] at hreg
      have hor : ch.isDigit = true ∨ ch = '&' ∨ ch = '.' := hnumber.imp_right Or.inr
      have hpos : 0 < ((ch :: rest).takeWhile fun c => c.isDigit || c == '.').length := by
        rw [List.takeWhile_cons_of_pos (by simpa using hnumber)]
        exact Nat.succ_pos _
      rw [if_pos hor, if_pos hor, if_neg hhex, if_neg hhex, numberEnd_eq, if_pos hreg]
      dsimp only
      rw [if_pos hpos, if_pos hpos]
      refine ⟨h.symm, fun n hn => ?_, rfl⟩
      obtain rfl := Option.some.inj hn
      exact (drop_takeWhile _ _).symm.trans (hdrop _).symm
    rw [if_neg hnumber] at hreg
    have hor : ¬ (ch.isDigit = true ∨ ch = '&' ∨ ch = '.') := by tauto
    rw [if_neg hor, if_neg hor]
    by_cases hsingle : singlecharToken ch = .noToken
    · rw [if_neg (not_not.mpr hsingle), if_neg (not_not.mpr hsingle)]
      by_cases hquote : ch = '"'
      · rw [if_pos hquote] at hreg
        rw [if_pos hquote, if_pos hquote, stringEnd_eq hreg]
        have hlast : rest.drop (stringLength rest).2 =
            s.text.drop (s.ptr + (stringLength rest).2 + 1) := by
          rw [Nat.add_assoc, hdrop, List.drop_succ_cons]
        cases hclosed : (stringLength rest).1 <;>
          exact ⟨hptr, fun n hn => Option.some.inj hn ▸ hlast, rfl⟩
      rw [if_neg hquote] at hreg
      rw [if_neg hquote, if_neg hquote]
      cases hfind : findKeyword (ch :: rest) with
      | some word =>
        refine ⟨h.symm, fun n hn => ?_, rfl⟩
        obtain rfl := Option.some.inj hn
        exact (hdrop _).symm
      | none =>
        dsimp only
        by_cases hstart : isVarStart ch = true
        · rw [if_pos hstart, if_pos hstart]
          have hsuffix := variableEnd_of_start rest.length 0 rest hstart
          generalize variableEnd (rest.length + 1) 0 (ch :: rest) = r at hsuffix
          obtain ⟨tooLong, next⟩ := r
          have hlast : next = s.text.drop (s.text.length - next.length) := by
            have hwhole : rest <:+ s.text :=
              (List.suffix_cons ch rest).trans (h ▸ List.drop_suffix _ _)
            exact List.suffix_iff_eq_drop.mp (hsuffix.trans hwhole)
          have hend : (if next.head? = some '$' ∨ next.head? = some '#' then next.tail else next) =
              s.text.drop (if next.head? = some '$' ∨ next.head? = some '#' then
                s.text.length - next.length + 1 else s.text.length - next.length) := by
            split
            · rw [← List.tail_drop]
              exact congrArg List.tail hlast
            · exact hlast
          cases tooLong <;> exact ⟨hptr, fun n hn => Option.some.inj hn ▸ hend, rfl⟩
        · rw [if_pos ⟨hsingle, hfind, hstart⟩] at hreg
          rw [if_neg hstart, if_neg hstart]
          refine ⟨h.symm, fun n hn => ?_, rfl⟩
          dsimp only at hn ⊢
          rw [hreg] at hn
          obtain rfl := Option.some.inj hn
          rw [hnext s.ptr hreg, List.tail_drop]
    · rw [if_pos hsingle, if_pos hsingle]
      refine ⟨h.symm, fun n hn => ?_, rfl⟩
      obtain rfl := Option.some.inj hn
      exact (hdrop 1).symm

theorem skipBlanks_eq (text : List Char) (p : ℕ) :
    (text.drop p).dropWhile isBlank = text.drop (skipBlanks text p) := by
  unfold skipBlanks
  rw [← List.drop_drop, drop_takeWhile]

/-- The contexts agree along every run. -/
theorem tokenizerNext_agrees (hsound : s.Sound) (hmeets : s.Meets) (h : s.Agrees c) :
    ∃ t, s.tokenizerNext = some t ∧ t.Agrees (RetroRocket.tokenizerNext c) := by
  have hsame : RetroRocket.tokenizerFinished c = s.finished := by
    unfold RetroRocket.tokenizerFinished finished
    rw [h.ptr, h.token]
  unfold RetroRocket.tokenizerNext
  rw [hsame]
  cases hfinished : s.finished with
  | true => exact ⟨s, if_pos hfinished, h⟩
  | false =>
    obtain ⟨n, hn, hnext⟩ := hsound.next_eq hfinished
    refine ⟨_, hnext, readToken_agrees ?_ h.nextptr (hmeets hfinished n hn)⟩
    dsimp only
    rw [h.nextptr n hn, skipBlanks_eq]

end TokenCtx

end RetroRocket
