import RetroRocket.CleanBasic

/-!
# The normal form of source texts

Behind carriage returns at the end of the text, with no newline in front of them, the loop of
`clean_basic` copies the NUL and goes on behind it. A line that holds nothing but a comment becomes
an empty line if it has another line in front of it. Every other text is brought into normal form.
-/

namespace RetroRocket

/-! ## Places in a source text -/

inductive SourcePlace where
  | code
  | string
  | comment
  deriving DecidableEq

namespace SourcePlace

def next : SourcePlace → Char → SourcePlace
  | .code, c => if c = '"' then .string else if c = '\'' then .comment else .code
  | .string, c => if c = '"' then .code else .string
  | .comment, c => if isLineEnd c then .code else .comment

def quoted : SourcePlace → List Char → List Char
  | _, [] => []
  | place, c :: p =>
    if place = .string ∨ place.next c = .string then c :: quoted (place.next c) p
    else quoted (place.next c) p

def hasComment : SourcePlace → List Char → Bool
  | _, [] => false
  | place, c :: p => place.next c = .comment || hasComment (place.next c) p

/-- Whether a line that has another one in front of it holds nothing but comments, and ends. `fresh`
says that nothing but carriage returns and comments stands behind the last newline, and `commented`
that a comment does. -/
def commentLine : SourcePlace → (fresh commented : Bool) → List Char → Bool
  | _, _, _, [] => false
  | place, fresh, commented, c :: p =>
    if place ≠ .string ∧ place.next c = .comment then commentLine .comment fresh true p
    else if c = '\n' then fresh && commented || commentLine (place.next c) true false p
    else if c = '\r' then commentLine (place.next c) fresh commented p
    else commentLine (place.next c) false false p

end SourcePlace

/-- Whether a text ends with carriage returns that have no newline in front of them. `newline` says
that the last character but carriage returns is a newline, and `returns` that carriage returns
follow. -/
def returnsAtEnd : (newline returns : Bool) → List Char → Bool
  | newline, returns, [] => returns && !newline
  | newline, _, c :: p =>
    if c = '\r' then returnsAtEnd newline true p else returnsAtEnd (c = '\n') false p

structure IsClean (text : List Char) : Prop where
  noReturn : '\r' ∉ text
  noTab : '\t' ∉ text
  noComment : SourcePlace.hasComment .code text = false
  noBlankLine : ∀ pre post, text ≠ pre ++ '\n' :: '\n' :: post

def tidied (text : List Char) : List Char :=
  (text.filter fun c => !isLineEnd c).map fun c => if c = '\t' then ' ' else c

def stringsOf (text : List Char) : List Char := tidied (SourcePlace.quoted .code text)

/-- `clean_basic` stays in the text, and its output is a normal form of it. -/
def Normalises (text : List Char) : Prop :=
  ∃ out, cleanBasic text = some out ∧ out.length ≤ text.length ∧ IsClean out ∧
    cleanBasic out = some out ∧ stringsOf out = stringsOf text

/-! ## Runs of line ends and comments -/

open SourcePlace

variable {inQuotes : Bool} {p out : List Char}

def placeOf (inQuotes : Bool) : SourcePlace := if inQuotes then .string else .code

theorem next_return (inQuotes : Bool) : (placeOf inQuotes).next '\r' = placeOf inQuotes := by
  cases inQuotes <;> rfl

theorem next_newline (inQuotes : Bool) : (placeOf inQuotes).next '\n' = placeOf inQuotes := by
  cases inQuotes <;> rfl

theorem next_tab (inQuotes : Bool) : (placeOf inQuotes).next '\t' = placeOf inQuotes := by
  cases inQuotes <;> rfl

theorem next_blank (inQuotes : Bool) : (placeOf inQuotes).next ' ' = placeOf inQuotes := by
  cases inQuotes <;> rfl

theorem placeOf_ne_comment (inQuotes : Bool) : placeOf inQuotes ≠ .comment := by
  cases inQuotes <;> decide

theorem next_plain {c : Char} (hc : IsPlain inQuotes c) :
    (placeOf inQuotes).next c = placeOf (toggledBy inQuotes c) := by
  have hcomment := hc.comment
  cases inQuotes with
  | false =>
    have hne : c ≠ '\'' := fun h => Bool.noConfusion (hcomment h)
    by_cases hquote : c = '"' <;> simp [placeOf, next, toggledBy, hquote, hne]
  | true => by_cases hquote : c = '"' <;> simp [placeOf, next, toggledBy, hquote]

/-! ## Reading to the end -/

theorem returnsAtEnd_skipLineEnds (a b : Bool) (p : List Char) :
    returnsAtEnd true a (skipLineEnds p) = returnsAtEnd true b p := by
  induction p generalizing a b with
  | nil => simp [skipLineEnds, returnsAtEnd]
  | cons c p ih =>
    by_cases hreturn : c = '\r'
    · subst hreturn
      exact ih a true
    · by_cases hnewline : c = '\n'
      · subst hnewline
        exact ih a false
      · simp [skipLineEnds, isLineEnd, returnsAtEnd, hreturn, hnewline]

theorem returnsAtEnd_skipComment (p : List Char) :
    returnsAtEnd false false (skipComment p) = returnsAtEnd false false p := by
  induction p with
  | nil => rfl
  | cons c p ih =>
    by_cases hend : isLineEnd c = true
    · simp [skipComment, hend]
    · have hne : c ≠ '\r' ∧ c ≠ '\n' := by
        simpa [isLineEnd] using hend
      have hskip : skipComment (c :: p) = skipComment p := by
        simp [skipComment, hend]
      rw [hskip, ih]
      simp [returnsAtEnd, hne.1, hne.2]

theorem Cleans.returnsAtEnd_eq (h : Cleans inQuotes p out) {newline returns : Bool}
    (hp : p = [] → returns = false) : returnsAtEnd newline returns p = false := by
  induction h generalizing newline returns with
  | done _ => simp [returnsAtEnd, hp rfl]
  | returns hne _ ih =>
    rw [returnsAtEnd, if_pos rfl]
    exact ih fun h => absurd h hne
  | comment _ ih =>
    have hskip : returnsAtEnd false false _ = false := ih fun _ => rfl
    rw [returnsAtEnd_skipComment] at hskip
    exact hskip
  | tab _ ih => exact ih fun _ => rfl
  | newline _ ih =>
    have hskip : returnsAtEnd true false _ = false := ih fun _ => rfl
    rw [returnsAtEnd_skipLineEnds false false] at hskip
    exact hskip
  | char hc _ ih =>
    rw [returnsAtEnd, if_neg hc.returns]
    exact ih fun _ => rfl

theorem head_skipLineEnds {c : Char} {rest : List Char} (h : skipLineEnds p = c :: rest) :
    isLineEnd c = false := by
  induction p with
  | nil => cases h
  | cons d p ih =>
    by_cases hd : isLineEnd d = true
    · have hskip : skipLineEnds (d :: p) = skipLineEnds p := by
        simp [skipLineEnds, hd]
      exact ih (hskip ▸ h)
    · have hskip : skipLineEnds (d :: p) = d :: p := by
        simp [skipLineEnds, hd]
      rw [hskip] at h
      cases h
      exact Bool.not_eq_true _ ▸ hd

theorem exists_cleans_of_length {n : ℕ} (hn : p.length ≤ n) (inQuotes : Bool) {newline : Bool}
    (hnewline : newline = true → ∀ c rest, p = c :: rest → isLineEnd c = false)
    (hend : returnsAtEnd newline false p = false) : ∃ out, Cleans inQuotes p out := by
  induction n generalizing p inQuotes newline with
  | zero =>
    obtain rfl := List.eq_nil_of_length_eq_zero (Nat.le_zero.mp hn)
    exact ⟨[], .done inQuotes⟩
  | succ n ih =>
    cases p with
    | nil => exact ⟨[], .done inQuotes⟩
    | cons c p =>
      rw [List.length_cons] at hn
      by_cases hreturn : c = '\r'
      · subst hreturn
        cases newline with
        | true => exact absurd (hnewline rfl _ _ rfl) (by decide)
        | false =>
          have hne : p ≠ [] := by
            rintro rfl
            cases hend
          have hrest : returnsAtEnd false false p = false := by
            cases p with
            | nil => rfl
            | cons d p => exact hend
          obtain ⟨out, hout⟩ := ih (by omega) inQuotes (fun h => Bool.noConfusion h) hrest
          exact ⟨out, .returns hne hout⟩
      · rw [returnsAtEnd, if_neg hreturn] at hend
        by_cases hquote : c = '\'' ∧ inQuotes = false
        · obtain ⟨rfl, rfl⟩ := hquote
          have hrest : returnsAtEnd false false (skipComment p) = false := by
            rw [returnsAtEnd_skipComment]
            exact hend
          have hlength := skipComment_length p
          obtain ⟨out, hout⟩ := ih (by omega) false (fun h => Bool.noConfusion h) hrest
          exact ⟨out, .comment hout⟩
        by_cases htab : c = '\t'
        · subst htab
          obtain ⟨out, hout⟩ := ih (by omega) inQuotes (fun h => Bool.noConfusion h) hend
          exact ⟨' ' :: out, .tab hout⟩
        by_cases hnl : c = '\n'
        · subst hnl
          have hrest : returnsAtEnd true false (skipLineEnds p) = false := by
            rw [returnsAtEnd_skipLineEnds false false]
            exact hend
          have hlength := skipLineEnds_length p
          obtain ⟨out, hout⟩ := ih (by omega) inQuotes (fun _ _ _ => head_skipLineEnds) hrest
          exact ⟨'\n' :: out, .newline hout⟩
        have hplain : IsPlain inQuotes c := ⟨hreturn, hnl, htab, fun h => by
          simpa using fun hq => hquote ⟨h, hq⟩⟩
        rw [decide_eq_false hnl] at hend
        obtain ⟨out, hout⟩ :=
          ih (by omega) (toggledBy inQuotes c) (fun h => Bool.noConfusion h) hend
        exact ⟨c :: out, .char hplain hout⟩

theorem exists_cleans_iff (text : List Char) :
    (∃ out, Cleans false text out) ↔ returnsAtEnd false false text = false := by
  constructor
  · rintro ⟨out, h⟩
    exact h.returnsAtEnd_eq fun _ => rfl
  · exact exists_cleans_of_length (Nat.le_refl _) false fun h => Bool.noConfusion h

/-! ## The output -/

theorem Cleans.length_le (h : Cleans inQuotes p out) : out.length ≤ p.length := by
  induction h with
  | done _ => exact Nat.le_refl _
  | returns _ _ ih => exact Nat.le_succ_of_le ih
  | comment _ ih => exact Nat.le_succ_of_le (Nat.le_trans ih (skipComment_length _))
  | tab _ ih => exact Nat.succ_le_succ ih
  | newline _ ih => exact Nat.succ_le_succ (Nat.le_trans ih (skipLineEnds_length _))
  | char _ _ ih => exact Nat.succ_le_succ ih

theorem Cleans.noReturn (h : Cleans inQuotes p out) : '\r' ∉ out := by
  induction h with
  | done _ => exact List.not_mem_nil
  | returns _ _ ih => exact ih
  | comment _ ih => exact ih
  | tab _ ih => simp [ih]
  | newline _ ih => simp [ih]
  | char hc _ ih => simp [ih, hc.returns.symm]

theorem Cleans.noTab (h : Cleans inQuotes p out) : '\t' ∉ out := by
  induction h with
  | done _ => exact List.not_mem_nil
  | returns _ _ ih => exact ih
  | comment _ ih => exact ih
  | tab _ ih => simp [ih]
  | newline _ ih => simp [ih]
  | char hc _ ih => simp [ih, hc.tab.symm]

theorem Cleans.noComment (h : Cleans inQuotes p out) :
    hasComment (placeOf inQuotes) out = false := by
  induction h with
  | done _ => rfl
  | returns _ _ ih => exact ih
  | comment _ ih => exact ih
  | tab _ ih => simp [hasComment, next_blank, placeOf_ne_comment, ih]
  | newline _ ih => simp [hasComment, next_newline, placeOf_ne_comment, ih]
  | char hc _ ih => simp [hasComment, next_plain hc, placeOf_ne_comment, ih]

/-! ## Quoted strings -/

theorem tidied_cons (c : Char) (text : List Char) : tidied (c :: text) =
    if isLineEnd c then tidied text else (if c = '\t' then ' ' else c) :: tidied text := by
  unfold tidied
  by_cases hc : isLineEnd c = true
  · simp [hc]
  · simp [hc]

theorem tidied_quoted_lineEnd {c : Char} (hc : isLineEnd c = true) (inQuotes : Bool)
    (p : List Char) :
    tidied (quoted (placeOf inQuotes) (c :: p)) = tidied (quoted (placeOf inQuotes) p) := by
  have hnext : (placeOf inQuotes).next c = placeOf inQuotes := by
    rcases isLineEnd_iff.mp hc with rfl | rfl
    · exact next_return inQuotes
    · exact next_newline inQuotes
  rw [quoted, hnext]
  split
  · rw [tidied_cons, if_pos hc]
  · rfl

theorem tidied_quoted_skipLineEnds (inQuotes : Bool) (p : List Char) :
    tidied (quoted (placeOf inQuotes) (skipLineEnds p)) = tidied (quoted (placeOf inQuotes) p) := by
  induction p with
  | nil => rfl
  | cons c p ih =>
    by_cases hc : isLineEnd c = true
    · have hskip : skipLineEnds (c :: p) = skipLineEnds p := by
        simp [skipLineEnds, hc]
      rw [hskip, ih, tidied_quoted_lineEnd hc]
    · have hskip : skipLineEnds (c :: p) = c :: p := by
        simp [skipLineEnds, hc]
      rw [hskip]

theorem quoted_skipComment (p : List Char) : quoted .code (skipComment p) = quoted .comment p := by
  induction p with
  | nil => rfl
  | cons c p ih =>
    by_cases hc : isLineEnd c = true
    · have hskip : skipComment (c :: p) = c :: p := by
        simp [skipComment, hc]
      rw [hskip]
      rcases isLineEnd_iff.mp hc with rfl | rfl <;> rfl
    · have hskip : skipComment (c :: p) = skipComment p := by
        simp [skipComment, hc]
      rw [hskip, ih]
      simp [quoted, next, hc]

theorem Cleans.tidied_eq (h : Cleans inQuotes p out) :
    tidied (quoted (placeOf inQuotes) out) = tidied (quoted (placeOf inQuotes) p) := by
  induction h with
  | done _ => rfl
  | returns _ _ ih => rw [ih, tidied_quoted_lineEnd (by decide)]
  | @comment p out _ ih =>
    rw [ih]
    exact congrArg tidied (quoted_skipComment p)
  | tab _ ih =>
    rw [quoted, quoted, next_blank, next_tab]
    split
    · rw [tidied_cons, tidied_cons, ih]
      rfl
    · exact ih
  | newline _ ih =>
    rw [tidied_quoted_lineEnd (by decide), tidied_quoted_lineEnd (by decide), ih,
      tidied_quoted_skipLineEnds]
  | char hc _ ih =>
    rw [quoted, quoted, next_plain hc]
    split
    · rw [tidied_cons, tidied_cons, ih]
    · exact ih

/-! ## Blank lines -/

def doubled : Bool → List Char → Bool
  | _, [] => false
  | newline, c :: p => (newline && c = '\n') || doubled (c = '\n') p

theorem doubled_eq_false {newline : Bool} {text : List Char} :
    doubled newline text = false ↔ (newline = true → text.head? ≠ some '\n') ∧
      ∀ pre post, text ≠ pre ++ '\n' :: '\n' :: post := by
  induction text generalizing newline with
  | nil => simp [doubled]
  | cons c text ih =>
    rw [doubled, Bool.or_eq_false_iff, ih]
    constructor
    · rintro ⟨hfirst, hsecond, hrest⟩
      refine ⟨?_, ?_⟩
      · rintro rfl
        simpa using hfirst
      · intro pre post heq
        cases pre with
        | nil =>
          obtain ⟨rfl, rfl⟩ := List.cons.inj heq
          exact hsecond rfl rfl
        | cons d pre => exact hrest pre post (List.cons.inj heq).2
    · rintro ⟨hfirst, hrest⟩
      refine ⟨?_, ?_, fun pre post heq => hrest (c :: pre) post (by rw [heq]; rfl)⟩
      · cases newline with
        | false => rfl
        | true => simpa using hfirst rfl
      · intro hc hhead
        cases text with
        | nil => cases hhead
        | cons d text =>
          obtain rfl := Option.some.inj hhead
          obtain rfl := of_decide_eq_true hc
          exact hrest [] text rfl

theorem commentLine_skipLineEnds (inQuotes : Bool) (p : List Char) :
    commentLine (placeOf inQuotes) true false (skipLineEnds p) =
      commentLine (placeOf inQuotes) true false p := by
  induction p with
  | nil => rfl
  | cons c p ih =>
    by_cases hc : isLineEnd c = true
    · have hskip : skipLineEnds (c :: p) = skipLineEnds p := by
        simp [skipLineEnds, hc]
      rw [hskip, ih]
      rcases isLineEnd_iff.mp hc with rfl | rfl
      · simp [commentLine, next_return, placeOf_ne_comment]
      · simp [commentLine, next_newline, placeOf_ne_comment]
    · have hskip : skipLineEnds (c :: p) = c :: p := by
        simp [skipLineEnds, hc]
      rw [hskip]

theorem commentLine_skipComment (fresh : Bool) (p : List Char) :
    commentLine .code fresh true (skipComment p) = commentLine .comment fresh true p := by
  induction p with
  | nil => rfl
  | cons c p ih =>
    by_cases hc : isLineEnd c = true
    · have hskip : skipComment (c :: p) = c :: p := by
        simp [skipComment, hc]
      rw [hskip]
      rcases isLineEnd_iff.mp hc with rfl | rfl <;> rfl
    · have hskip : skipComment (c :: p) = skipComment p := by
        simp [skipComment, hc]
      rw [hskip, ih]
      simp [commentLine, next, hc]

theorem Cleans.doubled_eq (h : Cleans inQuotes p out) {fresh commented : Bool}
    (hfresh : fresh = true → commented = false → ∀ c rest, p = c :: rest → isLineEnd c = false) :
    doubled fresh out = commentLine (placeOf inQuotes) fresh commented p := by
  induction h generalizing fresh commented with
  | done _ => rfl
  | @returns inQuotes p out _ _ ih =>
    have hline : commentLine (placeOf inQuotes) fresh commented ('\r' :: p) =
        commentLine (placeOf inQuotes) fresh commented p := by
      simp [commentLine, next_return, placeOf_ne_comment]
    rw [hline]
    exact ih fun hf hcom => absurd (hfresh hf hcom _ _ rfl) (by decide)
  | @comment p out _ ih =>
    have hskip : doubled fresh out = commentLine _ fresh true (skipComment p) :=
      ih fun _ h => Bool.noConfusion h
    exact hskip.trans (commentLine_skipComment fresh p)
  | @tab inQuotes p out _ ih =>
    have hline : commentLine (placeOf inQuotes) fresh commented ('\t' :: p) =
        commentLine (placeOf inQuotes) false false p := by
      simp [commentLine, next_tab, placeOf_ne_comment]
    rw [hline, ← ih fun h => Bool.noConfusion h]
    simp [doubled]
  | @newline inQuotes p out _ ih =>
    have hline : commentLine (placeOf inQuotes) fresh commented ('\n' :: p) =
        (fresh && commented || commentLine (placeOf inQuotes) true false p) := by
      simp [commentLine, next_newline, placeOf_ne_comment]
    have hcommented : fresh = (fresh && commented) := by
      cases fresh with
      | false => rfl
      | true =>
        cases commented with
        | true => rfl
        | false => exact absurd (hfresh rfl rfl _ _ rfl) (by decide)
    have hrest : doubled true out = commentLine _ true false (skipLineEnds p) :=
      ih fun _ _ _ _ => head_skipLineEnds
    rw [hline, ← commentLine_skipLineEnds, ← hrest, ← hcommented]
    simp [doubled]
  | @char inQuotes c p out hc _ ih =>
    have hline : commentLine (placeOf inQuotes) fresh commented (c :: p) =
        commentLine (placeOf (toggledBy inQuotes c)) false false p := by
      simp [commentLine, next_plain hc, placeOf_ne_comment, hc.newline, hc.returns]
    rw [hline, ← ih fun h => Bool.noConfusion h]
    simp [doubled, hc.newline]

/-! ## Clean texts -/

theorem cleans_self {newline : Bool} (hreturn : '\r' ∉ p) (htab : '\t' ∉ p)
    (hcomment : hasComment (placeOf inQuotes) p = false) (hdoubled : doubled newline p = false) :
    Cleans inQuotes p p := by
  induction p generalizing inQuotes newline with
  | nil => exact .done inQuotes
  | cons c p ih =>
    rw [List.mem_cons, not_or] at hreturn htab
    rw [hasComment, Bool.or_eq_false_iff] at hcomment
    rw [doubled, Bool.or_eq_false_iff] at hdoubled
    by_cases hnl : c = '\n'
    · subst hnl
      have hrest : Cleans inQuotes p p := by
        apply ih hreturn.2 htab.2 _ hdoubled.2
        rw [← next_newline inQuotes]
        exact hcomment.2
      have hskip : skipLineEnds p = p := by
        cases p with
        | nil => rfl
        | cons d p =>
          have hd : d ≠ '\r' := fun h => hreturn.2 (h ▸ List.mem_cons_self)
          have hd' : d ≠ '\n' := by
            rintro rfl
            simp [doubled] at hdoubled
          simp [skipLineEnds, isLineEnd, hd, hd']
      apply Cleans.newline
      rwa [hskip]
    · have hplain : IsPlain inQuotes c := by
        refine ⟨Ne.symm hreturn.1, hnl, Ne.symm htab.1, ?_⟩
        rintro rfl
        cases inQuotes with
        | true => rfl
        | false => exact absurd hcomment.1 (by decide)
      apply Cleans.char hplain
      apply ih hreturn.2 htab.2 _ hdoubled.2
      rw [← next_plain hplain]
      exact hcomment.2

/-! ## Normalisation -/

/-- A text is brought into normal form exactly if it does not end with carriage returns behind
something else than a newline, and no line behind its first one holds nothing but a comment. -/
theorem normalises_iff (text : List Char) : Normalises text ↔
    returnsAtEnd false false text = false ∧ commentLine .code false false text = false := by
  constructor
  · rintro ⟨out, hout, -, hclean, -⟩
    have hcleans := cleanBasic_eq_some.mp hout
    refine ⟨(exists_cleans_iff text).mp ⟨out, hcleans⟩, ?_⟩
    have hline : doubled false out = commentLine .code false false text :=
      hcleans.doubled_eq fun h => Bool.noConfusion h
    exact hline.symm.trans (doubled_eq_false.mpr ⟨fun h => Bool.noConfusion h, hclean.noBlankLine⟩)
  · rintro ⟨hend, hline⟩
    obtain ⟨out, hcleans⟩ := (exists_cleans_iff text).mpr hend
    have hdoubled : doubled false out = false := by
      have hsame : doubled false out = commentLine .code false false text :=
        hcleans.doubled_eq fun h => Bool.noConfusion h
      exact hsame.trans hline
    have hclean : IsClean out :=
      ⟨hcleans.noReturn, hcleans.noTab, hcleans.noComment, (doubled_eq_false.mp hdoubled).2⟩
    have hself : Cleans false out out :=
      cleans_self hclean.noReturn hclean.noTab hclean.noComment hdoubled
    exact ⟨out, cleanBasic_eq_some.mpr hcleans, hcleans.length_le, hclean,
      cleanBasic_eq_some.mpr hself, hcleans.tidied_eq⟩

/-- A single carriage return behind the last line, and a comment between two lines. -/
theorem cleanBasic_not_normal : ¬ Normalises "END\r".toList ∧
    cleanBasic "A\n'x\nB".toList = some "A\n\nB".toList ∧ ¬ Normalises "A\n'x\nB".toList := by
  have hreturn : cleanBasic "END\r".toList = none := by decide
  have hcomment : cleanBasic "A\n'x\nB".toList = some "A\n\nB".toList := by decide
  refine ⟨?_, hcomment, ?_⟩
  · rintro ⟨out, hout, -⟩
    cases hreturn.symm.trans hout
  · rintro ⟨out, hout, -, hclean, -⟩
    obtain rfl := Option.some.inj (hcomment.symm.trans hout)
    exact hclean.noBlankLine ['A'] ['B'] rfl

end RetroRocket
