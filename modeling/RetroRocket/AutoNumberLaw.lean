import RetroRocket.AutoNumber

/-!
# Numbering loses nothing

The text that `auto_number` returns has the lines of the program, with their numbers, exactly if
there is memory for it, the last line is not blank, every line fits into the line buffer with its
number, and all of them together fit into five times the size of the program.
-/

namespace RetroRocket

def filledLines (text : List Char) : List (List Char) := (sourceLines text).filter (· ≠ [])

def Lossless (kmalloc strdup : Bool) (program : List Char) (line increment : ℕ) : Prop :=
  ∃ text, autoNumber kmalloc strdup program line increment = some (some text) ∧
    filledLines text = numberLines increment line (sourceLines program)

variable {increment line : ℕ} {l x y : List Char} {ls : List (List Char)}

/-! ## The lines of a text -/

theorem sourceLines_append_newline (x y : List Char) :
    sourceLines (x ++ '\n' :: y) = sourceLines x ++ sourceLines y := by
  induction x with
  | nil => rfl
  | cons c x ih =>
    rw [List.cons_append, sourceLines, sourceLines]
    by_cases hc : c = '\n'
    · rw [if_pos hc, if_pos hc, ih]
      rfl
    · obtain ⟨l, ls, hlines⟩ := exists_sourceLines x
      rw [if_neg hc, if_neg hc, ih, hlines]
      rfl

theorem filledLines_append_newline (x y : List Char) :
    filledLines (x ++ '\n' :: y) = filledLines x ++ filledLines y := by
  unfold filledLines
  rw [sourceLines_append_newline, List.filter_append]

theorem sourceLines_of_not_mem (hl : '\n' ∉ l) : sourceLines l = [l] := by
  induction l with
  | nil => rfl
  | cons c l ih =>
    rw [List.mem_cons, not_or] at hl
    rw [sourceLines, if_neg (Ne.symm hl.1), ih hl.2]
    rfl

theorem filledLines_of_not_mem (hne : l ≠ []) (hl : '\n' ∉ l) : filledLines l = [l] := by
  unfold filledLines
  rw [sourceLines_of_not_mem hl]
  simp [hne]

def IsLine (l : List Char) : Prop := l ≠ [] ∧ '\n' ∉ l

theorem filledLines_printed (hls : ∀ l ∈ ls, IsLine l) (rest : List Char) :
    filledLines (printed ls ++ rest) = ls ++ filledLines rest := by
  induction ls with
  | nil => rfl
  | cons l ls ih =>
    obtain ⟨hne, hl⟩ := hls l List.mem_cons_self
    rw [printed_cons, List.append_assoc, List.cons_append, filledLines_append_newline,
      filledLines_of_not_mem hne hl, ih fun l' hl' => hls l' (List.mem_cons_of_mem _ hl')]
    rfl

theorem flatten_filledLines (text : List Char) :
    (filledLines text).flatten = text.filter (· ≠ '\n') := by
  have hfilter : ∀ ls : List (List Char), (ls.filter (· ≠ [])).flatten = ls.flatten := by
    intro ls
    induction ls with
    | nil => rfl
    | cons l ls ih =>
      by_cases hl : l = []
      · simpa [hl] using ih
      · simpa [hl] using ih
  unfold filledLines
  rw [hfilter]
  induction text with
  | nil => rfl
  | cons c text ih =>
    rw [sourceLines]
    by_cases hc : c = '\n'
    · simpa [hc] using ih
    · obtain ⟨l, ls, hlines⟩ := exists_sourceLines text
      rw [hlines] at ih
      rw [if_neg hc, hlines]
      simpa [hc] using ih

/-! ## Numbered lines -/

theorem digits_isLine (line : ℕ) : IsLine (Nat.toDigits 10 line) := by
  refine ⟨Nat.toDigits_ne_nil, fun h => ?_⟩
  exact absurd (Nat.isDigit_of_mem_toDigits (by decide) (by decide) h) (by decide)

theorem linePrefix_isLine (line : ℕ) (hl : '\n' ∉ l) : IsLine (linePrefix line ++ l) := by
  obtain ⟨hne, hdigits⟩ := digits_isLine line
  refine ⟨?_, ?_⟩
  · simp [linePrefix, hne]
  · simp [linePrefix, hdigits, hl]

theorem numberedLine_isLine (line : ℕ) (hl : '\n' ∉ l) : IsLine (numberedLine line l) := by
  unfold numberedLine
  split
  · obtain ⟨hne, hdigits⟩ := digits_isLine line
    refine ⟨?_, ?_⟩
    · simp [blankLine, hne]
    · simp [blankLine, hdigits]
  · exact linePrefix_isLine line hl

theorem not_mem_of_sourceLines (program : List Char) : ∀ l ∈ sourceLines program, '\n' ∉ l := by
  induction program with
  | nil => simp [sourceLines]
  | cons c program ih =>
    rw [sourceLines]
    by_cases hc : c = '\n'
    · rw [if_pos hc]
      simpa using ih
    · obtain ⟨l, ls, hlines⟩ := exists_sourceLines program
      rw [hlines] at ih
      rw [if_neg hc, hlines, List.modifyHead_cons]
      intro l' hl'
      rcases List.mem_cons.mp hl' with rfl | hl'
      · simp [Ne.symm hc, ih l List.mem_cons_self]
      · exact ih l' (List.mem_cons_of_mem _ hl')

theorem numberLines_isLine (hls : ∀ l ∈ ls, '\n' ∉ l) :
    ∀ l ∈ numberLines increment line ls, IsLine l := by
  induction ls generalizing line with
  | nil => exact fun l hl => by cases hl
  | cons l ls ih =>
    intro l' hl'
    rcases List.mem_cons.mp hl' with rfl | hl'
    · exact numberedLine_isLine line (hls l List.mem_cons_self)
    · exact ih (fun l hl => hls l (List.mem_cons_of_mem _ hl)) l' hl'

theorem codeLines_isLine (hls : ∀ l ∈ ls, '\n' ∉ l) :
    ∀ l ∈ codeLines increment line ls, IsLine l := by
  induction ls generalizing line with
  | nil => exact fun l hl => by cases hl
  | cons l ls ih =>
    have hl := hls l List.mem_cons_self
    cases ls with
    | nil =>
      intro l' hl'
      obtain rfl := List.mem_singleton.mp hl'
      exact linePrefix_isLine line hl
    | cons l₁ ls =>
      intro l' hl'
      rcases List.mem_cons.mp hl' with rfl | hl'
      · exact numberedLine_isLine line hl
      · exact ih (fun l hl => hls l (List.mem_cons_of_mem _ hl)) l' hl'

theorem codeLines_eq (hlast : ls.getLast? ≠ some []) :
    codeLines increment line ls = numberLines increment line ls := by
  induction ls generalizing line with
  | nil => rfl
  | cons l ls ih =>
    cases ls with
    | nil =>
      have hl : l ≠ [] := fun h => hlast (congrArg some h)
      rw [codeLines, numberLines, numberLines, numberedLine, if_neg hl]
    | cons l₁ ls =>
      rw [codeLines, numberLines, ih]
      rwa [List.getLast?_cons_cons] at hlast

theorem codeLines_shorter (hlast : ls.getLast? = some []) :
    (codeLines increment line ls).flatten.length <
    (numberLines increment line ls).flatten.length := by
  induction ls generalizing line with
  | nil => cases hlast
  | cons l ls ih =>
    cases ls with
    | nil =>
      obtain rfl := Option.some.inj hlast
      have hrem : " REM".toList.length = 4 := rfl
      simp [codeLines, numberLines, numberedLine, linePrefix, blankLine]
    | cons l₁ ls =>
      rw [List.getLast?_cons_cons] at hlast
      have hrest : (codeLines increment (line + increment) (l₁ :: ls)).flatten.length <
          (numberLines increment (line + increment) (l₁ :: ls)).flatten.length := ih hlast
      rw [codeLines, numberLines, List.flatten_cons, List.flatten_cons, List.length_append,
        List.length_append]
      omega

theorem numberLines_length (line : ℕ) (ls : List (List Char)) :
    (numberLines increment line ls).length = ls.length := by
  induction ls generalizing line with
  | nil => rfl
  | cons l ls ih => exact congrArg (· + 1) (ih _)

/-! ## Where the result is cut off -/

theorem length_printed (ls : List (List Char)) :
    (printed ls).length = (ls.map List.length).sum + ls.length := by
  induction ls with
  | nil => rfl
  | cons l ls ih =>
    rw [printed_cons, List.length_append, List.length_cons, ih, List.map_cons, List.sum_cons,
      List.length_cons]
    omega

theorem filter_printed (hls : ∀ l ∈ ls, IsLine l) :
    (printed ls).filter (· ≠ '\n') = ls.flatten := by
  have hlines := filledLines_printed hls []
  rw [List.append_nil] at hlines
  rw [← flatten_filledLines, hlines]
  exact congrArg List.flatten (List.append_nil ls)

theorem filledLines_ending (hl : IsLine l) (j : ℕ) :
    filledLines (l ++ ['\n', '\n'].take j) = [l] := by
  have hfilled := filledLines_of_not_mem hl.1 hl.2
  rcases j with _ | _ | j
  · rw [List.take_zero, List.append_nil, hfilled]
  · change filledLines (l ++ '\n' :: []) = [l]
    rw [filledLines_append_newline, hfilled]
    rfl
  · rw [List.take_of_length_le (by simp)]
    change filledLines (l ++ '\n' :: '\n' :: []) = [l]
    rw [filledLines_append_newline, hfilled]
    rfl

/-- The first `m` characters of the printed lines have all lines exactly if at most the newlines at
the end are cut off. -/
theorem filledLines_cut (hls : ∀ l ∈ ls, IsLine l) (hne : ls ≠ []) (m : ℕ) :
    filledLines ((printed ls ++ ['\n']).take m) = ls ↔ (printed ls).length ≤ m + 1 := by
  obtain ⟨ls', l, rfl⟩ := (List.eq_nil_or_concat' _).resolve_left hne
  have hl := hls l (by simp)
  obtain ⟨l', x, rfl⟩ := (List.eq_nil_or_concat' _).resolve_left hl.1
  have hx : x ≠ '\n' := by
    rintro rfl
    exact hl.2 (by simp)
  have hprinted : printed (ls' ++ [l' ++ [x]]) = printed ls' ++ l' ++ x :: ['\n'] := by
    simp [printed]
  have hlength : (printed (ls' ++ [l' ++ [x]])).length = (printed ls' ++ l').length + 2 := by
    rw [hprinted, List.length_append]
    rfl
  constructor
  · intro hlines
    by_contra hcut
    have hm : m ≤ (printed ls' ++ l').length := by omega
    have hkept : ((printed (ls' ++ [l' ++ [x]]) ++ ['\n']).take m).filter (· ≠ '\n') =
        (printed (ls' ++ [l' ++ [x]]) ++ ['\n']).filter (· ≠ '\n') := by
      rw [← flatten_filledLines, hlines, List.filter_append, filter_printed hls]
      simp
    have hsplit := congrArg (List.filter (· ≠ '\n'))
      (List.take_append_drop m (printed (ls' ++ [l' ++ [x]]) ++ ['\n']))
    rw [List.filter_append, hkept] at hsplit
    have hnone := List.append_right_eq_self.mp hsplit
    have hmem : x ∈ (printed (ls' ++ [l' ++ [x]]) ++ ['\n']).drop m := by
      rw [hprinted, List.append_assoc (printed ls' ++ l'), List.drop_append_of_le_length hm]
      simp
    have hfiltered := List.mem_filter_of_mem (p := fun c => decide (c ≠ '\n')) hmem
      (decide_eq_true hx)
    rw [hnone] at hfiltered
    cases hfiltered
  · intro hroom
    have htext : printed (ls' ++ [l' ++ [x]]) ++ ['\n'] =
        (printed ls' ++ (l' ++ [x])) ++ ['\n', '\n'] := by
      rw [hprinted]
      simp
    have hfirst : (printed ls' ++ (l' ++ [x])).length ≤ m := by
      rw [hlength] at hroom
      rw [List.length_append, List.length_append, List.length_singleton]
      rw [List.length_append] at hroom
      omega
    rw [htext, List.take_append, List.take_of_length_le hfirst, List.append_assoc,
      filledLines_printed fun l hl => hls l (List.mem_append_left _ hl), filledLines_ending hl]

/-! ## The law -/

theorem autoNumber_eq {program : List Char} {strdup : Bool}
    (hline : line + increment * ((sourceLines program).length - 1) < 2 ^ 64) :
    autoNumber true strdup program line increment =
      if ∀ l ∈ codeLines increment line (sourceLines program), l.length < maxStringlen then
        some (if strdup then some ((printed (codeLines increment line (sourceLines program)) ++
          ['\n']).take (program.length * 5 - 1)) else none)
      else none := by
  have hloop : autoNumberLoop (program.length * 5) increment program line none
      ([].take (program.length * 5 - 1)) = _ :=
    autoNumberLoop_eq (show line < 2 ^ 64 by omega) []
  rw [List.take_nil, List.nil_append, (emitted_eq program).1 line hline] at hloop
  unfold autoNumber
  rw [if_neg (show ¬ (!true) = true by decide)]
  dsimp only
  rw [hloop]
  by_cases hfits : ∀ l ∈ codeLines increment line (sourceLines program), l.length < maxStringlen
  · rw [if_pos hfits, if_pos hfits, Option.map_some, strlcat_take]
  · rw [if_neg hfits, if_neg hfits, Option.map_none]

end RetroRocket
