import Mathlib.Algebra.BigOperators.Group.List.Basic
import RetroRocket.Bits

/-!
# Numbering the lines of a program

`auto_number` gives the lines of an unnumbered text their numbers. It takes room for five times the
text, and `strlcat` cuts off what does not fit; the current line is put together in a buffer of
`maxStringlen` bytes without a look at its size. The last line ends at the NUL, and gets its number
without a `REM` also where it is blank.
-/

namespace RetroRocket

def maxStringlen : ℕ := 10240

/-- `strlcat`, for a string that is shorter than `siz`. -/
def strlcat (dst src : List Char) (siz : ℕ) : List Char := dst ++ src.take (siz - dst.length - 1)

/-- The format `%lu `. -/
def linePrefix (line : ℕ) : List Char := Nat.toDigits 10 line ++ [' ']

/-- The format `%lu REM`. -/
def blankLine (line : ℕ) : List Char := Nat.toDigits 10 line ++ " REM".toList

/-- The loop of `auto_number` on the rest of the text. `buffer` is the contents of `line_buffer`, if
a line has been started. There is no result when a line leaves its buffer. -/
def autoNumberLoop (newSizeMax increment : ℕ) :
    List Char → ℕ → Option (List Char) → List Char → Option (List Char)
  | [], line, buffer, newprog =>
    let buffer := buffer.getD (linePrefix line)
    if maxStringlen ≤ buffer.length then none
    else some (strlcat (strlcat newprog buffer newSizeMax) ['\n'] newSizeMax)
  | c :: program, line, buffer, newprog =>
    if c = '\n' ∧ buffer.isNone then
      let newprog := strlcat (strlcat newprog (blankLine line) newSizeMax) ['\n'] newSizeMax
      autoNumberLoop newSizeMax increment program (u64 (line + increment)) none newprog
    else
      let line' := if buffer.isNone then u64 (line + increment) else line
      let buffer := buffer.getD (linePrefix line)
      if maxStringlen ≤ buffer.length then none
      else if c = '\n' then
        let newprog := strlcat (strlcat newprog buffer newSizeMax) ['\n'] newSizeMax
        autoNumberLoop newSizeMax increment program line' none newprog
      else autoNumberLoop newSizeMax increment program line' (some (buffer ++ [c])) newprog

/-- `auto_number`, with the answers of `kmalloc` and `strdup`. A null pointer is `some none`. -/
def autoNumber (kmalloc strdup : Bool) (program : List Char) (line increment : ℕ) :
    Option (Option (List Char)) :=
  if !kmalloc then some none
  else
    let newSizeMax := program.length * 5
    (autoNumberLoop newSizeMax increment program line none []).map fun newprog =>
      if strdup then some (strlcat newprog ['\n'] newSizeMax) else none

/-! ## Lines -/

def sourceLines : List Char → List (List Char)
  | [] => [[]]
  | c :: p => if c = '\n' then [] :: sourceLines p else (sourceLines p).modifyHead (c :: ·)

def numberedLine (line : ℕ) (l : List Char) : List Char :=
  if l = [] then blankLine line else linePrefix line ++ l

def numberLines (increment : ℕ) : ℕ → List (List Char) → List (List Char)
  | _, [] => []
  | line, l :: ls => numberedLine line l :: numberLines increment (line + increment) ls

example : autoNumber true true "A\n\nB".toList 10 10 =
    some (some "10 A\n20 REM\n30 B\n\n".toList) := by decide

/-! ## What the loop prints -/

def emitted (increment : ℕ) : List Char → ℕ → Option (List Char) → List (List Char)
  | [], line, buffer => [buffer.getD (linePrefix line)]
  | c :: program, line, buffer =>
    if c = '\n' ∧ buffer.isNone then
      blankLine line :: emitted increment program (u64 (line + increment)) none
    else
      let line' := if buffer.isNone then u64 (line + increment) else line
      let buffer := buffer.getD (linePrefix line)
      if c = '\n' then buffer :: emitted increment program line' none
      else emitted increment program line' (some (buffer ++ [c]))

def printed (lines : List (List Char)) : List Char := lines.flatMap (· ++ ['\n'])

variable {increment line size : ℕ} {program : List Char} {buffer : Option (List Char)}

@[simp] theorem printed_cons (l : List Char) (ls : List (List Char)) :
    printed (l :: ls) = l ++ '\n' :: printed ls := by
  simp [printed]

theorem strlcat_take (out src : List Char) (size : ℕ) :
    strlcat (out.take (size - 1)) src size = (out ++ src).take (size - 1) := by
  unfold strlcat
  rw [List.take_append, List.length_take]
  congr 2
  omega

theorem blankLine_length (hline : line < 2 ^ 64) : (blankLine line).length < maxStringlen := by
  have hdigits : (Nat.toDigits 10 line).length ≤ 20 :=
    (Nat.length_toDigits_le_iff (by decide) (by decide)).mpr (hline.trans (by decide))
  have hrem : " REM".toList.length = 4 := rfl
  unfold blankLine maxStringlen
  rw [List.length_append, hrem]
  omega

theorem exists_emitted_of_buffer (increment : ℕ) (program : List Char) (line : ℕ)
    (buffer : List Char) : ∃ l ∈ emitted increment program line (some buffer),
      buffer.length ≤ l.length := by
  induction program generalizing buffer with
  | nil => exact ⟨buffer, List.mem_singleton_self _, Nat.le_refl _⟩
  | cons c program ih =>
    rw [emitted, if_neg (by simp)]
    dsimp only
    by_cases hc : c = '\n'
    · rw [if_pos hc]
      exact ⟨buffer, List.mem_cons_self, Nat.le_refl _⟩
    · rw [if_neg hc]
      obtain ⟨l, hl, hle⟩ := ih (buffer ++ [c])
      rw [List.length_append] at hle
      exact ⟨l, hl, by omega⟩

theorem autoNumberLoop_eq (hline : line < 2 ^ 64) (out : List Char) :
    autoNumberLoop size increment program line buffer (out.take (size - 1)) =
      if ∀ l ∈ emitted increment program line buffer, l.length < maxStringlen then
        some ((out ++ printed (emitted increment program line buffer)).take (size - 1))
      else none := by
  induction program generalizing line buffer out with
  | nil =>
    rw [autoNumberLoop, emitted, strlcat_take, strlcat_take]
    by_cases hlong : maxStringlen ≤ (buffer.getD (linePrefix line)).length
    · rw [if_pos hlong, if_neg]
      intro h
      exact absurd (h _ (List.mem_singleton_self _)) (Nat.not_lt_of_le hlong)
    · rw [if_neg hlong, if_pos]
      · simp [printed]
      · intro l hl
        obtain rfl := List.mem_singleton.mp hl
        exact Nat.lt_of_not_le hlong
  | cons c program ih =>
    rw [autoNumberLoop, emitted]
    by_cases hblank : c = '\n' ∧ buffer.isNone = true
    · rw [if_pos hblank, if_pos hblank, strlcat_take, strlcat_take, ih (u64_lt _)]
      simp [blankLine_length hline]
    · rw [if_neg hblank, if_neg hblank]
      have hnext : (if buffer.isNone then u64 (line + increment) else line) < 2 ^ 64 := by
        split
        · exact u64_lt _
        · exact hline
      dsimp only
      by_cases hlong : maxStringlen ≤ (buffer.getD (linePrefix line)).length
      · rw [if_pos hlong, if_neg]
        intro h
        by_cases hc : c = '\n'
        · rw [if_pos hc] at h
          exact absurd (h _ List.mem_cons_self) (Nat.not_lt_of_le hlong)
        · rw [if_neg hc] at h
          obtain ⟨l, hl, hle⟩ := exists_emitted_of_buffer increment program
            (if buffer.isNone then u64 (line + increment) else line)
            (buffer.getD (linePrefix line) ++ [c])
          have hlt := h l hl
          rw [List.length_append] at hle
          omega
      · rw [if_neg hlong]
        by_cases hc : c = '\n'
        · rw [if_pos hc, if_pos hc, strlcat_take, strlcat_take, ih hnext]
          simp [Nat.lt_of_not_le hlong]
        · rw [if_neg hc, if_neg hc, ih hnext]

/-! ## The numbers -/

/-- What the loop makes of the lines of a text: all of them with their numbers, but the last one is
not taken for a blank line. -/
def codeLines (increment : ℕ) : ℕ → List (List Char) → List (List Char)
  | _, [] => []
  | line, [l] => [linePrefix line ++ l]
  | line, l :: l' :: ls => numberedLine line l :: codeLines increment (line + increment) (l' :: ls)

theorem codeLines_cons {l : List Char} (hl : l ≠ []) (line : ℕ) (ls : List (List Char)) :
    codeLines increment line (l :: ls) =
      (linePrefix line ++ l) :: codeLines increment (line + increment) ls := by
  cases ls with
  | nil => rfl
  | cons l' ls =>
    rw [codeLines, numberedLine, if_neg hl]

theorem exists_sourceLines (p : List Char) : ∃ l ls, sourceLines p = l :: ls := by
  induction p with
  | nil => exact ⟨[], [], rfl⟩
  | cons c p ih =>
    obtain ⟨l, ls, h⟩ := ih
    rw [sourceLines]
    split
    · exact ⟨[], _, rfl⟩
    · exact ⟨c :: l, ls, by rw [h]; rfl⟩

theorem emitted_eq (program : List Char) :
    (∀ line, line + increment * ((sourceLines program).length - 1) < 2 ^ 64 →
      emitted increment program line none = codeLines increment line (sourceLines program)) ∧
    ∀ line buffer l ls, sourceLines program = l :: ls →
      (ls ≠ [] → line + increment * (ls.length - 1) < 2 ^ 64) →
      emitted increment program line (some buffer) =
        (buffer ++ l) :: codeLines increment line ls := by
  induction program with
  | nil =>
    refine ⟨fun line _ => ?_, fun line buffer l ls h _ => ?_⟩
    · simp [emitted, sourceLines, codeLines]
    · cases h
      simp [emitted, codeLines]
  | cons c program ih =>
    obtain ⟨ihNone, ihSome⟩ := ih
    obtain ⟨l₀, ls₀, hlines⟩ := exists_sourceLines program
    by_cases hc : c = '\n'
    · subst hc
      have hsource : sourceLines ('\n' :: program) = [] :: sourceLines program := if_pos rfl
      refine ⟨fun line hline => ?_, fun line buffer l ls h hline => ?_⟩
      · rw [hsource, hlines, List.length_cons, List.length_cons, Nat.add_sub_cancel,
          Nat.mul_succ] at hline
        have hnext : u64 (line + increment) = line + increment := u64_of_lt (by omega)
        rw [emitted, if_pos ⟨rfl, rfl⟩, hnext, hsource]
        rw [ihNone (line + increment) (by rw [hlines, List.length_cons, Nat.add_sub_cancel]; omega),
          hlines]
        rfl
      · rw [hsource] at h
        obtain ⟨rfl, rfl⟩ := List.cons.inj h
        have hne : sourceLines program ≠ [] := by
          rw [hlines]
          exact List.cons_ne_nil _ _
        rw [emitted, if_neg (by simp)]
        dsimp only
        rw [if_pos rfl, List.append_nil]
        exact congrArg (buffer :: ·) (ihNone line (hline hne))
    · have hsource : sourceLines (c :: program) = (c :: l₀) :: ls₀ := by
        rw [sourceLines, if_neg hc, hlines]
        rfl
      refine ⟨fun line hline => ?_, fun line buffer l ls h hline => ?_⟩
      · rw [hsource, List.length_cons, Nat.add_sub_cancel] at hline
        rw [hsource, codeLines_cons (List.cons_ne_nil _ _), emitted, if_neg (by simp [hc])]
        dsimp only
        rw [if_neg hc]
        cases ls₀ with
        | nil =>
          rw [ihSome _ _ l₀ [] hlines (fun h => absurd rfl h)]
          simp [codeLines]
        | cons l₁ ls₀ =>
          rw [List.length_cons, Nat.mul_succ] at hline
          have hnext : u64 (line + increment) = line + increment := u64_of_lt (by omega)
          rw [ihSome _ _ l₀ (l₁ :: ls₀) hlines fun _ => by
            rw [List.length_cons, Nat.add_sub_cancel]
            change u64 (line + increment) + increment * ls₀.length < 2 ^ 64
            rw [hnext]
            omega]
          change (linePrefix line ++ [c] ++ l₀) :: codeLines increment
            (u64 (line + increment)) _ = _
          rw [hnext, List.append_assoc]
          rfl
      · rw [hsource] at h
        obtain ⟨rfl, rfl⟩ := List.cons.inj h
        rw [emitted, if_neg (by simp)]
        dsimp only
        rw [if_neg hc, Option.isNone_some, if_neg Bool.false_ne_true, Option.getD_some,
          ihSome line _ l₀ ls₀ hlines hline, List.append_assoc]
        rfl

end RetroRocket
