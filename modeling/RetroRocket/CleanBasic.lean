import Mathlib.Data.List.Basic
import Mathlib.Tactic.Common

/-!
# Source texts in normal form

`clean_basic` brings the text of a program into normal form. A pointer into the text is the rest of
the text, and the empty rest is the NUL at its end. `Cleans` says what the loop makes of a text, one
character or comment at a time.
-/

namespace RetroRocket

/-! ## The loop -/

def skipReturns (p : List Char) : List Char := p.dropWhile (· = '\r')

def isLineEnd (c : Char) : Bool := c = '\r' ∨ c = '\n'

def skipComment (p : List Char) : List Char := p.dropWhile fun c => !isLineEnd c

def skipLineEnds (p : List Char) : List Char := p.dropWhile isLineEnd

/-- The loop of `clean_basic`, with its output. It has no result when it reads behind the NUL. -/
def cleanLoop : ℕ → Bool → List Char → Option (List Char)
  | 0, _, _ => none
  | fuel + 1, inQuotes, p =>
    if p = [] then some []
    else
      match skipReturns p with
      | [] => none
      | c :: rest =>
        let toggled := if c = '"' then !inQuotes else inQuotes
        if c = '\'' ∧ !inQuotes then cleanLoop fuel inQuotes (skipComment (c :: rest))
        else if c = '\t' then (cleanLoop fuel inQuotes rest).map (' ' :: ·)
        else
          let rest := if isLineEnd c then skipLineEnds rest else rest
          (cleanLoop fuel toggled rest).map (c :: ·)

/-- `clean_basic`. Each turn takes a character or a comment. -/
def cleanBasic (program : List Char) : Option (List Char) :=
  cleanLoop (program.length + 1) false program

example : cleanBasic "10 A\t'c\r\n20 \"'\"\n\n".toList = some "10 A \n20 \"'\"\n".toList := by
  decide

/-! ## The loop as a relation -/

structure IsPlain (inQuotes : Bool) (c : Char) : Prop where
  returns : c ≠ '\r'
  newline : c ≠ '\n'
  tab : c ≠ '\t'
  comment : c = '\'' → inQuotes = true

def toggledBy (inQuotes : Bool) (c : Char) : Bool := if c = '"' then !inQuotes else inQuotes

inductive Cleans : Bool → List Char → List Char → Prop
  | done (inQuotes : Bool) : Cleans inQuotes [] []
  | returns {inQuotes : Bool} {p out : List Char} (hp : p ≠ []) (h : Cleans inQuotes p out) :
      Cleans inQuotes ('\r' :: p) out
  | comment {p out : List Char} (h : Cleans false (skipComment p) out) :
      Cleans false ('\'' :: p) out
  | tab {inQuotes : Bool} {p out : List Char} (h : Cleans inQuotes p out) :
      Cleans inQuotes ('\t' :: p) (' ' :: out)
  | newline {inQuotes : Bool} {p out : List Char} (h : Cleans inQuotes (skipLineEnds p) out) :
      Cleans inQuotes ('\n' :: p) ('\n' :: out)
  | char {inQuotes : Bool} {c : Char} {p out : List Char} (hc : IsPlain inQuotes c)
      (h : Cleans (toggledBy inQuotes c) p out) : Cleans inQuotes (c :: p) (c :: out)

theorem skipComment_length (p : List Char) : (skipComment p).length ≤ p.length :=
  (List.dropWhile_suffix _).length_le

theorem skipLineEnds_length (p : List Char) : (skipLineEnds p).length ≤ p.length :=
  (List.dropWhile_suffix _).length_le

@[simp] theorem skipReturns_return (p : List Char) : skipReturns ('\r' :: p) = skipReturns p := by
  simp [skipReturns]

theorem skipReturns_cons {c : Char} (hc : c ≠ '\r') (p : List Char) :
    skipReturns (c :: p) = c :: p := by
  simp [skipReturns, hc]

@[simp] theorem skipComment_quote (p : List Char) : skipComment ('\'' :: p) = skipComment p := by
  simp [skipComment, isLineEnd]

theorem isLineEnd_iff {c : Char} : isLineEnd c = true ↔ c = '\r' ∨ c = '\n' := by
  simp [isLineEnd]

theorem head_ne_of_skipReturns {c : Char} {p rest : List Char} (h : skipReturns p = c :: rest) :
    c ≠ '\r' := by
  induction p with
  | nil => cases h
  | cons d p ih =>
    by_cases hd : d = '\r'
    · subst hd
      rw [skipReturns_return] at h
      exact ih h
    · rw [skipReturns_cons hd] at h
      cases h
      exact hd

theorem Cleans.of_skipReturns {inQuotes : Bool} {p out : List Char} (hp : skipReturns p ≠ [])
    (h : Cleans inQuotes (skipReturns p) out) : Cleans inQuotes p out := by
  induction p with
  | nil => exact absurd rfl hp
  | cons c p ih =>
    by_cases hc : c = '\r'
    · subst hc
      rw [skipReturns_return] at hp h
      have hne : p ≠ [] := by
        rintro rfl
        exact hp rfl
      exact .returns hne (ih hp h)
    · rwa [skipReturns_cons hc] at h

theorem cleans_of_turn {inQuotes : Bool} {c : Char} {p out : List Char} (hc : c ≠ '\r')
    (hcomment : c = '\'' → inQuotes = false → Cleans inQuotes (skipComment p) out)
    (htab : c = '\t' → ∃ out', out = ' ' :: out' ∧ Cleans inQuotes p out')
    (hnewline : c = '\n' → ∃ out', out = '\n' :: out' ∧ Cleans inQuotes (skipLineEnds p) out')
    (hchar : IsPlain inQuotes c → ∃ out', out = c :: out' ∧ Cleans (toggledBy inQuotes c) p out') :
    Cleans inQuotes (c :: p) out := by
  by_cases hquote : c = '\'' ∧ inQuotes = false
  · obtain ⟨rfl, rfl⟩ := hquote
    exact .comment (hcomment rfl rfl)
  by_cases htab' : c = '\t'
  · subst htab'
    obtain ⟨out', rfl, h⟩ := htab rfl
    exact .tab h
  by_cases hnewline' : c = '\n'
  · subst hnewline'
    obtain ⟨out', rfl, h⟩ := hnewline rfl
    exact .newline h
  have hplain : IsPlain inQuotes c := ⟨hc, hnewline', htab', fun h => by
    simpa using fun hq => hquote ⟨h, hq⟩⟩
  obtain ⟨out', rfl, h⟩ := hchar hplain
  exact .char hplain h

theorem Cleans.of_loop {fuel : ℕ} {inQuotes : Bool} {p out : List Char}
    (h : cleanLoop fuel inQuotes p = some out) : Cleans inQuotes p out := by
  induction fuel generalizing inQuotes p out with
  | zero => cases h
  | succ fuel ih =>
    rw [cleanLoop] at h
    by_cases hp : p = []
    · subst hp
      rw [if_pos rfl] at h
      cases h
      exact .done inQuotes
    rw [if_neg hp] at h
    cases hskip : skipReturns p with
    | nil =>
      rw [hskip] at h
      cases h
    | cons c rest =>
      rw [hskip] at h
      dsimp only at h
      have hc : c ≠ '\r' := head_ne_of_skipReturns hskip
      apply Cleans.of_skipReturns (by rw [hskip]; exact List.cons_ne_nil c rest)
      rw [hskip]
      apply cleans_of_turn hc
      · rintro rfl rfl
        rw [if_pos ⟨rfl, rfl⟩, skipComment_quote] at h
        exact ih h
      · rintro rfl
        rw [if_neg (by simp), if_pos rfl] at h
        obtain ⟨out', hout, rfl⟩ := Option.map_eq_some_iff.mp h
        exact ⟨out', rfl, ih hout⟩
      · rintro rfl
        rw [if_neg (by simp), if_neg (by simp)] at h
        obtain ⟨out', hout, rfl⟩ := Option.map_eq_some_iff.mp h
        exact ⟨out', rfl, ih hout⟩
      · intro hplain
        have hend : isLineEnd c = false := by
          simp [isLineEnd, hplain.returns, hplain.newline]
        have hquote : ¬ (c = '\'' ∧ (!inQuotes) = true) := by
          rintro ⟨hquote, hin⟩
          simp [hplain.comment hquote] at hin
        rw [if_neg hquote, if_neg hplain.tab, hend] at h
        obtain ⟨out', hout, rfl⟩ := Option.map_eq_some_iff.mp h
        exact ⟨out', rfl, ih hout⟩

theorem Cleans.loop {inQuotes : Bool} {p out : List Char} (h : Cleans inQuotes p out) {fuel : ℕ}
    (hfuel : p.length < fuel) : cleanLoop fuel inQuotes p = some out := by
  induction h generalizing fuel with
  | done inQuotes =>
    obtain ⟨fuel, rfl⟩ := Nat.exists_eq_succ_of_ne_zero (Nat.ne_of_gt hfuel)
    rfl
  | @returns inQuotes p out hp h ih =>
    rw [List.length_cons] at hfuel
    have hloop := ih (show p.length < fuel by omega)
    obtain ⟨fuel, rfl⟩ := Nat.exists_eq_succ_of_ne_zero (show fuel ≠ 0 by omega)
    rw [cleanLoop, if_neg hp] at hloop
    rw [cleanLoop, if_neg (List.cons_ne_nil _ _), skipReturns_return]
    exact hloop
  | @comment p out h ih =>
    rw [List.length_cons] at hfuel
    have hlength := skipComment_length p
    obtain ⟨fuel, rfl⟩ := Nat.exists_eq_succ_of_ne_zero (show fuel ≠ 0 by omega)
    rw [cleanLoop, if_neg (List.cons_ne_nil _ _), skipReturns_cons (by decide)]
    dsimp only
    rw [if_pos ⟨rfl, rfl⟩, skipComment_quote]
    exact ih (by omega)
  | @tab inQuotes p out h ih =>
    rw [List.length_cons] at hfuel
    obtain ⟨fuel, rfl⟩ := Nat.exists_eq_succ_of_ne_zero (show fuel ≠ 0 by omega)
    rw [cleanLoop, if_neg (List.cons_ne_nil _ _), skipReturns_cons (by decide)]
    dsimp only
    rw [if_neg (by simp), if_pos rfl, ih (by omega)]
    rfl
  | @newline inQuotes p out h ih =>
    rw [List.length_cons] at hfuel
    have hlength := skipLineEnds_length p
    obtain ⟨fuel, rfl⟩ := Nat.exists_eq_succ_of_ne_zero (show fuel ≠ 0 by omega)
    rw [cleanLoop, if_neg (List.cons_ne_nil _ _), skipReturns_cons (by decide)]
    dsimp only
    have hloop := ih (show (skipLineEnds p).length < fuel by omega)
    rw [if_neg (by simp), if_neg (by simp)]
    exact congrArg (Option.map ('\n' :: ·)) hloop
  | @char inQuotes c p out hc h ih =>
    rw [List.length_cons] at hfuel
    obtain ⟨fuel, rfl⟩ := Nat.exists_eq_succ_of_ne_zero (show fuel ≠ 0 by omega)
    rw [cleanLoop, if_neg (List.cons_ne_nil _ _), skipReturns_cons hc.returns]
    dsimp only
    have hend : isLineEnd c = false := by
      simp [isLineEnd, hc.returns, hc.newline]
    have hquote : ¬ (c = '\'' ∧ (!inQuotes) = true) := by
      rintro ⟨hquote, hin⟩
      simp [hc.comment hquote] at hin
    rw [if_neg hquote, if_neg hc.tab, hend]
    exact congrArg (Option.map (c :: ·)) (ih (show p.length < fuel by omega))

theorem cleanBasic_eq_some {text out : List Char} :
    cleanBasic text = some out ↔ Cleans false text out :=
  ⟨Cleans.of_loop, fun h => h.loop text.length.lt_succ_self⟩

end RetroRocket
