import RetroRocket.BasicExpression
import RetroRocket.BasicPhrases

/-!
# The evaluator on literals and variables

What the steps of the evaluator need and give, the place that they leave behind a phrase, and the
leaves of an arithmetic expression.
-/

namespace RetroRocket

open RetroRocket.Action BasicExpr

variable {c c' d : ParseCtx} {rest : List Char} {calls : Calls} {n : ℕ}
  {Q : Value → ParseCtx → Prop} {R : ParseCtx → Prop}

namespace BasicExpr

/-! ## Rules for the steps of the evaluator -/

@[simp] theorem post_token {Q : Token → ParseCtx → Prop} :
    Post token c Q R ↔ Q c.currentToken c := Iff.rfl

@[simp] theorem post_next {Q : Unit → ParseCtx → Prop} :
    Post next c Q R ↔ Q () (tokenizerNext c) := Iff.rfl

@[simp] theorem post_take {tok : Token} {Q : Unit → ParseCtx → Prop} :
    Post (take tok) c Q R ↔ Q () (accept tok c) := Iff.rfl

theorem accept_of_eq {tok : Token} (h : c.currentToken = tok) : accept tok c = tokenizerNext c := by
  unfold accept
  rw [h]
  exact if_neg (not_not.mpr rfl)

theorem post_skipSpaces {Q : Unit → ParseCtx → Prop} (hn : 0 < n) (h : c.currentToken ≠ .space) :
    Post (skipSpaces n) c Q R ↔ Q () c := by
  obtain ⟨n, rfl⟩ := Nat.exists_eq_succ_of_ne_zero hn.ne'
  unfold skipSpaces
  rw [post_bind, post_token, if_neg h]
  exact Iff.rfl

section Factor

variable {relation : Action ParseCtx Value}

theorem post_upFactor_number (hn : 0 < n) (h : c.currentToken = .number) :
    Post (upFactor calls relation n) c Q R ↔ Post upNumber c Q R := by
  unfold upFactor
  rw [post_bind, post_skipSpaces hn (by rw [h]; decide), post_bind, post_token, h]

theorem post_upFactor_variable (hn : 0 < n) (h : c.currentToken = .variable) :
    Post (upFactor calls relation n) c Q R ↔ Post (upName calls) c Q R := by
  unfold upFactor
  rw [post_bind, post_skipSpaces hn (by rw [h]; decide), post_bind, post_token, h]

theorem post_upFactor_openBracket (hn : 0 < n) (h : c.currentToken = .openBracket) :
    Post (upFactor calls relation n) c Q R ↔ Post relation (tokenizerNext c)
      (fun v d => Q v (accept .closeBracket d)) R := by
  unfold upFactor
  rw [post_bind, post_skipSpaces hn (by rw [h]; decide), post_bind, post_token, h]
  simp only [post_bind, post_take, post_pure, accept_of_eq h]

theorem post_upFactor_noToken (hn : 0 < n) (h : c.currentToken = .noToken) :
    Post (upFactor calls relation n) c Q R ↔
      Q (.int 0) (tokenizerErrorPrint "Expected expression, got NO_TOKEN" c) := by
  unfold upFactor
  rw [post_bind, post_skipSpaces hn (by rw [h]; decide), post_bind, post_token, h]
  exact Iff.rfl

end Factor

end BasicExpr

/-! ## The place behind a phrase -/

def Quiet (rest : List Char) : Prop :=
  ∀ d : ParseCtx, d.ptr = rest.dropWhile isBlank →
    (readToken d).store = d.store ∧ (readToken d).ptr = d.ptr

def NextToken (P : Token → Prop) (rest : List Char) : Prop :=
  ∀ d : ParseCtx, d.ptr = rest.dropWhile isBlank → P (readToken d).currentToken

/-- The context has come to the rest of a text, where the end of the text may not have been noticed
behind a name. -/
structure ParseCtx.Done (c : ParseCtx) (rest : List Char) (s : Store) : Prop where
  store : c.store = s
  ptr : c.ptr = rest.dropWhile isBlank
  place : c.At (rest.dropWhile isBlank) ∨ (rest = [] ∧ c.currentToken = .variable)

theorem ParseCtx.Done.token {s : Store} {P : Token → Prop} (h : c.Done rest s)
    (hnext : NextToken P rest) (hvariable : P .variable) : P c.currentToken := by
  rcases h.place with ⟨d, hd, -, -, htoken⟩ | ⟨-, htoken⟩
  · rw [htoken]
    exact hnext d hd
  · rw [htoken]
    exact hvariable

theorem ParseCtx.Done.report {s : Store} (h : c.Done rest s) (error : String) :
    (tokenizerErrorPrint error c).Done rest (s.report error) := by
  refine ⟨?_, h.ptr, ?_⟩
  · rw [store_tokenizerErrorPrint, h.store]
  · rcases h.place with hat | hend
    · exact Or.inl (hat.tokenizerErrorPrint error)
    · exact Or.inr hend

theorem done_tokenizerNext (hptr : c.ptr ≠ []) (htoken : c.currentToken ≠ .endOfInput)
    (hnext : c.nextptr = rest) (hquiet : Quiet rest) : (tokenizerNext c).Done rest c.store := by
  obtain ⟨d, hd, hstore, hread⟩ := tokenizerNext_at hptr htoken hnext
  obtain ⟨hq, hp⟩ := hquiet d hd
  rw [hread]
  exact ⟨hq.trans hstore, hp.trans hd, Or.inl (readToken_at hd)⟩

/-! ## Tokens of one character -/

def IsSingle (ch : Char) : Bool :=
  !isBlank ch && !(ch.isDigit || ch == '&' || ch == '.') && singlecharToken ch != .noToken

section Single

variable {ch : Char} {blanks text : List Char} (hsingle : IsSingle ch)

include hsingle

theorem IsSingle.isBlank : RetroRocket.isBlank ch = false := by
  unfold IsSingle at hsingle
  simp only [Bool.and_eq_true, Bool.not_eq_true'] at hsingle
  exact hsingle.1.1

theorem readToken_isSingle (hptr : d.ptr = ch :: rest) :
    readToken d = { d with currentToken := singlecharToken ch, nextptr := rest } := by
  unfold IsSingle at hsingle
  simp only [Bool.and_eq_true, Bool.not_eq_true', bne_iff_ne] at hsingle
  obtain ⟨⟨-, hnumber⟩, htoken⟩ := hsingle
  apply readToken_single hptr _ htoken
  rw [Bool.eq_false_iff] at hnumber
  intro h
  exact hnumber (by simpa [or_assoc] using h)

theorem quiet_single (hblanks : blanks.all RetroRocket.isBlank) : Quiet (blanks ++ ch :: rest) := by
  intro d hd
  rw [dropWhile_isBlank_append hblanks, dropWhile_isBlank_cons (IsSingle.isBlank hsingle)] at hd
  rw [readToken_isSingle hsingle hd]
  exact ⟨rfl, rfl⟩

theorem nextToken_single {P : Token → Prop} (hblanks : blanks.all RetroRocket.isBlank)
    (h : P (singlecharToken ch)) : NextToken P (blanks ++ ch :: rest) := by
  intro d hd
  rw [dropWhile_isBlank_append hblanks, dropWhile_isBlank_cons (IsSingle.isBlank hsingle)] at hd
  rw [readToken_isSingle hsingle hd]
  exact h

theorem ParseCtx.At.single (h : c.At (ch :: rest)) :
    c.currentToken = singlecharToken ch ∧ c.ptr = ch :: rest ∧ c.nextptr = rest := by
  obtain ⟨d, hd, hptr, hnext, htoken⟩ := h.read
  rw [readToken_isSingle hsingle hd] at hptr hnext htoken
  exact ⟨htoken, hptr.trans hd, hnext⟩

theorem singlecharToken_ne : singlecharToken ch ≠ .endOfInput := by
  unfold singlecharToken
  split <;> decide

theorem ParseCtx.At.advance (h : c.At (ch :: (blanks ++ text)))
    (hblanks : blanks.all RetroRocket.isBlank)
    (htext : ∃ first more, text = first :: more ∧ RetroRocket.isBlank first = false) :
    c.currentToken = singlecharToken ch ∧
      ∃ d, d.ptr = text ∧ d.store = c.store ∧ tokenizerNext c = readToken d := by
  obtain ⟨htoken, hptr, hnext⟩ := h.single hsingle
  refine ⟨htoken, ?_⟩
  have hread := tokenizerNext_at (by simp [hptr])
    (by rw [htoken]; exact singlecharToken_ne hsingle) hnext
  obtain ⟨first, more, rfl, hfirst⟩ := htext
  rw [dropWhile_isBlank_append hblanks, dropWhile_isBlank_cons hfirst] at hread
  exact hread

theorem ParseCtx.Done.at_single {s : Store} (h : c.Done (blanks ++ ch :: rest) s)
    (hblanks : blanks.all RetroRocket.isBlank) : c.At (ch :: rest) := by
  rcases h.place with hat | ⟨hnil, -⟩
  · rwa [dropWhile_isBlank_append hblanks, dropWhile_isBlank_cons (IsSingle.isBlank hsingle)] at hat
  · simp at hnil

end Single

theorem ParseCtx.Done.at_close {s : Store} {after : List Char} (hafter : after.all isBlank)
    (h : c.Done (after ++ ')' :: rest) s) (hquiet : Quiet rest) :
    c.currentToken = .closeBracket ∧ (accept .closeBracket c).Done rest s := by
  obtain ⟨htoken, hptr, hnext⟩ :=
    (h.at_single (by decide : IsSingle ')') hafter).single (by decide : IsSingle ')')
  replace htoken : c.currentToken = .closeBracket := htoken
  refine ⟨htoken, ?_⟩
  rw [accept_of_eq htoken, ← h.store]
  exact done_tokenizerNext (by simp [hptr]) (by rw [htoken]; decide) hnext hquiet

/-! ## What a phrase needs and gives -/

structure IsIntVariable (calls : Calls) (s : Store) (var : Name) : Prop where
  defines : s.Defines var
  int : calls.int var = none
  double : calls.double var = none
  builtin : calls.isBuiltinDouble var = false

theorem IsIntVariable.eval {s : Store} {var : Name} (h : IsIntVariable calls s var)
    (e : ArithExpr) :
    IsIntVariable calls (e.eval s).2 var :=
  ⟨ArithExpr.Defines.eval h.defines e, h.int, h.double, h.builtin⟩

namespace Phrase

variable {l : Level}

structure Ready (calls : Calls) (n : ℕ) (p : Phrase l) (c : ParseCtx) (rest : List Char) :
    Prop where
  place : c.At (p.text ++ rest)
  boundary : p.Boundary rest
  quiet : Quiet rest
  vars : p.tree.Vars (IsIntVariable calls c.store)
  fuel : p.size < n

structure Reads (p : Phrase l) (c : ParseCtx) (rest : List Char) (v : Value) (c' : ParseCtx) :
    Prop where
  value : v = .int (p.tree.eval c.store).1
  done : c'.Done rest (p.tree.eval c.store).2
  fits : ¬ p.tree.Overflows c.store

end Phrase

/-! ## Literals -/

theorem atollDigits_eq {digits : List Char} (hdigits : ∀ c ∈ digits, c.isDigit)
    (hrest : ∀ c ∈ rest.head?, ¬ c.isDigit) (val : ℕ) :
    atollDigits Char.isDigit 10 (BitVec.ofNat 64 val) (digits ++ rest) =
      BitVec.ofNat 64 (digits.foldl (fun n c => n * 10 + (c.toNat - '0'.toNat)) val) := by
  induction digits generalizing val with
  | nil =>
    cases rest with
    | nil => rfl
    | cons ch rest => exact if_neg (hrest ch rfl)
  | cons ch digits ih =>
    have hch := hdigits ch List.mem_cons_self
    have hval : BitVec.ofNat 64 val * 10 + digitValue ch =
        BitVec.ofNat 64 (val * 10 + (ch.toNat - '0'.toNat)) := by
      unfold digitValue
      rw [if_pos hch, BitVec.ofNat_add, BitVec.ofNat_mul]
      rfl
    rw [List.cons_append, atollDigits, if_pos hch, hval,
      ih (fun c hc => hdigits c (List.mem_cons_of_mem _ hc))]
    rfl

theorem isDigit_ne {ch other : Char} (h : ch.isDigit) (hother : other.isDigit = false) :
    ch ≠ other := by
  rintro rfl
  rw [h] at hother
  cases hother

theorem Digits.atoll (digits : Digits) (hrest : EndsNumber rest) :
    RetroRocket.atoll (digits.digits ++ rest) 10 = BitVec.ofNat 64 digits.value := by
  have hend := atollDigits_eq digits.isDigit (fun c hc h => hrest c hc (Or.inl h)) 0
  obtain ⟨ch, more, hcons⟩ := List.exists_cons_of_ne_nil digits.ne_nil
  have hch : ch.isDigit := digits.isDigit ch (by rw [hcons]; exact List.mem_cons_self)
  have hblank : isBlank ch = false := by
    unfold isBlank
    rw [Bool.or_eq_false_iff, beq_eq_false_iff_ne, beq_eq_false_iff_ne]
    exact ⟨isDigit_ne hch (by decide), isDigit_ne hch (by decide)⟩
  unfold RetroRocket.atoll Digits.value
  rw [← hend, hcons, List.cons_append, dropWhile_isBlank_cons hblank]
  dsimp only
  rw [if_neg (by decide)]
  split
  · next heq => exact absurd (List.cons.inj heq).1 (isDigit_ne hch (by decide))
  · next heq => exact absurd (List.cons.inj heq).1 (isDigit_ne hch (by decide))
  · rfl

theorem dropWhile_isDigit {digits : List Char} (hdigits : ∀ c ∈ digits, c.isDigit)
    (hrest : EndsNumber rest) : (digits ++ rest).dropWhile Char.isDigit = rest := by
  rw [List.dropWhile_append_of_pos hdigits]
  cases rest with
  | nil => rfl
  | cons ch rest => exact List.dropWhile_cons_of_neg fun h => hrest ch rfl (Or.inl h)

theorem post_literal {relation : Action ParseCtx Value} {digits : Digits}
    (h : (Phrase.literal digits).Ready calls n c rest) (hplain : digits.digits.length < maxNumlen) :
    Post (upFactor calls relation n) c ((Phrase.literal digits).Reads c rest) R := by
  obtain ⟨d, hd, hptr, hnext, htoken⟩ := h.place.read
  have hend : EndsNumber rest := h.boundary
  change d.ptr = digits.digits ++ rest at hd
  rw [readToken_number digits.ne_nil digits.isDigit hd hend hplain] at hptr hnext htoken
  replace hptr : c.ptr = digits.digits ++ rest := hptr.trans hd
  replace htoken : c.currentToken = .number := htoken
  rw [post_upFactor_number (by have := h.fuel; omega) htoken]
  unfold upNumber
  rw [post_bind, post_get, hptr, dropWhile_isDigit digits.isDigit hend, if_neg]
  · rw [post_bind, post_take, post_pure, accept_of_eq htoken]
    refine ⟨?_, ?_, id⟩
    · unfold tokenizerNum
      rw [if_pos htoken, hptr, digits.atoll hend]
      rfl
    · exact done_tokenizerNext (by simp [hptr, digits.ne_nil]) (by rw [htoken]; decide)
        hnext h.quiet
  · rintro ⟨hdot, -⟩
    exact hend _ hdot (Or.inr rfl)

/-! ## Variables -/

theorem variableName_name {name : List Char} {limit : ℕ} {first : Bool}
    (hchars : ∀ c ∈ name, isVarChar c) (hstart : first → ∀ c ∈ name.head?, isVarStart c)
    (hlen : name.length < limit) (hfirst : first → name ≠ []) (hrest : EndsName rest) :
    variableName limit first (name ++ rest) = (name, rest, true) := by
  induction name generalizing limit first with
  | nil =>
    obtain rfl : first = false := by
      cases first with
      | false => rfl
      | true => exact absurd rfl (hfirst rfl)
    obtain ⟨limit, rfl⟩ := Nat.exists_eq_succ_of_ne_zero (Nat.ne_of_gt hlen)
    cases rest with
    | nil => rfl
    | cons ch rest =>
      obtain ⟨hvar, hdollar, hhash, -⟩ := hrest ch rfl
      rw [List.nil_append, variableName, if_neg (by simp [hdollar, hhash]), if_neg hvar]
  | cons ch name ih =>
    obtain ⟨limit, rfl⟩ := Nat.exists_eq_succ_of_ne_zero (Nat.ne_zero_of_lt hlen)
    have hmore : variableName limit false (name ++ rest) = (name, rest, true) := ih
      (fun c hc => hchars c (List.mem_cons_of_mem _ hc)) (by simp)
      (Nat.lt_of_succ_lt_succ hlen) (by simp)
    have hch := hchars ch List.mem_cons_self
    rw [List.cons_append]
    cases first with
    | true => rw [variableName, if_pos (hstart rfl ch rfl), hmore]
    | false =>
      have hsuffix : ¬ (ch = '$' ∨ ch = '#') := by
        rintro (rfl | rfl) <;> exact absurd hch (by decide)
      rw [variableName, if_neg hsuffix, if_pos hch, hmore]

theorem VarName.variableToken (var : VarName) (hptr : c.ptr = var.name ++ rest)
    (hrest : EndsName rest) :
    BasicExpr.variableToken c = (some var.name, { c with ptr := rest }) := by
  have hname : variableName maxVarname true c.ptr = (var.name, rest, true) := by
    rw [hptr]
    apply variableName_name var.chars _ var.length (fun _ => var.ne_nil) hrest
    intro _ ch hch
    obtain ⟨ch', hch', hstart⟩ := var.start
    rw [Option.mem_def.mp hch'] at hch
    cases hch
    exact hstart
  unfold BasicExpr.variableToken tokenizerVariableName
  rw [hname]
  rfl

theorem VarName.getLast (var : VarName) {suffix : Char} (h : isVarChar suffix = false) :
    var.name.getLast? ≠ some suffix := by
  intro heq
  rw [var.chars suffix (List.mem_of_getLast? heq)] at h
  cases h

theorem post_getNumericIntVariable {var : VarName} (h : IsIntVariable calls c.store var.name)
    {Q : BitVec 64 → ParseCtx → Prop} : Post (getNumericIntVariable calls var.name) c Q R ↔
      Q ((c.store.intVariable var.name).getD 0) c := by
  obtain ⟨value, global, hfound⟩ := Store.intVariable_isSome.mp h.defines.1
  have hint : c.store.intVariable var.name = some value := by
    unfold Store.intVariable
    rw [hfound]
  have hnone : findVariable (c.basic.vars .double) var.name c.basic.callStackPtr = none :=
    h.defines.2
  have hsome : findVariable (c.basic.vars .int) var.name c.basic.callStackPtr =
      some ⟨.int value, global⟩ := hfound
  have hdouble : basicGetDoubleVariable var.name c.basic =
      .error (noSuchVariable .double var.name) := by
    unfold basicGetDoubleVariable basicGetVariable
    rw [hnone]
  have hvalue : basicGetIntVariable var.name c.basic = .ok (.int value) := by
    unfold basicGetIntVariable basicGetVariable
    rw [hsome]
  unfold getNumericIntVariable getDoubleVariable getIntVariable
  rw [h.int, h.double]
  simp only [post_bind, post_get, hdouble,
    if_neg (var.getLast (show isVarChar '#' = false by decide)),
    post_pure, hvalue, hint, Option.getD_some]

theorem post_variable {relation : Action ParseCtx Value} {var : VarName}
    (h : (Phrase.var var).Ready calls n c rest) :
    Post (upFactor calls relation n) c ((Phrase.var var).Reads c rest) R := by
  obtain ⟨d, hd, hptr, hnext, htoken⟩ := h.place.read
  have hend : EndsName rest := h.boundary
  have hvar : IsIntVariable calls c.store var.name := h.vars
  change d.ptr = var.name ++ rest at hd
  rw [readToken_name var hd hend] at hptr hnext htoken
  replace hptr : c.ptr = var.name ++ rest := hptr.trans hd
  replace htoken : c.currentToken = .variable := htoken
  rw [post_upFactor_variable (by have := h.fuel; omega) htoken]
  unfold upName endNumericName endName
  have hsuffix : ¬ (var.name.getLast? = some '#' ∨ calls.isBuiltinDouble var.name = true) := by
    rintro (hhash | hbuiltin)
    · exact var.getLast (by decide) hhash
    · rw [hvar.builtin] at hbuiltin
      cases hbuiltin
  rw [post_bind]
  unfold Post
  rw [var.variableToken hptr hend]
  dsimp only
  rw [if_neg (var.getLast (show isVarChar '$' = false by decide)), if_neg hsuffix]
  set e := ({ c with ptr := rest } : ParseCtx) with he
  have htoken' : e.currentToken = .variable := htoken
  change Post _ e _ R
  rw [post_bind, post_getNumericIntVariable (show IsIntVariable calls e.store var.name from hvar)]
  simp only [post_bind, post_token, htoken', if_neg (show ¬ Token.variable = .comma by decide),
    if_neg (show ¬ Token.variable = .closeBracket by decide), post_take, post_pure,
    accept_of_eq htoken']
  refine ⟨rfl, ?_, id⟩
  by_cases hrest : rest = []
  · have hfinished : tokenizerNext e = e := if_pos (by simp [tokenizerFinished, he, hrest])
    rw [hfinished]
    exact ⟨rfl, by rw [he, hrest]; rfl, Or.inr ⟨hrest, htoken'⟩⟩
  · exact done_tokenizerNext hrest (by rw [htoken']; decide) hnext h.quiet

end RetroRocket
