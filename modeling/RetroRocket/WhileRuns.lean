import RetroRocket.WhileNesting

/-!
# Runs of nested loops

The run of a program with nested loops, and the interpreter next to it. Its stack holds the lines of
the loops that are being run, those of the procedure first and those of its callers below.
-/

namespace RetroRocket

variable {σ : Type}

/-- A run of nested loops: the next line, whether it is a WHILE whose body has just been run, and
the lines that the procedures return to. -/
structure LoopRun (σ : Type) where
  pos : ℕ
  again : Bool
  returns : List ℕ
  data : σ
  ended : Bool

def LoopRun.start (data : σ) : LoopRun σ := ⟨0, false, [], data, false⟩

namespace LoopProgram

variable (P : LoopProgram σ)

/-! ## The run -/

def turn (a : LoopRun σ) : LoopRun σ :=
  match P.enclosing a.pos with
  | [] => a
  | p :: _ => { a with pos := p, again := true }

def call (line : ℕ) (a : LoopRun σ) : LoopRun σ :=
  match P.position line with
  | none => a
  | some q => { a with pos := q, again := false, returns := (a.pos + 1) :: a.returns }

def leave (a : LoopRun σ) : LoopRun σ :=
  match P.endOf a.pos with
  | none => a
  | some q => { a with pos := q + 1, again := false }

def next (a : LoopRun σ) : LoopRun σ :=
  if a.ended then a
  else
    match P.statementAt a.pos with
    | none => a
    | some (.whileDo condition _) =>
      let r := condition a.data
      if r.1 then { a with pos := a.pos + 1, again := false, data := r.2 }
      else P.leave { a with data := r.2 }
    | some .endwhile => P.turn a
    | some (.continueWhile taken _) =>
      let r := taken a.data
      if r.1 then P.turn { a with data := r.2 } else { a with pos := a.pos + 1, data := r.2 }
    | some (.procCall line _) => P.call line a
    | some .endproc =>
      match a.returns with
      | [] => a
      | r :: returns => { a with pos := r, again := false, returns := returns }
    | some .endProgram => { a with pos := a.pos + 1, ended := true }
    | some (.plain run _) => { a with pos := a.pos + 1, data := run a.data }

def running (a : LoopRun σ) : List ℕ :=
  (if a.again then [a.pos] else []) ++ (P.enclosing a.pos ++ a.returns.flatMap P.enclosing)

def endsWell (p : ℕ) : Bool :=
  match P.endOf p with
  | none => false
  | some q => decide (p + 1 < q) && loopsBalanced ((P.lines.drop (p + 1)).take (q - (p + 1)))

/-- The steps that the interpreter makes as they should be: a loop begins with a condition that
holds, not out of its own body, and with room on the stack, one that ends has a balanced body, and a
procedure that is called has a place in the tables of local variables. -/
def meets (a : LoopRun σ) : Bool :=
  match P.statementAt a.pos with
  | some (.whileDo condition _) =>
    if a.again then (condition a.data).1 || P.endsWell a.pos
    else (condition a.data).1 && (P.running a).head? != some a.pos &&
      decide ((P.running a).length < maxLoopStackDepth)
  | some (.procCall _ _) => decide (a.returns.length + 1 < maxCallStackDepth)
  | some .endproc =>
    match a.returns with
    | [] => false
    | r :: _ => (P.statementAt r).isSome
  | _ => true

/-! ## The interpreter next to it -/

def OnStack (stack : ℕ → ℕ) : List ℕ → Prop
  | [] => True
  | x :: xs => stack xs.length = x ∧ OnStack stack xs

def framesOf : List ℕ → List (ℕ × ℕ)
  | [] => []
  | r :: returns =>
    (P.numberAt r, ((r :: returns).flatMap P.enclosing).length) :: framesOf returns

/-- The interpreter is where the run is, with the lines of the loops that are being run on its
stack. -/
structure Agrees (a : LoopRun σ) (c : WhileCtx σ) : Prop where
  pos : c.pos = a.pos
  data : c.data = a.data
  ended : c.ended = a.ended
  error : c.error = none
  fault : c.fault = false
  again : a.again = true → ∃ condition tokens,
    P.statementAt a.pos = some (.whileDo condition tokens)
  ptr : c.whileStackPtr = (P.running a).length
  bounded : (P.running a).length ≤ maxLoopStackDepth
  entries : OnStack c.whileStack ((P.running a).map P.numberAt)
  frames : c.frames = P.framesOf a.returns
  depth : a.returns.length < maxCallStackDepth

variable {P} {a : LoopRun σ} {c : WhileCtx σ} {stack : ℕ → ℕ} {x : ℕ} {l l' : List ℕ}

theorem OnStack.push (h : OnStack stack l) (x : ℕ) :
    OnStack (Function.update stack l.length x) (x :: l) := by
  refine ⟨Function.update_self _ _ _, ?_⟩
  have hkeep : ∀ {l'}, OnStack stack l' → l'.length ≤ l.length →
      OnStack (Function.update stack l.length x) l' := by
    intro l' h' hle
    induction l' with
    | nil => trivial
    | cons y l' ih =>
      rw [List.length_cons] at hle
      refine ⟨?_, ih h'.2 (by omega)⟩
      rw [Function.update_of_ne (by omega)]
      exact h'.1
  exact hkeep h (Nat.le_refl _)

theorem OnStack.below (h : OnStack stack (l ++ l')) : OnStack stack l' := by
  induction l with
  | nil => exact h
  | cons y l ih => exact ih h.2

theorem running_of_not_again (h : a.again = false) :
    P.running a = P.enclosing a.pos ++ a.returns.flatMap P.enclosing := by
  rw [running, h]
  rfl

theorem Agrees.not_again (h : P.Agrees a c) {statement : LoopStatement σ}
    (hstatement : P.statementAt a.pos = some statement)
    (hwhile : ∀ condition tokens, statement ≠ .whileDo condition tokens) : a.again = false := by
  rw [Bool.eq_false_iff]
  intro hagain
  obtain ⟨condition, tokens, hw⟩ := h.again hagain
  exact hwhile condition tokens (Option.some.inj (hstatement.symm.trans hw))

/-- The interpreter goes to another line in which the same loops are being run. -/
theorem Agrees.goTo (h : P.Agrees a c) {pos : ℕ} {again : Bool} {data : σ}
    (hagain : again = true →
      ∃ condition tokens, P.statementAt pos = some (.whileDo condition tokens))
    (hsame : P.running { a with pos := pos, again := again, data := data } = P.running a) :
    P.Agrees { a with pos := pos, again := again, data := data }
      { c with pos := pos, data := data } := by
  constructor
  case pos => rfl
  case data => rfl
  case ended => exact h.ended
  case error => exact h.error
  case fault => exact h.fault
  case again => exact hagain
  case ptr => rw [hsame]; exact h.ptr
  case bounded => rw [hsame]; exact h.bounded
  case entries => rw [hsame]; exact h.entries
  case frames => exact h.frames
  case depth => exact h.depth

theorem Agrees.advance (h : P.Agrees a c)
    (hrunning : P.enclosing (a.pos + 1) ++ a.returns.flatMap P.enclosing = P.running a) (data : σ) :
    P.Agrees { a with pos := a.pos + 1, again := false, data := data }
      { c with pos := c.pos + 1, data := data } := by
  rw [h.pos]
  exact h.goTo (fun hagain => by cases hagain) hrunning

theorem Agrees.finish (h : P.Agrees a c) :
    P.Agrees { a with ended := true } { c with ended := true } :=
  ⟨h.pos, h.data, rfl, h.error, h.fault, h.again, h.ptr, h.bounded, h.entries, h.frames, h.depth⟩

/-! ## Steps -/

theorem Agrees.top (h : P.Agrees a c) {p : ℕ} (hp : P.running a = p :: l) :
    0 < c.whileStackPtr ∧ c.whileStackPtr ≤ maxLoopStackDepth ∧
      c.whileStack (c.whileStackPtr - 1) = P.numberAt p := by
  have hptr := h.ptr
  have hbounded := h.bounded
  have hentries := h.entries
  rw [hp] at hptr hbounded hentries
  rw [hptr, List.length_cons, Nat.add_sub_cancel]
  have hhead := hentries.1
  rw [List.length_map] at hhead
  exact ⟨Nat.succ_pos _, hbounded, hhead⟩

theorem Agrees.turn (h : P.Agrees a c) (hagain : a.again = false)
    (hne : P.enclosing a.pos ≠ []) (data : σ) (pos : ℕ) :
    0 < c.whileStackPtr ∧ P.Agrees (P.turn { a with data := data })
      (P.jumpToWhile { c with pos := pos, data := data }) := by
  obtain ⟨p, l, hp⟩ := List.exists_cons_of_ne_nil hne
  obtain ⟨-, rfl, condition, tokens, hwhile⟩ := enclosing_cons hp
  have hrunning : P.running a = p :: (P.enclosing p ++ a.returns.flatMap P.enclosing) := by
    rw [running_of_not_again hagain, hp]
    rfl
  obtain ⟨hpos, hbounded, htop⟩ := h.top hrunning
  have hturn :
      P.turn { a with data := data } = { a with pos := p, again := true, data := data } := by
    rw [LoopProgram.turn]
    dsimp only
    rw [hp]
  have hjump : P.jumpToWhile { c with pos := pos, data := data } =
      { c with pos := p, data := data } := by
    rw [jumpToWhile, if_neg (Nat.not_lt.mpr hbounded), htop, jumpLinenum_numberAt hwhile]
  rw [hturn, hjump]
  have hsame : P.running { a with pos := p, again := true, data := data } = P.running a :=
    hrunning.symm
  exact ⟨hpos, h.goTo (fun _ => ⟨condition, tokens, hwhile⟩) hsame⟩

theorem Agrees.while_again (h : P.Agrees a c) {condition : σ → Bool × σ} {tokens : List Token}
    (hstatement : P.statementAt a.pos = some (.whileDo condition tokens)) (hagain : a.again = true)
    (data : σ) :
    P.Agrees { a with pos := a.pos + 1, again := false, data := data }
      (P.whileStatement (P.numberAt a.pos) true { c with pos := c.pos + 1, data := data }) := by
  have hrunning : P.running a = a.pos :: (P.enclosing a.pos ++ a.returns.flatMap P.enclosing) := by
    rw [running, hagain]
    rfl
  obtain ⟨hpos, hbounded, htop⟩ := h.top hrunning
  have hwhile : P.whileStatement (P.numberAt a.pos) true { c with pos := c.pos + 1, data := data } =
      { c with pos := c.pos + 1, data := data } := by
    simp [whileStatement, Nat.not_lt.mpr hbounded, hpos, htop]
  rw [hwhile]
  have hsame : P.enclosing (a.pos + 1) ++ a.returns.flatMap P.enclosing = P.running a := by
    rw [enclosing_succ_while hstatement, hrunning]
    rfl
  exact h.advance hsame data

theorem Agrees.while_first (h : P.Agrees a c) {condition : σ → Bool × σ} {tokens : List Token}
    (hstatement : P.statementAt a.pos = some (.whileDo condition tokens)) (hagain : a.again = false)
    (hhead : (P.running a).head? ≠ some a.pos) (hroom : (P.running a).length < maxLoopStackDepth)
    (data : σ) :
    P.Agrees { a with pos := a.pos + 1, again := false, data := data }
      (P.whileStatement (P.numberAt a.pos) true { c with pos := c.pos + 1, data := data }) := by
  have houtside : ¬ (0 < c.whileStackPtr ∧
      c.whileStack (c.whileStackPtr - 1) = P.numberAt a.pos) := by
    rintro ⟨hpos, htop⟩
    cases hrunning : P.running a with
    | nil =>
      rw [h.ptr, hrunning] at hpos
      cases hpos
    | cons p l =>
      -- the loop on the top of the stack is another one, so its line has another number
      obtain ⟨-, -, htop'⟩ := h.top hrunning
      obtain ⟨condition', tokens', hwhile⟩ : ∃ condition tokens,
          P.statementAt p = some (.whileDo condition tokens) := by
        rw [running_of_not_again hagain] at hrunning
        cases henclosing : P.enclosing a.pos with
        | cons p' l' =>
          rw [henclosing] at hrunning
          obtain ⟨rfl, -⟩ := List.cons_eq_cons.mp hrunning
          exact (enclosing_cons henclosing).2.2
        | nil =>
          rw [henclosing, List.nil_append] at hrunning
          have hmem : p ∈ a.returns.flatMap P.enclosing := by
            rw [hrunning]
            exact List.mem_cons_self
          obtain ⟨r, -, hr⟩ := List.mem_flatMap.mp hmem
          exact exists_while_of_mem_enclosing hr
      have heq := numberAt_injective hwhile hstatement (htop'.symm.trans htop)
      rw [hrunning, heq] at hhead
      exact hhead rfl
  have hptr := h.ptr
  have hwhile : P.whileStatement (P.numberAt a.pos) true { c with pos := c.pos + 1, data := data } =
      { c with
        pos := c.pos + 1
        whileStack := Function.update c.whileStack c.whileStackPtr (P.numberAt a.pos)
        whileStackPtr := c.whileStackPtr + 1
        data := data } := by
    have hlow : ¬ maxLoopStackDepth < c.whileStackPtr := by omega
    have hlow' : ¬ maxLoopStackDepth ≤ c.whileStackPtr := by omega
    rw [whileStatement, if_neg hlow]
    dsimp only
    rw [if_neg (fun h => hlow' h.2), if_pos rfl, if_neg houtside]
  rw [hwhile]
  have hrunning : P.running { a with pos := a.pos + 1, again := false, data := data } =
      a.pos :: P.running a := by
    rw [running_of_not_again rfl, running_of_not_again hagain]
    dsimp only
    rw [enclosing_succ_while hstatement]
    rfl
  constructor
  case pos => rw [h.pos]
  case data => rfl
  case ended => exact h.ended
  case error => exact h.error
  case fault => exact h.fault
  case again => exact fun hagain => by cases hagain
  case ptr => rw [hrunning, List.length_cons, ← hptr]
  case bounded => rw [hrunning]; exact hroom
  case entries =>
    have hpush := h.entries.push (P.numberAt a.pos)
    rw [List.length_map, ← hptr] at hpush
    rw [hrunning]
    exact hpush
  case frames => exact h.frames
  case depth => exact h.depth

theorem Agrees.while_ends (h : P.Agrees a c) (hagain : a.again = true)
    (hends : P.endsWell a.pos = true) (data : σ) :
    P.Agrees (P.leave { a with data := data })
      (P.whileStatement (P.numberAt a.pos) false { c with pos := c.pos + 1, data := data }) := by
  have hrunning : P.running a = a.pos :: (P.enclosing a.pos ++ a.returns.flatMap P.enclosing) := by
    rw [running, hagain]
    rfl
  obtain ⟨hpos, hbounded, htop⟩ := h.top hrunning
  unfold endsWell at hends
  cases hend : P.endOf a.pos with
  | none =>
    rw [hend] at hends
    cases hends
  | some q =>
    rw [hend, Bool.and_eq_true, decide_eq_true_eq] at hends
    obtain ⟨hlt, hbalanced⟩ := hends
    obtain ⟨hq, henclosing, -⟩ := endOf_spec hend
    obtain ⟨last, hlast, hlastend, hnumber⟩ := statementAt_eq_some hq
    -- the lines behind the WHILE are the body and the ENDWHILE
    obtain ⟨hqlen, hqget⟩ := List.getElem?_eq_some_iff.mp hlast
    have hlines : P.lines.drop (a.pos + 1) =
        (P.lines.drop (a.pos + 1)).take (q - (a.pos + 1)) ++ last :: P.lines.drop (q + 1) := by
      have hdrop : (P.lines.drop (a.pos + 1)).drop (q - (a.pos + 1)) =
          last :: P.lines.drop (q + 1) := by
        rw [List.drop_drop, Nat.add_sub_cancel' (by omega), List.drop_eq_getElem_cons hqlen, hqget]
      rw [← hdrop, List.take_append_drop]
    have hbody : (P.lines.drop (a.pos + 1)).take (q - (a.pos + 1)) ≠ [] := by
      intro hnil
      have hlen := congrArg List.length hnil
      rw [List.length_take, List.length_drop, List.length_nil] at hlen
      omega
    have hseek : seekToMatchingToken whileToken endwhileToken 1 0
        (seekTokens (P.lines.drop (a.pos + 1))) = some (P.numberAt q) := by
      rw [hlines, seek_body hbody hlastend hbalanced, hnumber]
    have hwhile :
      P.whileStatement (P.numberAt a.pos) false { c with pos := c.pos + 1, data := data } =
        { c with pos := q + 1, whileStackPtr := c.whileStackPtr - 1, data := data } := by
      have hsmall : (c.whileStackPtr + (2 ^ 64 - 1)) % 2 ^ 64 = c.whileStackPtr - 1 := by
        have hdepth : maxLoopStackDepth = 255 := rfl
        omega
      rw [whileStatement, if_neg (Nat.not_lt.mpr hbounded)]
      dsimp only
      rw [if_neg (fun h => h.1 ⟨hpos, htop⟩), if_neg Bool.false_ne_true, h.pos, hseek]
      dsimp only
      rw [jumpLinenum_numberAt hq, hsmall]
    have hleave : P.leave { a with data := data } =
        { a with pos := q + 1, again := false, data := data } := by
      rw [leave]
      dsimp only
      rw [hend]
    rw [hwhile, hleave]
    have hafter : P.running { a with pos := q + 1, again := false, data := data } =
        P.enclosing a.pos ++ a.returns.flatMap P.enclosing := by
      rw [running_of_not_again rfl]
      dsimp only
      rw [enclosing_succ_endwhile hq, henclosing, List.tail_cons]
    have hptr := h.ptr
    have hroom := h.bounded
    have hentries := h.entries
    rw [hrunning] at hptr hroom hentries
    rw [List.length_cons] at hptr hroom
    constructor
    case pos => rfl
    case data => rfl
    case ended => exact h.ended
    case error => exact h.error
    case fault => exact h.fault
    case again => exact fun hagain => by cases hagain
    case ptr => rw [hafter]; exact Nat.sub_eq_of_eq_add hptr
    case bounded => rw [hafter]; omega
    case entries => rw [hafter]; exact hentries.2
    case frames => exact h.frames
    case depth => exact h.depth

/-! ## Procedures -/

theorem length_framesOf (returns : List ℕ) : (P.framesOf returns).length = returns.length := by
  induction returns with
  | nil => rfl
  | cons r returns ih => rw [framesOf, List.length_cons, List.length_cons, ih]

theorem Agrees.call (h : P.Agrees a c) (hP : P.WellNested) {line : ℕ} {tokens : List Token}
    (hstatement : P.statementAt a.pos = some (.procCall line tokens))
    (hroom : a.returns.length + 1 < maxCallStackDepth) :
    P.Agrees (P.call line a) (P.procStatement line { c with pos := c.pos + 1 }) := by
  obtain ⟨q, hq, hout⟩ := hP.procs _ _ _ hstatement
  have hagain : a.again = false := h.not_again hstatement fun _ _ heq => by cases heq
  have hsucc : P.enclosing (a.pos + 1) = P.enclosing a.pos :=
    enclosing_succ hstatement (fun _ _ heq => by cases heq) (fun heq => by cases heq)
  have hcall : P.call line a =
      { a with pos := q, again := false, returns := (a.pos + 1) :: a.returns } := by
    rw [LoopProgram.call, hq]
  have hproc : P.procStatement line { c with pos := c.pos + 1 } =
      { c with pos := q, frames := (P.numberAt (c.pos + 1), c.whileStackPtr) :: c.frames } := by
    have hframes : c.frames.length = a.returns.length := by
      rw [h.frames, length_framesOf]
    have hopen : ¬ maxCallStackDepth ≤ c.frames.length := by omega
    have hplace : ¬ maxCallStackDepth ≤ c.frames.length + 1 := by omega
    rw [procStatement, if_neg hopen, if_neg hplace, jumpLinenum, hq]
  rw [hcall, hproc]
  -- the loops of the caller are still being run
  have hsame : P.running { a with pos := q, again := false, returns := (a.pos + 1) :: a.returns } =
      P.running a := by
    rw [running_of_not_again rfl, running_of_not_again hagain]
    dsimp only
    rw [hout, List.flatMap_cons, hsucc]
    rfl
  constructor
  case pos => rfl
  case data => exact h.data
  case ended => exact h.ended
  case error => exact h.error
  case fault => exact h.fault
  case again => exact fun hagain => by cases hagain
  case ptr => rw [hsame]; exact h.ptr
  case bounded => rw [hsame]; exact h.bounded
  case entries => rw [hsame]; exact h.entries
  case frames =>
    have hlen : c.whileStackPtr = (((a.pos + 1) :: a.returns).flatMap P.enclosing).length := by
      rw [h.ptr, running_of_not_again hagain, List.flatMap_cons, hsucc]
    rw [framesOf, ← hlen, h.pos, h.frames]
  case depth => exact hroom

theorem Agrees.endproc (h : P.Agrees a c) {r : ℕ} {returns : List ℕ}
    (hreturns : a.returns = r :: returns) (hagain : a.again = false) {statement : LoopStatement σ}
    (hline : P.statementAt r = some statement) :
    P.Agrees { a with pos := r, again := false, returns := returns }
      (P.endprocStatement { c with pos := c.pos + 1 }) := by
  have hframes := h.frames
  rw [hreturns, framesOf] at hframes
  have hdepth := h.depth
  rw [hreturns, List.length_cons] at hdepth
  have hrunning : P.running a = P.enclosing a.pos ++ (r :: returns).flatMap P.enclosing := by
    rw [running_of_not_again hagain, hreturns]
  have hend : P.endprocStatement { c with pos := c.pos + 1 } =
      { c with
        pos := r
        whileStackPtr := ((r :: returns).flatMap P.enclosing).length
        frames := P.framesOf returns } := by
    have hplace : ¬ maxCallStackDepth ≤ (P.framesOf returns).length + 1 := by
      rw [length_framesOf]
      exact not_le.mpr hdepth
    rw [endprocStatement, hframes]
    dsimp only
    rw [if_neg hplace, jumpLinenum_numberAt hline]
  rw [hend]
  have hafter : P.running { a with pos := r, again := false, returns := returns } =
      (r :: returns).flatMap P.enclosing := by
    rw [running_of_not_again rfl, List.flatMap_cons]
  have hbounded := h.bounded
  have hentries := h.entries
  rw [hrunning] at hbounded hentries
  rw [List.length_append] at hbounded
  rw [List.map_append] at hentries
  constructor
  case pos => rfl
  case data => exact h.data
  case ended => exact h.ended
  case error => exact h.error
  case fault => exact h.fault
  case again => exact fun hagain => by cases hagain
  case ptr => rw [hafter]
  case bounded => rw [hafter]; omega
  case entries => rw [hafter]; exact hentries.below
  case frames => rfl
  case depth => exact (Nat.lt_succ_self _).trans hdepth

end LoopProgram

end RetroRocket
