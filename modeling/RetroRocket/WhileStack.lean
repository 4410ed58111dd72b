import RetroRocket.WhileRuns

/-!
# The stack of the WHILE loops

The interpreter goes where the run of the loops goes, and `while_stack_ptr` stays above what it was
when a loop or a procedure began, as long as no loop begins with a condition that does not hold.
Such a loop takes the one around it off the stack.
-/

namespace RetroRocket

variable {σ : Type}

namespace LoopProgram

variable {P : LoopProgram σ} {a b : LoopRun σ} {c d : WhileCtx σ}

/-! ## One line -/

theorem step_of_statementAt (h : P.Agrees a c) (hended : a.ended = false)
    {statement : LoopStatement σ} (hstatement : P.statementAt a.pos = some statement) :
    P.step c = P.runLine ⟨P.numberAt a.pos, statement⟩ c := by
  obtain ⟨line, hline, rfl, hnumber⟩ := statementAt_eq_some hstatement
  have hgoes : ¬ (c.ended = true ∨ c.error.isSome = true ∨ c.fault = true) := by
    simp [h.ended, hended, h.error, h.fault]
  rw [step, if_neg hgoes, h.pos, hline, ← hnumber]

theorem Agrees.whileDo (h : P.Agrees a c) (hended : a.ended = false) {condition : σ → Bool × σ}
    {tokens : List Token} (hstatement : P.statementAt a.pos = some (.whileDo condition tokens))
    (hmeets : P.meets a = true) : P.Agrees (P.next a) (P.step c) := by
  rw [meets, hstatement] at hmeets
  rw [step_of_statementAt h hended hstatement, next,
    if_neg (by rw [hended]; exact Bool.false_ne_true),
    hstatement]
  dsimp only [runLine] at hmeets ⊢
  rw [h.data]
  rcases Bool.eq_false_or_eq_true a.again with hagain | hagain
  · rw [hagain, if_pos rfl, Bool.or_eq_true] at hmeets
    cases hcondition : (condition a.data).1 with
    | true => exact h.while_again hstatement hagain _
    | false =>
      rw [hcondition] at hmeets
      rw [if_neg Bool.false_ne_true]
      exact h.while_ends hagain (hmeets.resolve_left Bool.false_ne_true) _
  · rw [hagain, if_neg Bool.false_ne_true, Bool.and_eq_true, Bool.and_eq_true, decide_eq_true_eq,
      bne_iff_ne] at hmeets
    obtain ⟨⟨hcondition, hhead⟩, hroom⟩ := hmeets
    rw [hcondition]
    exact h.while_first hstatement hagain hhead hroom _

theorem Agrees.line (h : P.Agrees a c) {statement : LoopStatement σ}
    (hstatement : P.statementAt a.pos = some statement)
    (hwhile : ∀ condition tokens, statement ≠ .whileDo condition tokens)
    (hend : statement ≠ .endwhile) (data : σ) :
    P.Agrees { a with pos := a.pos + 1, data := data }
      { c with pos := c.pos + 1, data := data } := by
  have hagain := h.not_again hstatement hwhile
  have hsame : P.enclosing (a.pos + 1) ++ a.returns.flatMap P.enclosing = P.running a := by
    rw [running_of_not_again hagain, enclosing_succ hstatement hwhile hend]
  have hnext := h.advance hsame data
  rw [← hagain] at hnext
  exact hnext

theorem Agrees.data_eq (h : P.Agrees a c) :
    { c with pos := c.pos + 1, data := a.data } = { c with pos := c.pos + 1 } := by
  rw [← h.data]

theorem Agrees.step (h : P.Agrees a c) (hP : P.WellNested) (hmeets : P.meets a = true) :
    P.Agrees (P.next a) (P.step c) := by
  cases hended : a.ended with
  | true =>
    rw [next, if_pos hended, LoopProgram.step, if_pos (.inl (h.ended.trans hended))]
    exact h
  | false =>
    have hgoes : ¬ a.ended = true := by rw [hended]; exact Bool.false_ne_true
    cases hstatement : P.statementAt a.pos with
    | none =>
      have hline : P.lines[c.pos]? = none := by
        rw [h.pos]
        exact Option.map_eq_none_iff.mp hstatement
      have hstays : P.step c = c := by
        rw [LoopProgram.step, hline]
        exact ite_self c
      rw [next, if_neg hgoes, hstatement, hstays]
      exact h
    | some statement =>
      cases statement with
      | whileDo condition tokens => exact h.whileDo hended hstatement hmeets
      | endwhile =>
        have hagain := h.not_again hstatement fun _ _ heq => by cases heq
        obtain ⟨hpos, hturn⟩ := h.turn hagain (hP.closes _ hstatement) a.data (c.pos + 1)
        rw [step_of_statementAt h hended hstatement, next, if_neg hgoes, hstatement, runLine]
        dsimp only
        rw [endwhileStatement, if_pos hpos]
        rw [h.data_eq] at hturn
        exact hturn
      | continueWhile taken guard =>
        have hagain := h.not_again hstatement fun _ _ heq => by cases heq
        rw [step_of_statementAt h hended hstatement, next, if_neg hgoes, hstatement, runLine]
        dsimp only
        rw [h.data]
        cases htaken : (taken a.data).1 with
        | true =>
          obtain ⟨hpos, hturn⟩ :=
            h.turn hagain (hP.continues _ _ _ hstatement) (taken a.data).2 (c.pos + 1)
          rw [if_pos rfl, if_pos rfl, continueStatement, if_neg (Nat.pos_iff_ne_zero.mp hpos)]
          exact hturn
        | false =>
          exact h.line hstatement (fun _ _ heq => by cases heq) (fun heq => by cases heq) _
      | procCall line tokens =>
        rw [step_of_statementAt h hended hstatement, next, if_neg hgoes, hstatement, runLine]
        rw [meets, hstatement] at hmeets
        exact h.call hP hstatement (of_decide_eq_true hmeets)
      | endproc =>
        have hagain := h.not_again hstatement fun _ _ heq => by cases heq
        rw [step_of_statementAt h hended hstatement, next, if_neg hgoes, hstatement, runLine]
        rw [meets, hstatement] at hmeets
        cases hreturns : a.returns with
        | nil =>
          rw [hreturns] at hmeets
          cases hmeets
        | cons r returns =>
          rw [hreturns] at hmeets
          obtain ⟨statement, hline⟩ := Option.isSome_iff_exists.mp hmeets
          exact h.endproc hreturns hagain hline
      | endProgram =>
        rw [step_of_statementAt h hended hstatement, next, if_neg hgoes, hstatement, runLine]
        have hnext :=
          h.line hstatement (fun _ _ heq => by cases heq) (fun heq => by cases heq) a.data
        rw [h.data_eq] at hnext
        exact hnext.finish
      | plain run tokens =>
        rw [step_of_statementAt h hended hstatement, next, if_neg hgoes, hstatement, runLine]
        dsimp only
        rw [h.data]
        exact h.line hstatement (fun _ _ heq => by cases heq) (fun heq => by cases heq) _

/-! ## Runs -/

theorem agrees_start (data : σ) : P.Agrees (LoopRun.start data) (WhileCtx.start data) := by
  have hnone : P.running (LoopRun.start data) = [] := rfl
  constructor
  case pos => rfl
  case data => rfl
  case ended => rfl
  case error => rfl
  case fault => rfl
  case again => exact fun hagain => by cases hagain
  case ptr => rfl
  case bounded => exact Nat.zero_le _
  case entries => rw [hnone]; trivial
  case frames => rfl
  case depth => exact (by decide : 0 < maxCallStackDepth)

theorem agrees_run (hP : P.WellNested) (data : σ) {n : ℕ}
    (hmeets : ∀ k < n, P.meets (P.next^[k] (LoopRun.start data)) = true) :
    P.Agrees (P.next^[n] (LoopRun.start data)) (P.step^[n] (WhileCtx.start data)) := by
  induction n with
  | zero => exact agrees_start data
  | succ n ih =>
    rw [Function.iterate_succ_apply', Function.iterate_succ_apply']
    exact (ih fun k hk => hmeets k (Nat.lt_succ_of_lt hk)).step hP (hmeets n (Nat.lt_succ_self n))

/-! ## What the stack keeps -/

variable (P) in
def InLoopOf (a b : LoopRun σ) : Prop :=
  (b.returns = a.returns ∧ (b.again = true ∧ b.pos = a.pos ∨ a.pos ∈ P.enclosing b.pos)) ∨
    ∃ l r, b.returns = l ++ r :: a.returns ∧ a.pos ∈ P.enclosing r

variable (P) in
def InProcOf (a b : LoopRun σ) : Prop :=
  (∃ line tokens, P.statementAt a.pos = some (.procCall line tokens)) ∧
    ∃ l, b.returns = l ++ (a.pos + 1) :: a.returns

theorem length_running_le (a : LoopRun σ) :
    (P.running a).length ≤ (P.enclosing a.pos).length + 1 +
    (a.returns.flatMap P.enclosing).length := by
  rw [running, List.length_append, List.length_append]
  split
  · exact (by rw [List.length_singleton]; omega)
  · exact (by rw [List.length_nil]; omega)

theorem le_length_running (b : LoopRun σ) :
    (P.enclosing b.pos).length + (b.returns.flatMap P.enclosing).length ≤ (P.running b).length := by
  rw [running, List.length_append, List.length_append]
  omega

theorem InLoopOf.running_le (h : P.InLoopOf a b) : (P.running a).length ≤ (P.running b).length := by
  have ha := length_running_le (P := P) a
  have hb := le_length_running (P := P) b
  rcases h with ⟨hreturns, ⟨hagain, hpos⟩ | hmem⟩ | ⟨l, r, hreturns, hmem⟩
  · have hrunning : (P.running b).length =
        (P.enclosing a.pos).length + 1 + (a.returns.flatMap P.enclosing).length := by
      rw [running, hagain, hpos, hreturns, if_pos rfl, List.length_append, List.length_append,
        List.length_singleton]
      omega
    rw [hrunning]
    exact ha
  · have hlt := enclosing_length_lt hmem
    rw [hreturns] at hb
    omega
  · have hlt := enclosing_length_lt hmem
    rw [hreturns, List.flatMap_append, List.flatMap_cons, List.length_append,
      List.length_append] at hb
    omega

theorem InProcOf.running_le (h : P.InProcOf a b) (hagain : a.again = false) :
    (P.running a).length ≤ (P.running b).length := by
  obtain ⟨⟨line, tokens, hstatement⟩, l, hreturns⟩ := h
  have hb := le_length_running (P := P) b
  have hsucc : P.enclosing (a.pos + 1) = P.enclosing a.pos :=
    enclosing_succ hstatement (fun _ _ heq => by cases heq) (fun heq => by cases heq)
  rw [hreturns, List.flatMap_append, List.flatMap_cons, hsucc, List.length_append,
    List.length_append] at hb
  rw [running_of_not_again hagain, List.length_append]
  omega

variable (P) in
/-- The interpreter goes with the run of the loops for a number of lines, and the stack is never
lower than it was when a loop or a procedure began that is still being run. -/
def KeepsLoops (data : σ) (n : ℕ) : Prop :=
  let a := fun k => P.next^[k] (LoopRun.start data)
  let c := fun k => P.step^[k] (WhileCtx.start data)
  ((c n).pos = (a n).pos ∧ (c n).data = (a n).data ∧ (c n).ended = (a n).ended ∧
    (c n).error = none ∧ (c n).fault = false) ∧
  ∀ k ≤ n, P.InLoopOf (a k) (a n) ∨ P.InProcOf (a k) (a n) →
    (c k).whileStackPtr ≤ (c n).whileStackPtr

def countsToTwo : LoopProgram ℕ where
  lines :=
    [⟨10, .whileDo (fun n => (n < 2, n)) []⟩, ⟨20, .procCall 50 []⟩, ⟨30, .endwhile⟩,
      ⟨40, .endProgram⟩,
      ⟨50, .plain id []⟩, ⟨60, .plain (fun n => n + 1) []⟩, ⟨70, .endproc⟩]
  distinct := by simp
  positive := by simp

def emptyInside : LoopProgram Unit where
  lines :=
    [⟨10, .whileDo (fun u => (true, u)) []⟩, ⟨20, .whileDo (fun u => (false, u)) []⟩,
      ⟨30, .plain id []⟩, ⟨40, .endwhile⟩, ⟨50, .endwhile⟩, ⟨60, .endProgram⟩]
  distinct := by simp
  positive := by simp

end LoopProgram

end RetroRocket
