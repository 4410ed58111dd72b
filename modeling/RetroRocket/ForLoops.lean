import RetroRocket.BasicEvaluator
import RetroRocket.CallFrames
import RetroRocket.CountLoop

/-!
# FOR and NEXT

`for_statement` behind the evaluation of its expressions, and `next_statement` up to its jump. NEXT
reads the loop variable as an expression does, in the frames from the innermost one on, and both
statements set it in the map of the program. The body of a loop is any change of the context.
-/

namespace RetroRocket

open BasicExpr

/-- The `to` and the `step` of a loop. -/
inductive LoopBounds where
  | int (limit step : BitVec 64)
  | real (limit step : Float)

/-- `for_state`, without the line behind the FOR. -/
structure ForState where
  forVariable : Name
  bounds : LoopBounds

/-- A context with its `for_stack`, from the innermost loop on. -/
structure ForContext where
  parse : ParseCtx
  forStack : List ForState

namespace ForContext

def report (error : String) (c : ForContext) : ForContext :=
  { c with parse := tokenizerErrorPrint error c.parse }

def assign (c : ForContext) : Except String BasicCtx → ForContext
  | .ok basic => { c with parse := { c.parse with basic := basic } }
  | .error error => c.report error

def setInt (var : Name) (value : BitVec 64) (c : ForContext) : ForContext :=
  c.assign (basicSetIntVariable var value c.parse.basic false false)

def setReal (var : Name) (value : Float) (c : ForContext) : ForContext :=
  c.assign (basicSetDoubleVariable var value c.parse.basic false false)

end ForContext

/-- The end of `for_statement`, where the loop is pushed. -/
def pushLoop (var : Name) (bounds : LoopBounds) (c : ForContext) : ForContext :=
  if c.forStack.length < maxLoopStackDepth then
    let infinite : Bool :=
      match bounds with
      | .int _ step => step == 0
      | .real _ step => step == 0
    if infinite then c.report "FOR loop is infinite"
    else { c with forStack := ⟨var, bounds⟩ :: c.forStack }
  else c.report "Too many FOR"

/-- `for_statement` for an integer variable. -/
def forInt (var : Name) (start limit step : BitVec 64) (c : ForContext) : ForContext :=
  pushLoop var (.int limit step) (c.setInt var start)

section Next

variable (calls : Calls)

/-- The variable of a loop is set to its next value, which is compared with `to`. -/
def advance (state : ForState) (c : ForContext) : Option (Bool × ForContext) :=
  match state.bounds with
  | .real limit step =>
    match getDoubleVariable calls state.forVariable c.parse with
    | (some value, parse) =>
      let incr := value.getD 0 + step
      let c := ({ c with parse := parse }).setReal state.forVariable incr
      some ((0 < step && incr ≤ limit) || (step < 0 && limit ≤ incr), c)
    | (none, _) => none
  | .int limit step =>
    match getNumericIntVariable calls state.forVariable c.parse with
    | (some value, parse) =>
      let incr := value + step
      let c := ({ c with parse := parse }).setInt state.forVariable incr
      some (decide (Within step.toInt limit.toInt incr.toInt), c)
    | (none, _) => none

/-- `next_statement`, and whether it jumps to the line behind the FOR. -/
def nextStatement (c : ForContext) : Option (Bool × ForContext) :=
  match c.forStack with
  | [] => some (false, c.report "NEXT without FOR")
  | state :: outer => do
    let (continueLoop, c) ← advance calls state c
    if continueLoop then some (true, c) else some (false, { c with forStack := outer })

def forLoop (var : Name) (body : ForContext → ForContext) :
    ℕ → ForContext → Option (List (BitVec 64) × ForContext)
  | 0, _ => none
  | fuel + 1, c => do
    let value ← (getNumericIntVariable calls var c.parse).1
    let (continueLoop, c) ← nextStatement calls (body c)
    if continueLoop then
      let (trace, c) ← forLoop var body fuel c
      some (value :: trace, c)
    else some ([value], c)

end Next

/-! ## Variables in the frames -/

def findLocal (maps : VarMaps) (var : Name) : ℕ → Option Variable
  | 0 => none
  | j + 1 => ((maps.locals (j + 1)).bind (· var)).orElse fun _ => findLocal maps var j

theorem findVariable_eq (maps : VarMaps) (var : Name) (j : ℕ) :
    findVariable maps var j = (findLocal maps var j).orElse fun _ => maps.globals var := by
  induction j with
  | zero => rfl
  | succ j ih =>
    rw [findVariable, findLocal, ih]
    cases (maps.locals (j + 1)).bind (· var) <;> rfl

def Variable.asInt (found : Variable) : BitVec 64 :=
  match found.value with
  | .int value => value
  | _ => 0

def ForContext.localInt (c : ForContext) (var : Name) : Option (BitVec 64) :=
  (findLocal (c.parse.basic.vars .int) var c.parse.basic.callStackPtr).map Variable.asInt

def ForContext.globalInt (c : ForContext) (var : Name) : Option (BitVec 64) :=
  ((c.parse.basic.vars .int).globals var).map Variable.asInt

def ForContext.readInt (c : ForContext) (var : Name) : Option (BitVec 64) :=
  (findVariable (c.parse.basic.vars .int) var c.parse.basic.callStackPtr).map Variable.asInt

theorem ForContext.readInt_eq (c : ForContext) (var : Name) :
    c.readInt var = (c.localInt var).orElse fun _ => c.globalInt var := by
  rw [readInt, localInt, globalInt, findVariable_eq]
  cases findLocal (c.parse.basic.vars .int) var c.parse.basic.callStackPtr <;> rfl

/-- The name of a variable that is no function and no array, and of which there is no real one. -/
structure IsLoopVariable (calls : Calls) (var : Name) (c : ForContext) : Prop where
  valid : validVar .int var
  int : calls.int var = none
  double : calls.double var = none
  real : findVariable (c.parse.basic.vars .double) var c.parse.basic.callStackPtr = none

/-- The body comes back to its frame with the loops as they were, and has not assigned to the
variable. -/
structure Leaves (var : Name) (body : ForContext → ForContext) : Prop where
  frame : ∀ c, (body c).parse.basic.callStackPtr = c.parse.basic.callStackPtr
  loops : ∀ c, (body c).forStack = c.forStack
  globals : ∀ c kind, ((body c).parse.basic.vars kind).globals var =
    (c.parse.basic.vars kind).globals var
  locals : ∀ c kind, ∀ j ≤ c.parse.basic.callStackPtr,
    (((body c).parse.basic.vars kind).locals j).bind (· var) =
      ((c.parse.basic.vars kind).locals j).bind (· var)

/-! ## Reading and setting the variable -/

theorem validName_ne_hash {name : Name} : ∀ {offset : ℕ}, validName offset name → '#' ∉ name := by
  induction name with
  | nil => simp
  | cons ch rest ih =>
    intro offset h
    have hch : ch ≠ '#' := by
      rintro rfl
      simp [validName] at h
    have hrest : '#' ∉ rest := by
      unfold validName at h
      split at h
      · exact ih h
      · split at h
        · cases h
        · split at h
          · cases h
          · exact ih h
    simp [hch.symm, hrest]

theorem findLocal_congr {maps maps' : VarMaps} {var : Name} {j : ℕ}
    (h : ∀ i ≤ j, (maps'.locals i).bind (· var) = (maps.locals i).bind (· var)) :
    findLocal maps' var j = findLocal maps var j := by
  induction j with
  | zero => rfl
  | succ j ih =>
    rw [findLocal, findLocal, h (j + 1) le_rfl, ih fun i hi => h i (by omega)]

namespace IsLoopVariable

variable {calls : Calls} {var : Name} {c d : ForContext} {v : BitVec 64}

theorem getLast_ne (h : IsLoopVariable calls var c) : var.getLast? ≠ some '#' := by
  intro hlast
  have hvalid := h.valid
  unfold validVar validSuffixVar at hvalid
  dsimp only at hvalid
  split at hvalid
  · cases hvalid
  · exact validName_ne_hash hvalid (List.mem_of_getLast? hlast)

theorem read (h : IsLoopVariable calls var c) (hv : c.readInt var = some v) :
    getNumericIntVariable calls var c.parse = (some v, c.parse) := by
  obtain ⟨found, hfound, rfl⟩ := Option.map_eq_some_iff.mp hv
  have hnoDouble :
      basicGetDoubleVariable var c.parse.basic = .error (noSuchVariable .double var) := by
    rw [basicGetDoubleVariable, basicGetVariable, h.real]
  have hdouble : getDoubleVariable calls var c.parse = (some none, c.parse) := by
    rw [getDoubleVariable, h.double]
    dsimp only
    rw [Action.bind_of_some (rfl : Action.get c.parse = (some c.parse, c.parse)), hnoDouble]
    dsimp only
    rw [if_neg h.getLast_ne]
    rfl
  have hint : getIntVariable calls var c.parse = (some found.asInt, c.parse) := by
    rw [getIntVariable, h.int]
    dsimp only
    rw [Action.bind_of_some (rfl : Action.get c.parse = (some c.parse, c.parse)),
      basicGetIntVariable, basicGetVariable, hfound]
    rcases found with ⟨_ | _ | _, _⟩ <;> rfl
  rw [getNumericIntVariable, Action.bind_of_some hdouble]
  exact hint

theorem setInt_eq (h : IsLoopVariable calls var c) (v : BitVec 64) :
    c.setInt var v = { c with parse := { c.parse with
      basic := setGlobalMap .int var ⟨.int v, false⟩ c.parse.basic } } := by
  rw [ForContext.setInt, basicSetIntVariable, basicSetVariable_global _ h.valid]
  rfl

theorem congr (h : IsLoopVariable calls var c)
    (hframe : d.parse.basic.callStackPtr = c.parse.basic.callStackPtr)
    (hglobal : (d.parse.basic.vars .double).globals var = (c.parse.basic.vars .double).globals var)
    (hlocals : ∀ j ≤ c.parse.basic.callStackPtr,
      ((d.parse.basic.vars .double).locals j).bind (· var) =
        ((c.parse.basic.vars .double).locals j).bind (· var)) : IsLoopVariable calls var d := by
  refine ⟨h.valid, h.int, h.double, ?_⟩
  rw [findVariable_eq, hframe, findLocal_congr hlocals, hglobal, ← findVariable_eq]
  exact h.real

end IsLoopVariable

/-! ## One turn -/

structure InLoop (calls : Calls) (var : Name) (limit step : BitVec 64) (outer : List ForState)
    (c : ForContext) : Prop where
  isVariable : IsLoopVariable calls var c
  stack : c.forStack = ⟨var, .int limit step⟩ :: outer

variable {calls : Calls} {var : Name} {limit step start v : BitVec 64} {outer : List ForState}
  {body : ForContext → ForContext} {c : ForContext}

theorem IsLoopVariable.after_setInt (h : IsLoopVariable calls var c) (v : BitVec 64) :
    IsLoopVariable calls var (c.setInt var v) ∧ (c.setInt var v).forStack = c.forStack ∧
      (c.setInt var v).localInt var = c.localInt var ∧
      (c.setInt var v).globalInt var = some v := by
  rw [h.setInt_eq]
  refine ⟨h.congr rfl rfl fun j _ => rfl, rfl, ?_, ?_⟩
  · rw [ForContext.localInt, ForContext.localInt]
    congr 1
    exact findLocal_congr fun i _ => by simp [setGlobalMap]
  · simp [ForContext.globalInt, setGlobalMap, Variable.asInt]

theorem Leaves.inLoop (hbody : Leaves var body) (h : InLoop calls var limit step outer c) :
    InLoop calls var limit step outer (body c) ∧ (body c).localInt var = c.localInt var ∧
      (body c).globalInt var = c.globalInt var := by
  refine ⟨⟨h.isVariable.congr (hbody.frame c) (hbody.globals c _) (hbody.locals c _), ?_⟩, ?_, ?_⟩
  · rw [hbody.loops, h.stack]
  · rw [ForContext.localInt, ForContext.localInt, hbody.frame,
      findLocal_congr (hbody.locals c .int)]
  · rw [ForContext.globalInt, ForContext.globalInt, hbody.globals]

/-- NEXT sets the variable of the program to the step behind what it has read, and jumps for as long
as that has not passed the limit. -/
theorem InLoop.next (h : InLoop calls var limit step outer c) (hv : c.readInt var = some v) :
    ∃ d, nextStatement calls c =
        some (decide (Within step.toInt limit.toInt (v + step).toInt), d) ∧
      (Within step.toInt limit.toInt (v + step).toInt → InLoop calls var limit step outer d ∧
        d.localInt var = c.localInt var ∧ d.globalInt var = some (v + step)) := by
  obtain ⟨hname, hstack, hlocal, hglobal⟩ := h.isVariable.after_setInt (v + step)
  have hadvance : advance calls ⟨var, .int limit step⟩ c =
      some (decide (Within step.toInt limit.toInt (v + step).toInt), c.setInt var (v + step)) := by
    simp only [advance, h.isVariable.read hv]
  rw [nextStatement, h.stack]
  dsimp only
  rw [hadvance, Option.bind_eq_bind, Option.bind_some]
  by_cases hwithin : Within step.toInt limit.toInt (v + step).toInt
  · refine ⟨c.setInt var (v + step), ?_, fun _ => ⟨⟨hname, hstack.trans h.stack⟩, hlocal, hglobal⟩⟩
    simp only [hwithin, decide_true, if_true]
  · refine ⟨{ c.setInt var (v + step) with forStack := outer }, ?_, fun h => absurd h hwithin⟩
    simp only [hwithin, decide_false, Bool.false_eq_true, if_false]

theorem InLoop.turn (h : InLoop calls var limit step outer c) (hbody : Leaves var body)
    (hv : c.readInt var = some v) :
    ∃ d, (Within step.toInt limit.toInt (v + step).toInt → InLoop calls var limit step outer d ∧
        d.localInt var = c.localInt var ∧ d.globalInt var = some (v + step)) ∧
      ∀ fuel, forLoop calls var body (fuel + 1) c =
        if Within step.toInt limit.toInt (v + step).toInt then
          (forLoop calls var body fuel d).map fun p => (v :: p.1, p.2)
        else some ([v], d) := by
  obtain ⟨hloop, hlocal, hglobal⟩ := hbody.inLoop h
  have hv' : (body c).readInt var = some v := by
    rw [ForContext.readInt_eq, hlocal, hglobal, ← ForContext.readInt_eq, hv]
  obtain ⟨d, hnext, hd⟩ := hloop.next hv'
  refine ⟨d, fun hwithin => ?_, fun fuel => ?_⟩
  · obtain ⟨hin, hlocal', hglobal'⟩ := hd hwithin
    exact ⟨hin, hlocal'.trans hlocal, hglobal'⟩
  · rw [forLoop, h.isVariable.read hv]
    dsimp only
    rw [Option.bind_eq_bind, Option.bind_some, hnext, Option.bind_eq_bind, Option.bind_some]
    by_cases hwithin : Within step.toInt limit.toInt (v + step).toInt
    · simp only [hwithin, decide_true, if_true]
      cases forLoop calls var body fuel d <;> rfl
    · simp only [hwithin, decide_false, Bool.false_eq_true, if_false]

/-! ## The whole loop -/

theorem InLoop.global_trace (h : InLoop calls var limit step outer c) (hbody : Leaves var body)
    (hlocal : c.localInt var = none) (hglobal : c.globalInt var = some v) (fuel : ℕ) :
    (forLoop calls var body fuel c).map Prod.fst = countLoop limit step fuel v := by
  induction fuel generalizing c v with
  | zero => rfl
  | succ fuel ih =>
    have hv : c.readInt var = some v := by
      rw [ForContext.readInt_eq, hlocal, hglobal]
      rfl
    obtain ⟨d, hd, hturn⟩ := h.turn hbody hv
    rw [hturn, countLoop]
    split
    · next hwithin =>
      obtain ⟨hin, hlocal', hglobal'⟩ := hd hwithin
      rw [← ih hin (hlocal'.trans hlocal) hglobal', Option.map_map, Option.map_map]
      rfl
    · rfl

theorem InLoop.local_trace (h : InLoop calls var limit step outer c) (hbody : Leaves var body)
    (hlocal : c.localInt var = some v) (fuel : ℕ) :
    (forLoop calls var body fuel c).map Prod.fst =
      if Within step.toInt limit.toInt (v + step).toInt ∨ fuel = 0 then none else some [v] := by
  induction fuel generalizing c with
  | zero => simp [forLoop]
  | succ fuel ih =>
    have hv : c.readInt var = some v := by
      rw [ForContext.readInt_eq, hlocal]
      rfl
    obtain ⟨d, hd, hturn⟩ := h.turn hbody hv
    rw [hturn]
    by_cases hwithin : Within step.toInt limit.toInt (v + step).toInt
    · obtain ⟨hin, hlocal', -⟩ := hd hwithin
      have ih := ih hin (hlocal'.trans hlocal)
      rw [if_pos (Or.inl hwithin), Option.map_eq_none_iff] at ih
      rw [if_pos hwithin, if_pos (Or.inl hwithin), ih]
      rfl
    · rw [if_neg hwithin, if_neg (not_or.mpr ⟨hwithin, Nat.succ_ne_zero fuel⟩)]
      rfl

/-- The loop ends, and its body has found the values from `start` on by `step` that have not passed
`limit` in the variable, the first one in any case. -/
def CountsThrough (calls : Calls) (var : Name) (body : ForContext → ForContext)
    (start limit step : BitVec 64) (c : ForContext) : Prop :=
  ∃ fuel trace d, forLoop calls var body fuel (forInt var start limit step c) = some (trace, d) ∧
    trace.map BitVec.toInt = counted start.toInt limit.toInt step.toInt

theorem countsThrough_iff_trace :
    CountsThrough calls var body start limit step c ↔
      ∃ fuel trace, (forLoop calls var body fuel (forInt var start limit step c)).map Prod.fst =
        some trace ∧ trace.map BitVec.toInt = counted start.toInt limit.toInt step.toInt := by
  constructor
  · rintro ⟨fuel, trace, d, hloop, hvalues⟩
    exact ⟨fuel, trace, by rw [hloop, Option.map_some], hvalues⟩
  · rintro ⟨fuel, trace, hloop, hvalues⟩
    obtain ⟨p, hp, rfl⟩ := Option.map_eq_some_iff.mp hloop
    exact ⟨fuel, p.1, p.2, hp, hvalues⟩

theorem IsLoopVariable.inLoop_forInt (h : IsLoopVariable calls var c) (hstep : step ≠ 0)
    (hdepth : c.forStack.length < maxLoopStackDepth) (start limit : BitVec 64) :
    InLoop calls var limit step c.forStack (forInt var start limit step c) ∧
      (forInt var start limit step c).localInt var = c.localInt var ∧
      (forInt var start limit step c).globalInt var = some start := by
  obtain ⟨hname, hstack, hlocal, hglobal⟩ := h.after_setInt start
  have hpush : forInt var start limit step c = { c.setInt var start with
      forStack := ⟨var, .int limit step⟩ :: c.forStack } := by
    have hfinite : (step == 0) = false := beq_eq_false_iff_ne.mpr hstep
    simp only [forInt, pushLoop, hstack, hdepth, hfinite, if_true, Bool.false_eq_true, if_false]
  rw [hpush]
  exact ⟨⟨hname.congr rfl rfl fun _ _ => rfl, rfl⟩, hlocal, hglobal⟩

/-- A loop counts exactly if its variable is not in the frame or in one around it, unless it has the
first value there and that is the only one, and if the value behind the limit does not wrap around
to one within it. -/
theorem countsThrough_iff (calls : Calls) (var : Name) (body : ForContext → ForContext)
    (start limit step : BitVec 64) (c : ForContext) (hvar : IsLoopVariable calls var c)
    (hbody : Leaves var body) (hstep : step ≠ 0) (hdepth : c.forStack.length < maxLoopStackDepth) :
    CountsThrough calls var body start limit step c ↔
      ¬ Within step.toInt limit.toInt (behindLimit start limit step).toInt ∧
        ∀ value, c.localInt var = some value →
          value = start ∧ turns start.toInt limit.toInt step.toInt = 0 := by
  have hstepInt : step.toInt ≠ 0 := fun hzero => hstep (BitVec.toInt_inj.mp (by simpa using hzero))
  obtain ⟨hloop, hlocal, hglobal⟩ := hvar.inLoop_forInt hstep hdepth start limit
  rw [countsThrough_iff_trace]
  cases hframe : c.localInt var with
  | none =>
    simp only [hloop.global_trace hbody (hlocal.trans hframe) hglobal]
    rw [countLoop_counted_iff (by decide) hstepInt]
    simp
  | some value =>
    simp only [hloop.local_trace hbody (hlocal.trans hframe), Option.some.injEq, forall_eq']
    have hcounted := counted_eq_singleton_iff start.toInt limit.toInt step.toInt value.toInt
    constructor
    · rintro ⟨fuel, trace, htrace, hvalues⟩
      split at htrace
      · cases htrace
      · next hnot =>
        cases htrace
        obtain ⟨heq, hturns⟩ := hcounted.mp hvalues.symm
        obtain rfl := BitVec.toInt_inj.mp heq
        refine ⟨?_, rfl, hturns⟩
        rw [behindLimit, hturns, nthValue_one]
        exact fun hwithin => hnot (Or.inl hwithin)
    · rintro ⟨hbehind, rfl, hturns⟩
      rw [behindLimit, hturns, nthValue_one] at hbehind
      have hvalues := hcounted.mpr ⟨rfl, hturns⟩
      exact ⟨1, [value], by rw [if_neg (not_or.mpr ⟨hbehind, Nat.one_ne_zero⟩)], hvalues.symm⟩

/-! ## A loop over the variable of a frame -/

/-- The frame of a procedure whose `LOCAL` variable has a value. -/
def frameContext (var : Name) (value : BitVec 64) : ForContext where
  parse := ⟨[], [], .noToken, 10, ⟨1, frameVars⟩, []⟩
  forStack := []
where
  frameVars : VarKind → VarMaps
    | .int => ⟨fun _ => none, fun j => if j = 1 then some frame else none⟩
    | _ => ⟨fun _ => none, fun _ => none⟩
  frame : VarMap := fun x => if x = var then some ⟨.int value, false⟩ else none

theorem frameContext_isVariable (value : BitVec 64) :
    IsLoopVariable noCalls ['I'] (frameContext ['I'] value) :=
  ⟨by decide, rfl, rfl, rfl⟩

theorem countsThrough_iff_local :
    CountsThrough noCalls ['I'] id 5 5 1 (frameContext ['I'] 5) ↔
      ¬ Within (1 : BitVec 64).toInt (5 : BitVec 64).toInt (behindLimit 5 5 (1 : BitVec 64)).toInt ∧
        ∀ value, (frameContext ['I'] 5).localInt ['I'] = some value →
          value = 5 ∧ turns (5 : BitVec 64).toInt (5 : BitVec 64).toInt (1 : BitVec 64).toInt = 0 :=
  countsThrough_iff noCalls ['I'] id 5 5 1 (frameContext ['I'] 5) (frameContext_isVariable 5)
    ⟨fun _ => rfl, fun _ => rfl, fun _ _ => rfl, fun _ _ _ _ => rfl⟩ (by decide) (by decide)

/-- `FOR I = 1 TO 3` where `I` is a `LOCAL` variable with the value 0 does not come to an end. -/
theorem local_loop_endless :
    ¬ ∀ (calls : Calls) (var : Name) (body : ForContext → ForContext) (start limit step : BitVec 64)
      (c : ForContext), IsLoopVariable calls var c → Leaves var body → step ≠ 0 →
        c.forStack.length < maxLoopStackDepth →
          CountsThrough calls var body start limit step c := by
  intro h
  have hvar := frameContext_isVariable 0
  have hbody : Leaves ['I'] id := ⟨fun _ => rfl, fun _ => rfl, fun _ _ => rfl, fun _ _ _ _ => rfl⟩
  obtain ⟨hloop, hlocal, -⟩ :=
    hvar.inLoop_forInt (show (1 : BitVec 64) ≠ 0 by decide) (by decide) 1 3
  obtain ⟨fuel, trace, htrace, -⟩ :=
    countsThrough_iff_trace.mp (h noCalls ['I'] id 1 3 1 (frameContext ['I'] 0) hvar hbody
      (by decide) (by decide))
  rw [hloop.local_trace hbody (hlocal.trans rfl), if_pos (Or.inl (by decide))] at htrace
  cases htrace

end RetroRocket
