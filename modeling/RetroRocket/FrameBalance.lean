import RetroRocket.CallFrames

/-!
# Balanced frames

The calls that are open in a run, with the pointers they found, against the frames of the
interpreter. Where each statement meets its condition, the arrays are indexed within their bounds,
there is one frame for each open call, and a return leaves the pointers as they were at the call.
-/

namespace RetroRocket

inductive CallKind where
  | gosub
  | proc
  | eval
  | library
  | handler
  | procArguments
  | fnArguments
  | fn (type : ReturnType)

namespace CallKind

def savesLoops : CallKind → Bool
  | gosub | proc => true
  | _ => false

/-- A call that leaves `fn_type` as it is. -/
def isPlain : CallKind → Bool
  | gosub | eval => true
  | _ => false

/-- A call that sets `fn_type` and saves the old one. -/
def isProcedure : CallKind → Bool
  | proc | library | handler => true
  | _ => false

def isArguments : CallKind → Bool
  | procArguments | fnArguments => true
  | _ => false

def isFn : CallKind → Bool
  | fn _ => true
  | _ => false

end CallKind

structure OpenCall where
  kind : CallKind
  loops : LoopState
  fnType : ReturnType

/-- A saved state that gives the loop pointers back to a call that ends no FOR loop of its caller
and leaves none open. -/
def LoopState.Covers (slot loops : LoopState) : Prop :=
  loops.forStackPtr ≤ slot.forStackPtr ∧ slot.whileStackPtr = loops.whileStackPtr ∧
    slot.repeatStackPtr = loops.repeatStackPtr

/-! ## Conditions -/

def argumentLoops : List OpenCall → Option LoopState
  | [] => none
  | call :: _ => if call.kind.isArguments then some call.loops else none

/-- An error is not handled, or it is outside of arguments and its handler finds a frame and the
loop pointers saved. -/
def ErrorFits (c : CallContext) (calls : List OpenCall) (place : Place) : Prop :=
  c.evalLinenum ≠ 0 ∨ c.ended = true ∨ c.errorHandler = false ∨
    (place.newline = true ∧ c.callStackPtr + 1 < maxCallStackDepth ∧
      (c.loopStateStack c.callStackPtr).Covers c.loops ∧ argumentLoops calls = none)

/-- No FOR loop of the caller has been ended; and none is left open by a call that has not saved the
pointer, unless it happens to be the one that is saved. -/
def LoopsFit (c : CallContext) (call : OpenCall) (rest : List OpenCall) : Prop :=
  call.loops.forStackPtr ≤ c.loops.forStackPtr ∧
    (call.kind.savesLoops = true ∨ c.loops.forStackPtr = call.loops.forStackPtr ∨
      (c.loopStateStack rest.length).forStackPtr = call.loops.forStackPtr)

def ReturnFits (c : CallContext) (place : Place) : List OpenCall → Prop
  | [] => ErrorFits c [] place
  | call :: rest =>
    (call.kind.isPlain = true ∨ call.kind.isProcedure = true ∧ call.fnType = .none) ∧
      LoopsFit c call rest

def EndprocFits (c : CallContext) (place : Place) (calls : List OpenCall) : Prop :=
  if c.fnType ≠ .none ∧ c.fnType ≠ .main then ErrorFits c calls place
  else match calls with
    | [] => ErrorFits c calls place
    | call :: rest =>
      (call.kind.isProcedure = true ∨
        call.kind.isPlain = true ∧ c.fnTypeStack rest.length = call.fnType) ∧ LoopsFit c call rest

def CallEvent.Fits (m : CallMachine) (calls : List OpenCall) : CallEvent → Prop
  | lineStatement _ | useLocals | onError _ | endStatement => True
  | error place => ErrorFits m.ctx calls place
  | gosubStatement _ | procFrame _ | fnFrame _ => m.ctx.callStackPtr + 1 < maxCallStackDepth
  | returnStatement place => ReturnFits m.ctx place calls
  | procCall place => place.newline = true ∧ ∃ call rest, calls = call :: rest ∧
      call.kind = .procArguments
  | endprocStatement place => EndprocFits m.ctx place calls
  | libraryStatement _ => m.ctx.callStackPtr + 1 < maxCallStackDepth ∧
      (m.ctx.loopStateStack m.ctx.callStackPtr).Covers m.ctx.loops
  | evalStatement _ _ => m.ctx.currentLinenum = evalLine ∨ m.ctx.oldlen ≠ 0 ∨
      (m.ctx.callStackPtr + 1 < maxCallStackDepth ∧
        (m.ctx.loopStateStack m.ctx.callStackPtr).Covers m.ctx.loops)
  | eqStatement place => m.ctx.fnType = .none → ErrorFits m.ctx calls place
  | forStatement place infinite => argumentLoops calls = none ∧
      (infinite = true ∨ maxLoopStackDepth ≤ m.ctx.loops.forStackPtr → ErrorFits m.ctx calls place)
  | nextStatement place _ => argumentLoops calls = none ∧
      (m.ctx.loops.forStackPtr = 0 → ErrorFits m.ctx calls place)
  | repeatStatement place => argumentLoops calls = none ∧
      (maxLoopStackDepth ≤ m.ctx.loops.repeatStackPtr → ErrorFits m.ctx calls place)
  | untilStatement place _ => argumentLoops calls = none ∧
      (m.ctx.loops.repeatStackPtr = 0 → ErrorFits m.ctx calls place)
  | whileStatement place _ _ => argumentLoops calls = none ∧
      (maxLoopStackDepth ≤ m.ctx.loops.whileStackPtr → ErrorFits m.ctx calls place)
  | fnClone _ _ memory => memory = true ∧ ∃ call rest, calls = call :: rest ∧
      call.kind = .fnArguments
  | fnReturn failures memory => memory = true ∧ ∀ caller ∈ m.callers.head?, failures = [] ∨
      caller.evalLinenum ≠ 0 ∨ caller.errorHandler = false ∨
        (m.ctx.errored = true ∧ m.ctx.ended = true)
  | recover => m.ctx.errored = true → ∀ call ∈ calls.head?, m.ctx.loops = call.loops ∧
      m.ctx.fnType = call.fnType

/-! ## Runs -/

def CallEvent.kind : CallEvent → CallKind
  | gosubStatement _ => .gosub
  | procFrame _ => .procArguments
  | libraryStatement _ => .library
  | evalStatement _ _ => .eval
  | fnFrame _ => .fnArguments
  | _ => .handler

/-- The open calls after a statement: a frame that is pushed is a call, and the calls whose frames
are popped have returned. -/
def track (kind : CallKind) (c c' : CallContext) (calls : List OpenCall) : List OpenCall :=
  if c.callStackPtr < c'.callStackPtr then ⟨kind, c.loops, c.fnType⟩ :: calls
  else calls.drop (c.callStackPtr - c'.callStackPtr)

def setKind (kind : CallKind) : List OpenCall → List OpenCall
  | [] => []
  | call :: rest => { call with kind := kind } :: rest

def CallEvent.calls (m m' : CallMachine) (calls : List OpenCall) : CallEvent → List OpenCall
  | procCall _ => setKind .proc calls
  | fnClone _ type _ => setKind (.fn type) calls
  | e => track e.kind m.ctx m'.ctx calls

/-- A step that takes frames away leaves the pointers and the type as they were at the call that the
last of them was for. -/
def Restores (c c' : CallContext) (calls : List OpenCall) : Prop :=
  c'.callStackPtr < c.callStackPtr → ∃ call,
    calls[c.callStackPtr - c'.callStackPtr - 1]? = some call ∧
    c'.loops = call.loops ∧ c'.fnType = call.fnType

inductive CallRun : CallMachine → List OpenCall → Prop
  | init (saved : ℕ → LoopState) :
      CallRun ⟨{ CallContext.init with loopStateStack := saved }, []⟩ []
  | step {m m' : CallMachine} {calls : List OpenCall} {e : CallEvent} (run : CallRun m calls)
      (fits : e.Fits m calls) (step : m.step e = some m') : CallRun m' (e.calls m m' calls)

/-! ## What the frames keep -/

namespace OpenCall

def bodyType (call : OpenCall) : ReturnType :=
  match call.kind with
  | .proc | .library | .handler => .none
  | .fn type => type
  | _ => call.fnType

def LoopsHold (call : OpenCall) (slot : LoopState) : Prop :=
  match call.kind with
  | .gosub | .proc => slot = call.loops
  | .eval | .library | .handler => slot.Covers call.loops
  | _ => True

def TypeHolds (call : OpenCall) (type : ReturnType) : Prop :=
  call.kind.isProcedure = true → type = call.fnType

end OpenCall

def bodyType : List OpenCall → ReturnType
  | [] => .main
  | call :: _ => call.bodyType

def LoopsKept (slots : ℕ → LoopState) : List OpenCall → Prop
  | [] => True
  | call :: rest => call.LoopsHold (slots rest.length) ∧ LoopsKept slots rest

def TypesKept (types : ℕ → ReturnType) : List OpenCall → Prop
  | [] => True
  | call :: rest => call.TypeHolds (types rest.length) ∧ TypesKept types rest

def Nested : List OpenCall → Prop
  | [] => True
  | call :: rest =>
    call.fnType = bodyType rest ∧ (∀ l ∈ argumentLoops rest, call.loops = l) ∧ Nested rest

theorem LoopsKept.congr {slots slots' : ℕ → LoopState} {calls : List OpenCall}
    (heq : ∀ i < calls.length, slots' i = slots i) (h : LoopsKept slots calls) :
    LoopsKept slots' calls := by
  induction calls with
  | nil => trivial
  | cons call rest ih =>
    constructor
    · rw [heq _ (Nat.lt_succ_self _)]
      exact h.1
    · exact ih (fun i hi => heq i (Nat.lt_succ_of_lt hi)) h.2

theorem TypesKept.congr {types types' : ℕ → ReturnType} {calls : List OpenCall}
    (heq : ∀ i < calls.length, types' i = types i) (h : TypesKept types calls) :
    TypesKept types' calls := by
  induction calls with
  | nil => trivial
  | cons call rest ih =>
    constructor
    · rw [heq _ (Nat.lt_succ_self _)]
      exact h.1
    · exact ih (fun i hi => heq i (Nat.lt_succ_of_lt hi)) h.2

structure Sound (c : CallContext) (calls : List OpenCall) : Prop where
  depth : calls.length = c.callStackPtr
  bound : c.callStackPtr < maxCallStackDepth
  loops : LoopsKept c.loopStateStack calls
  types : TypesKept c.fnTypeStack calls
  type : c.fnType = bodyType calls
  arguments : ∀ l ∈ argumentLoops calls, c.loops = l
  nested : Nested calls

structure Waits (caller : CallContext) (call : OpenCall) (rest : List OpenCall) : Prop where
  depth : caller.callStackPtr = rest.length + 1
  loops : caller.loops = call.loops
  type : caller.fnType = call.fnType
  types : TypesKept caller.fnTypeStack rest

def Waiting : List CallContext → List OpenCall → Prop
  | callers, [] => callers = []
  | callers, call :: rest =>
    if call.kind.isFn then ∃ caller callers', callers = caller :: callers' ∧
      Waits caller call rest ∧
      Waiting callers' rest
    else Waiting callers rest

def Steps (kind : CallKind) (c : CallContext) (calls : List OpenCall) (r : Option CallContext) :
    Prop :=
  ∃ c', r = some c' ∧ Sound c' (track kind c c' calls) ∧ Restores c c' calls ∧
    ∀ callers, Waiting callers calls → Waiting callers (track kind c c' calls)

namespace Steps

variable {kind : CallKind} {c c' : CallContext} {calls rest : List OpenCall} {call : OpenCall}

theorem same (hs : Sound c calls) (hptr : c'.callStackPtr = c.callStackPtr)
    (hslots : c'.loopStateStack = c.loopStateStack) (htypes : c'.fnTypeStack = c.fnTypeStack)
    (htype : c'.fnType = c.fnType) (harguments : ∀ l ∈ argumentLoops calls, c'.loops = l) :
    Steps kind c calls (some c') := by
  have htrack : track kind c c' calls = calls := by
    unfold track
    rw [hptr, if_neg (Nat.lt_irrefl _), Nat.sub_self, List.drop_zero]
  refine ⟨c', rfl, ?_, ?_, ?_⟩
  · rw [htrack]
    exact ⟨hptr ▸ hs.depth, hptr ▸ hs.bound, hslots ▸ hs.loops, htypes ▸ hs.types,
      htype.trans hs.type, harguments, hs.nested⟩
  · intro hlt
    rw [hptr] at hlt
    exact absurd hlt (Nat.lt_irrefl _)
  · intro callers hw
    rw [htrack]
    exact hw

theorem push (hs : Sound c calls) (hbound : c.callStackPtr + 1 < maxCallStackDepth)
    (hfn : kind.isFn = false) (hptr : c'.callStackPtr = c.callStackPtr + 1)
    (hslots : ∀ i < c.callStackPtr, c'.loopStateStack i = c.loopStateStack i)
    (htypes : ∀ i < c.callStackPtr, c'.fnTypeStack i = c.fnTypeStack i)
    (hslot : OpenCall.LoopsHold ⟨kind, c.loops, c.fnType⟩ (c'.loopStateStack c.callStackPtr))
    (hsaved : OpenCall.TypeHolds ⟨kind, c.loops, c.fnType⟩ (c'.fnTypeStack c.callStackPtr))
    (htype : c'.fnType = OpenCall.bodyType ⟨kind, c.loops, c.fnType⟩)
    (hloops : c'.loops = c.loops) :
    Steps kind c calls (some c') := by
  have htrack : track kind c c' calls = ⟨kind, c.loops, c.fnType⟩ :: calls := by
    unfold track
    rw [hptr, if_pos (Nat.lt_succ_self _)]
  refine ⟨c', rfl, ?_, ?_, ?_⟩
  · rw [htrack]
    have hdepth := hs.depth
    constructor
    · rw [List.length_cons, hptr, hdepth]
    · rw [hptr]
      exact hbound
    · constructor
      · rw [hdepth]
        exact hslot
      · exact hs.loops.congr fun i hi => hslots i (hdepth ▸ hi)
    · constructor
      · rw [hdepth]
        exact hsaved
      · exact hs.types.congr fun i hi => htypes i (hdepth ▸ hi)
    · exact htype
    · intro l hl
      rw [argumentLoops, Option.mem_def] at hl
      split at hl
      · exact hloops.trans (Option.some.inj hl)
      · cases hl
    · exact ⟨hs.type, hs.arguments, hs.nested⟩
  · intro hlt
    omega
  · intro callers hw
    rw [htrack, Waiting, if_neg (by rw [hfn]; exact Bool.false_ne_true)]
    exact hw

theorem pop (hs : Sound c (call :: rest)) (hfn : call.kind.isFn = false)
    (hptr : c'.callStackPtr = c.callStackPtr - 1) (hslots : c'.loopStateStack = c.loopStateStack)
    (htypes : c'.fnTypeStack = c.fnTypeStack) (hloops : c'.loops = call.loops)
    (htype : c'.fnType = call.fnType) : Steps kind c (call :: rest) (some c') := by
  have hdepth : rest.length + 1 = c.callStackPtr := hs.depth
  have hone : c.callStackPtr - c'.callStackPtr = 1 := by omega
  have htrack : track kind c c' (call :: rest) = rest := by
    unfold track
    rw [hone, if_neg (by omega)]
    rfl
  obtain ⟨hinner, harguments, hnested⟩ := hs.nested
  refine ⟨c', rfl, ?_, ?_, ?_⟩
  · rw [htrack]
    have hbound := hs.bound
    constructor
    · omega
    · omega
    · rw [hslots]
      exact hs.loops.2
    · rw [htypes]
      exact hs.types.2
    · rw [htype, hinner]
    · intro l hl
      rw [hloops]
      exact harguments l hl
    · exact hnested
  · intro _
    rw [hone]
    exact ⟨call, rfl, hloops, htype⟩
  · intro callers hw
    rw [Waiting, if_neg (by rw [hfn]; exact Bool.false_ne_true)] at hw
    rw [htrack]
    exact hw

end Steps

theorem LoopsFit.restored {c : CallContext} {call : OpenCall} {rest : List OpenCall}
    (hfits : LoopsFit c call rest)
    (hkind : call.kind.isPlain = true ∨ call.kind.isProcedure = true)
    (hold : call.LoopsHold (c.loopStateStack rest.length)) :
    (⟨min (c.loopStateStack rest.length).forStackPtr c.loops.forStackPtr,
      (c.loopStateStack rest.length).whileStackPtr, (c.loopStateStack rest.length).repeatStackPtr⟩ :
        LoopState) = call.loops := by
  obtain ⟨hle, hopen⟩ := hfits
  obtain ⟨kind, loops, type⟩ := call
  have hsaved : ∀ slot : LoopState, slot = loops →
      (⟨min slot.forStackPtr c.loops.forStackPtr, slot.whileStackPtr,
        slot.repeatStackPtr⟩ : LoopState) =
        loops := by
    rintro _ rfl
    rw [Nat.min_eq_left hle]
  have hcovered : ∀ slot : LoopState, slot.Covers loops →
      (c.loops.forStackPtr = loops.forStackPtr ∨ slot.forStackPtr = loops.forStackPtr) →
      (⟨min slot.forStackPtr c.loops.forStackPtr, slot.whileStackPtr,
        slot.repeatStackPtr⟩ : LoopState) =
        loops := by
    rintro slot ⟨hfor, hwhile, hrepeat⟩ hone
    have hmin : min slot.forStackPtr c.loops.forStackPtr = loops.forStackPtr := by
      dsimp only at hle
      omega
    rw [hmin, hwhile, hrepeat]
  cases kind with
  | gosub => exact hsaved _ hold
  | proc => exact hsaved _ hold
  | eval => exact hcovered _ hold (hopen.resolve_left nofun)
  | library => exact hcovered _ hold (hopen.resolve_left nofun)
  | handler => exact hcovered _ hold (hopen.resolve_left nofun)
  | procArguments => cases hkind <;> contradiction
  | fnArguments => cases hkind <;> contradiction
  | fn => cases hkind <;> contradiction

theorem not_isFn {kind : CallKind} (hkind : kind.isPlain = true ∨ kind.isProcedure = true) :
    kind.isFn = false := by
  cases kind <;> first | rfl | (cases hkind <;> contradiction)

/-! ## Calls -/

namespace CallContext

variable {c : CallContext} {place : Place}

theorem unwindFor_eq (saved ptr : ℕ) : unwindFor saved ptr = min saved ptr := by
  induction ptr with
  | zero => exact (Nat.min_zero saved).symm
  | succ ptr ih =>
    unfold unwindFor
    split
    · rw [ih]
      omega
    · omega

theorem gosubStatement_eq (h : c.callStackPtr + 1 < maxCallStackDepth) :
    c.gosubStatement place = some { c with
      callStack := Function.update c.callStack c.callStackPtr place.line
      loopStateStack := Function.update c.loopStateStack c.callStackPtr c.loops
      callStackPtr := c.callStackPtr + 1
      localVariables := Function.update c.localVariables (c.callStackPtr + 1) true } := by
  have hlt : c.callStackPtr < maxCallStackDepth := Nat.lt_of_succ_lt h
  simp [gosubStatement, saveLine, saveLoops, newStackFrame, initLocalHeap, indexed, pushFrame, hlt,
    Nat.not_le_of_lt hlt, h]

theorem argumentFrame_eq (h : c.callStackPtr + 1 < maxCallStackDepth) :
    c.argumentFrame place = some { c with
      callStackPtr := c.callStackPtr + 1
      localVariables := Function.update c.localVariables (c.callStackPtr + 1) true } := by
  have hlt : c.callStackPtr < maxCallStackDepth := Nat.lt_of_succ_lt h
  simp [argumentFrame, newStackFrame, initLocalHeap, indexed, pushFrame, Nat.not_le_of_lt hlt, h]

theorem libraryStatement_eq (h : c.callStackPtr + 1 < maxCallStackDepth) :
    c.libraryStatement place = some { c with
      callStack := Function.update c.callStack c.callStackPtr place.line
      fnTypeStack := Function.update c.fnTypeStack c.callStackPtr c.fnType
      callStackPtr := c.callStackPtr + 1
      localVariables := Function.update c.localVariables (c.callStackPtr + 1) true
      fnType := .none } := by
  have hlt : c.callStackPtr < maxCallStackDepth := Nat.lt_of_succ_lt h
  simp [libraryStatement, saveLine, saveType, newStackFrame, initLocalHeap, indexed, pushFrame, hlt,
    Nat.not_le_of_lt hlt, h]

theorem procCall_eq (hpos : 0 < c.callStackPtr) (h : c.callStackPtr < maxCallStackDepth)
    (hnewline : place.newline = true) : c.procCall place = some { c with
      fnTypeStack := Function.update c.fnTypeStack (c.callStackPtr - 1) c.fnType
      loopStateStack := Function.update c.loopStateStack (c.callStackPtr - 1) c.loops
      callStack := Function.update c.callStack (c.callStackPtr - 1) place.line
      fnType := .none } := by
  have hlt : c.callStackPtr - 1 < maxCallStackDepth := by omega
  have hptr : c.callStackPtr - 1 + 1 = c.callStackPtr := by omega
  simp [procCall, popStackFrame, saveType, saveLoops, saveLine, newStackFrame,
    indexed, pushFrame, hlt,
    Nat.not_le_of_lt hlt, hnewline, hptr]

theorem returnStatement_eq (hpos : 0 < c.callStackPtr) (h : c.callStackPtr < maxCallStackDepth) :
    c.returnStatement place = some { c with
      callStackPtr := c.callStackPtr - 1
      localVariables := Function.update c.localVariables c.callStackPtr false
      loops := ⟨min (c.loopStateStack (c.callStackPtr - 1)).forStackPtr c.loops.forStackPtr,
        (c.loopStateStack (c.callStackPtr - 1)).whileStackPtr,
        (c.loopStateStack (c.callStackPtr - 1)).repeatStackPtr⟩ } := by
  have hlt : c.callStackPtr - 1 < maxCallStackDepth := by omega
  simp [returnStatement, popStackFrame, freeLocalHeap, restoreLoops, indexed, hpos, hlt,
    h, unwindFor_eq]

theorem endprocStatement_eq (htype : ¬ (c.fnType ≠ .none ∧ c.fnType ≠ .main))
    (hpos : 0 < c.callStackPtr) (h : c.callStackPtr < maxCallStackDepth) :
    c.endprocStatement place = some { c with
      callStackPtr := c.callStackPtr - 1
      localVariables := Function.update c.localVariables c.callStackPtr false
      fnType := c.fnTypeStack (c.callStackPtr - 1)
      loops := ⟨min (c.loopStateStack (c.callStackPtr - 1)).forStackPtr c.loops.forStackPtr,
        (c.loopStateStack (c.callStackPtr - 1)).whileStackPtr,
        (c.loopStateStack (c.callStackPtr - 1)).repeatStackPtr⟩ } := by
  have hlt : c.callStackPtr - 1 < maxCallStackDepth := by omega
  unfold endprocStatement
  rw [if_neg htype]
  simp [popStackFrame, freeLocalHeap, restoreLoops, restoreType, indexed, hpos, hlt,
    h, unwindFor_eq]

theorem recover_eq (herrored : c.errored = true) (hpos : 0 < c.callStackPtr)
    (h : c.callStackPtr < maxCallStackDepth) : c.recover = some { c with
      errored := false
      callStackPtr := c.callStackPtr - 1
      localVariables := Function.update c.localVariables c.callStackPtr false } := by
  have hlt : c.callStackPtr - 1 < maxCallStackDepth := by omega
  simp [recover, popStackFrame, freeLocalHeap, useLocals, indexed, herrored, hpos, hlt, h]

theorem errorPrint_eq (heval : c.evalLinenum = 0) (hended : c.ended = false)
    (hhandler : c.errorHandler = true) (h : c.callStackPtr + 1 < maxCallStackDepth)
    (hnewline : place.newline = true) : c.errorPrint place = some { c with
      errorHandler := false
      localVariables := Function.update c.localVariables (c.callStackPtr + 1) true
      fnTypeStack := Function.update c.fnTypeStack c.callStackPtr c.fnType
      fnType := .none
      callStack := Function.update c.callStack c.callStackPtr place.line
      callStackPtr := c.callStackPtr + 1 } := by
  have hlt : c.callStackPtr < maxCallStackDepth := Nat.lt_of_succ_lt h
  simp [errorPrint, useLocals, indexed, pushFrame, initLocalHeap, popStackFrame, saveType, saveLine,
    heval, hended, hhandler, hnewline, hlt, h]

theorem errorPrint_unhandled (place : Place) (hlt : c.callStackPtr < maxCallStackDepth)
    (h : c.evalLinenum ≠ 0 ∨ c.ended = true ∨ c.errorHandler = false) :
    ∃ ended errored, c.errorPrint place = some { c with ended := ended, errored := errored } ∧
      (c.evalLinenum ≠ 0 ∨ ended = true ∨ c.errorHandler = false) := by
  by_cases heval : c.evalLinenum ≠ 0
  · refine ⟨c.ended, true, ?_, Or.inl heval⟩
    simp [errorPrint, useLocals, indexed, heval, hlt]
  have heval : c.evalLinenum = 0 := Decidable.not_not.mp heval
  by_cases hended : c.ended = true
  · have hprint : c.errorPrint place = some c := by
      simp [errorPrint, useLocals, indexed, heval, hended, hlt]
    exact ⟨c.ended, c.errored, hprint, Or.inr (Or.inl hended)⟩
  · refine ⟨true, true, ?_, Or.inr (Or.inl rfl)⟩
    have hhandler : c.errorHandler = false := (h.resolve_left (absurd heval)).resolve_left hended
    simp [errorPrint, useLocals, indexed, unhandled, heval, hended, hhandler, hlt]

theorem errorPrint_steps {calls : List OpenCall} (hs : Sound c calls)
    (hfits : ErrorFits c calls place) :
    Steps .handler c calls (c.errorPrint place) := by
  by_cases h : c.evalLinenum ≠ 0 ∨ c.ended = true ∨ c.errorHandler = false
  · obtain ⟨ended, errored, hprint, -⟩ := errorPrint_unhandled place hs.bound h
    rw [hprint]
    exact Steps.same hs rfl rfl rfl rfl hs.arguments
  · obtain hne | hended | hhandler | ⟨hnewline, hbound, hcovers, -⟩ := hfits
    · exact absurd (Or.inl hne) h
    · exact absurd (Or.inr (Or.inl hended)) h
    · exact absurd (Or.inr (Or.inr hhandler)) h
    rw [not_or, not_or, Decidable.not_not, Bool.not_eq_true, Bool.not_eq_false] at h
    obtain ⟨heval, hended, hhandler⟩ := h
    rw [errorPrint_eq heval hended hhandler hbound hnewline]
    apply Steps.push hs hbound rfl rfl
    · exact fun _ _ => rfl
    · exact fun i hi => Function.update_of_ne (Nat.ne_of_lt hi) _ _
    · exact hcovers
    · exact fun _ => Function.update_self _ _ _
    · rfl
    · rfl

variable {calls : List OpenCall}

theorem gosubStatement_steps (hs : Sound c calls)
    (hbound : c.callStackPtr + 1 < maxCallStackDepth) :
    Steps .gosub c calls (c.gosubStatement place) := by
  rw [gosubStatement_eq hbound]
  apply Steps.push hs hbound rfl rfl
  · exact fun i hi => Function.update_of_ne (Nat.ne_of_lt hi) _ _
  · exact fun _ _ => rfl
  · exact Function.update_self _ _ _
  · exact nofun
  · rfl
  · rfl

theorem argumentFrame_steps {kind : CallKind} (hkind : kind.isArguments = true) (hs : Sound c calls)
    (hbound : c.callStackPtr + 1 < maxCallStackDepth) :
    Steps kind c calls (c.argumentFrame place) := by
  rw [argumentFrame_eq hbound]
  cases kind <;> cases hkind <;>
    exact Steps.push hs hbound rfl rfl (fun _ _ => rfl) (fun _ _ => rfl) trivial nofun rfl rfl

theorem libraryStatement_steps (hs : Sound c calls)
    (hbound : c.callStackPtr + 1 < maxCallStackDepth)
    (hcovers : (c.loopStateStack c.callStackPtr).Covers c.loops) :
    Steps .library c calls (c.libraryStatement place) := by
  rw [libraryStatement_eq hbound]
  apply Steps.push hs hbound rfl rfl
  · exact fun _ _ => rfl
  · exact fun i hi => Function.update_of_ne (Nat.ne_of_lt hi) _ _
  · exact hcovers
  · exact fun _ => Function.update_self _ _ _
  · rfl
  · rfl

theorem evalStatement_steps {length : ℕ} (hs : Sound c calls)
    (hfits : c.currentLinenum = evalLine ∨ c.oldlen ≠ 0 ∨ (c.callStackPtr + 1 < maxCallStackDepth ∧
      (c.loopStateStack c.callStackPtr).Covers c.loops)) :
    Steps .eval c calls (c.evalStatement place length) := by
  have hlt := hs.bound
  by_cases hrecursive : c.currentLinenum = evalLine
  · have heval : c.evalStatement place length = some { c with evalLinenum := 0 } := by
      simp [evalStatement, useLocals, indexed, hlt, hrecursive]
    rw [heval]
    exact Steps.same hs rfl rfl rfl rfl hs.arguments
  by_cases hsecond : c.oldlen = 0
  · obtain heq | hne | ⟨hbound, hcovers⟩ := hfits
    · exact absurd heq hrecursive
    · exact absurd hsecond hne
    have heval : c.evalStatement place length = some { c with
        oldlen := length
        evalLinenum := c.currentLinenum
        callStack := Function.update c.callStack c.callStackPtr c.currentLinenum
        callStackPtr := c.callStackPtr + 1
        localVariables := Function.update c.localVariables (c.callStackPtr + 1) true } := by
      simp [evalStatement, useLocals, indexed, saveLine, newStackFrame, pushFrame,
        initLocalHeap, hlt,
        Nat.not_le_of_lt hlt, hbound, hrecursive, hsecond]
    rw [heval]
    apply Steps.push hs hbound rfl rfl
    · exact fun _ _ => rfl
    · exact fun _ _ => rfl
    · exact hcovers
    · exact nofun
    · rfl
    · rfl
  · have heval : c.evalStatement place length = some { c with oldlen := 0, evalLinenum := 0 } := by
      simp [evalStatement, hrecursive, hsecond]
    rw [heval]
    exact Steps.same hs rfl rfl rfl rfl hs.arguments

/-! ## Returns -/

theorem returnStatement_steps (hs : Sound c calls) (hfits : ReturnFits c place calls) :
    Steps .handler c calls (c.returnStatement place) := by
  cases calls with
  | nil =>
    have hzero : c.callStackPtr = 0 := hs.depth.symm
    have herror : c.returnStatement place = c.errorPrint place :=
      if_neg (by rw [hzero]; exact Nat.lt_irrefl _)
    rw [herror]
    exact errorPrint_steps hs hfits
  | cons call rest =>
    obtain ⟨hkind, hfits⟩ := hfits
    have hends : call.kind.isPlain = true ∨ call.kind.isProcedure = true := hkind.imp_right And.left
    have hdepth : rest.length + 1 = c.callStackPtr := hs.depth
    have hrest : c.callStackPtr - 1 = rest.length := by omega
    have htype : c.fnType = call.fnType := by
      rw [hs.type]
      obtain ⟨kind, loops, type⟩ := call
      cases kind <;> simp_all [bodyType, OpenCall.bodyType, CallKind.isPlain, CallKind.isProcedure]
    rw [returnStatement_eq (by omega) hs.bound, hrest]
    exact Steps.pop hs (not_isFn hends) hrest.symm rfl rfl
      (LoopsFit.restored hfits hends hs.loops.1) htype

theorem endprocStatement_steps (hs : Sound c calls) (hfits : EndprocFits c place calls) :
    Steps .handler c calls (c.endprocStatement place) := by
  unfold EndprocFits at hfits
  by_cases hfn : c.fnType ≠ .none ∧ c.fnType ≠ .main
  · rw [if_pos hfn] at hfits
    have herror : c.endprocStatement place = c.errorPrint place := if_pos hfn
    rw [herror]
    exact errorPrint_steps hs hfits
  rw [if_neg hfn] at hfits
  cases calls with
  | nil =>
    have hzero : ¬ 0 < c.callStackPtr := by
      rw [← hs.depth]
      exact Nat.lt_irrefl _
    have herror : c.endprocStatement place = c.errorPrint place :=
      (if_neg hfn).trans (if_neg hzero)
    rw [herror]
    exact errorPrint_steps hs hfits
  | cons call rest =>
    obtain ⟨hkind, hfits⟩ := hfits
    have hends : call.kind.isPlain = true ∨ call.kind.isProcedure = true :=
      hkind.symm.imp_left And.left
    have hdepth : rest.length + 1 = c.callStackPtr := hs.depth
    have hrest : c.callStackPtr - 1 = rest.length := by omega
    have htype : c.fnTypeStack rest.length = call.fnType :=
      hkind.elim hs.types.1 And.right
    rw [endprocStatement_eq hfn (by omega) hs.bound, hrest]
    exact Steps.pop hs (not_isFn hends) hrest.symm rfl rfl
      (LoopsFit.restored hfits hends hs.loops.1) htype

theorem recover_steps (hs : Sound c calls) (hw : Waiting [] calls)
    (hfits : c.errored = true → ∀ call ∈ calls.head?, c.loops = call.loops ∧
      c.fnType = call.fnType) :
    Steps .handler c calls c.recover := by
  by_cases herrored : c.errored = true
  · cases calls with
    | nil =>
      have hzero : ¬ 0 < c.callStackPtr := by
        rw [← hs.depth]
        exact Nat.lt_irrefl _
      have hrecover : c.recover = some { c with errored := false } := by
        unfold recover
        rw [if_pos herrored]
        exact if_neg hzero
      rw [hrecover]
      exact Steps.same hs rfl rfl rfl rfl hs.arguments
    | cons call rest =>
      have hpos : 0 < c.callStackPtr := hs.depth ▸ Nat.succ_pos _
      have hfn : call.kind.isFn = false := by
        by_contra hfn
        rw [Waiting, if_pos (Bool.eq_true_of_not_eq_false hfn)] at hw
        obtain ⟨_, _, hnil, -⟩ := hw
        cases hnil
      obtain ⟨hloops, htype⟩ := hfits herrored call rfl
      rw [recover_eq herrored hpos hs.bound]
      exact Steps.pop hs hfn rfl rfl rfl hloops htype
  · have hrecover : c.recover = some c := if_neg herrored
    rw [hrecover]
    exact Steps.same hs rfl rfl rfl rfl hs.arguments

/-! ## Other statements -/

theorem loops_steps (hs : Sound c calls) (harguments : argumentLoops calls = none)
    (loops : LoopState) :
    Steps .handler c calls (some { c with loops := loops }) := by
  have hnone : ∀ l ∈ argumentLoops calls, loops = l := by
    rw [harguments]
    exact nofun
  exact Steps.same hs rfl rfl rfl rfl hnone

theorem eqStatement_steps (hs : Sound c calls)
    (hfits : c.fnType = .none → ErrorFits c calls place) :
    Steps .handler c calls (c.eqStatement place) := by
  unfold eqStatement
  split
  · next htype => exact errorPrint_steps hs (hfits htype)
  · exact Steps.same hs rfl rfl rfl rfl hs.arguments

theorem forStatement_steps {infinite : Bool} (hs : Sound c calls)
    (harguments : argumentLoops calls = none)
    (hfits : infinite = true ∨ maxLoopStackDepth ≤ c.loops.forStackPtr → ErrorFits c calls place) :
    Steps .handler c calls (c.forStatement place infinite) := by
  unfold forStatement
  split
  · split
    · next hinfinite => exact errorPrint_steps hs (hfits (Or.inl hinfinite))
    · exact loops_steps hs harguments _
  · next hmany => exact errorPrint_steps hs (hfits (Or.inr (Nat.le_of_not_lt hmany)))

theorem nextStatement_steps {continueLoop : Bool} (hs : Sound c calls)
    (harguments : argumentLoops calls = none)
    (hfits : c.loops.forStackPtr = 0 → ErrorFits c calls place) :
    Steps .handler c calls (c.nextStatement place continueLoop) := by
  unfold nextStatement
  split
  · split
    · exact loops_steps hs harguments c.loops
    · exact loops_steps hs harguments _
  · next hzero => exact errorPrint_steps hs (hfits (Nat.eq_zero_of_not_pos hzero))

theorem repeatStatement_steps (hs : Sound c calls) (harguments : argumentLoops calls = none)
    (hfits : maxLoopStackDepth ≤ c.loops.repeatStackPtr → ErrorFits c calls place) :
    Steps .handler c calls (c.repeatStatement place) := by
  unfold repeatStatement
  split
  · exact loops_steps hs harguments _
  · next hmany => exact errorPrint_steps hs (hfits (Nat.le_of_not_lt hmany))

theorem untilStatement_steps {done : Bool} (hs : Sound c calls)
    (harguments : argumentLoops calls = none)
    (hfits : c.loops.repeatStackPtr = 0 → ErrorFits c calls place) :
    Steps .handler c calls (c.untilStatement place done) := by
  unfold untilStatement
  split
  · split
    · exact loops_steps hs harguments _
    · exact loops_steps hs harguments c.loops
  · next hzero => exact errorPrint_steps hs (hfits (Nat.eq_zero_of_not_pos hzero))

theorem whileStatement_steps {continueLoop inside : Bool} (hs : Sound c calls)
    (harguments : argumentLoops calls = none)
    (hfits : maxLoopStackDepth ≤ c.loops.whileStackPtr → ErrorFits c calls place) :
    Steps .handler c calls (c.whileStatement place continueLoop inside) := by
  unfold whileStatement
  dsimp only
  split
  · split
    · exact loops_steps hs harguments c.loops
    · exact loops_steps hs harguments _
  · split
    · split
      · exact loops_steps hs harguments _
      · exact loops_steps hs harguments _
    · next hmany => exact errorPrint_steps hs (hfits (Nat.le_of_not_lt hmany))

end CallContext

/-! ## The parts of PROC and FN -/

section Arguments

variable {c : CallContext} {call : OpenCall} {rest : List OpenCall} {place : Place}

theorem Sound.at_call (hs : Sound c (call :: rest)) (hkind : call.kind.isArguments = true) :
    c.loops = call.loops ∧ c.fnType = call.fnType := by
  constructor
  · exact hs.arguments call.loops (if_pos hkind)
  · rw [hs.type]
    obtain ⟨kind, loops, type⟩ := call
    cases kind <;> first | rfl | cases hkind

theorem CallContext.procCall_sound (hs : Sound c (call :: rest))
    (hkind : call.kind = .procArguments) (hnewline : place.newline = true) :
    ∃ c', c.procCall place = some c' ∧ c'.callStackPtr = c.callStackPtr ∧
      Sound c' ({ call with kind := .proc } :: rest) := by
  have hdepth : rest.length + 1 = c.callStackPtr := hs.depth
  have hrest : c.callStackPtr - 1 = rest.length := by omega
  obtain ⟨hloops, htype⟩ := hs.at_call (by rw [hkind]; rfl)
  rw [CallContext.procCall_eq (by omega) hs.bound hnewline, hrest]
  refine ⟨_, rfl, rfl, hs.depth, hs.bound, ⟨?_, ?_⟩, ⟨?_, ?_⟩, rfl, nofun, hs.nested⟩
  · exact (Function.update_self _ _ _).trans hloops
  · exact hs.loops.2.congr fun i hi => Function.update_of_ne (Nat.ne_of_lt hi) _ _
  · exact fun _ => (Function.update_self _ _ _).trans htype
  · exact hs.types.2.congr fun i hi => Function.update_of_ne (Nat.ne_of_lt hi) _ _

theorem CallContext.clone_sound {callers : List CallContext} (type : ReturnType)
    (hs : Sound c (call :: rest)) (hkind : call.kind = .fnArguments)
    (hw : Waiting callers (call :: rest)) :
    Sound (c.clone type) ({ call with kind := .fn type } :: rest) ∧
      Waiting (c :: callers) ({ call with kind := .fn type } :: rest) := by
  obtain ⟨hloops, htype⟩ := hs.at_call (by rw [hkind]; rfl)
  have hfn : ¬ call.kind.isFn = true := by
    rw [hkind]
    exact Bool.false_ne_true
  rw [Waiting, if_neg hfn] at hw
  constructor
  · exact ⟨hs.depth, hs.bound, ⟨trivial, hs.loops.2⟩, ⟨nofun, hs.types.2⟩, rfl, nofun, hs.nested⟩
  · rw [Waiting, if_pos (show CallKind.isFn (.fn type) = true from rfl)]
    exact ⟨c, callers, rfl, ⟨hs.depth.symm, hloops, htype, hs.types.2⟩, hw⟩

theorem LoopsKept.of_append {slots : ℕ → LoopState} {inner calls : List OpenCall}
    (h : LoopsKept slots (inner ++ calls)) : LoopsKept slots calls := by
  induction inner with
  | nil => exact h
  | cons call inner ih => exact ih h.2

theorem Nested.of_append {inner calls : List OpenCall} (h : Nested (inner ++ calls)) :
    Nested calls := by
  induction inner with
  | nil => exact h
  | cons call inner ih => exact ih h.2.2

theorem Waiting.caller {caller : CallContext} {callers : List CallContext} {calls : List OpenCall}
    (hw : Waiting (caller :: callers) calls) : ∃ inner call rest, calls = inner ++ call :: rest ∧
      Waits caller call rest ∧ Waiting callers rest := by
  induction calls with
  | nil => cases hw
  | cons call rest ih =>
    unfold Waiting at hw
    split at hw
    · obtain ⟨_, _, hcallers, hwaits, hw⟩ := hw
      cases hcallers
      exact ⟨[], call, rest, rfl, hwaits, hw⟩
    · obtain ⟨inner, call', rest', rfl, hwaits, hw⟩ := ih hw
      exact ⟨call :: inner, call', rest', rfl, hwaits, hw⟩

theorem CallContext.foldlM_errorPrint {failures : List Place}
    (hlt : c.callStackPtr < maxCallStackDepth)
    (h : failures = [] ∨ c.evalLinenum ≠ 0 ∨ c.ended = true ∨ c.errorHandler = false) :
    ∃ ended errored, failures.foldlM CallContext.errorPrint c =
      some { c with ended := ended, errored := errored } := by
  induction failures generalizing c with
  | nil => exact ⟨c.ended, c.errored, rfl⟩
  | cons place failures ih =>
    obtain ⟨ended, errored, hprint, hunhandled⟩ :=
      CallContext.errorPrint_unhandled place hlt (h.resolve_left nofun)
    obtain ⟨ended', errored', hfold⟩ :=
      ih (c := { c with ended := ended, errored := errored }) hlt (Or.inr hunhandled)
    refine ⟨ended', errored', ?_⟩
    rw [List.foldlM_cons, hprint]
    exact hfold

theorem CallContext.fnReturn_eq (caller atomic : CallContext) {failures : List Place}
    (hlt : caller.callStackPtr < maxCallStackDepth)
    (hfits : failures = [] ∨ caller.evalLinenum ≠ 0 ∨
      caller.errorHandler = false ∨ (atomic.errored = true ∧ atomic.ended = true)) :
    ∃ ended errored, caller.fnReturn atomic failures true = some { caller with
      ended := ended
      errored := errored
      loopStateStack := atomic.loopStateStack
      localVariables := Function.update caller.localVariables caller.callStackPtr false
      callStackPtr := caller.callStackPtr - 1 } := by
  have hfirst : ∃ ended errored, (if atomic.errored then
      { caller with errored := true, ended := atomic.ended } else caller) =
        { caller with ended := ended, errored := errored } ∧
      (failures = [] ∨ caller.evalLinenum ≠ 0 ∨ ended = true ∨ caller.errorHandler = false) := by
    by_cases herrored : atomic.errored = true
    · refine ⟨atomic.ended, true, if_pos herrored, ?_⟩
      obtain h | h | h | h := hfits
      · exact Or.inl h
      · exact Or.inr (Or.inl h)
      · exact Or.inr (Or.inr (Or.inr h))
      · exact Or.inr (Or.inr (Or.inl h.2))
    · refine ⟨caller.ended, caller.errored, if_neg herrored, ?_⟩
      obtain h | h | h | h := hfits
      · exact Or.inl h
      · exact Or.inr (Or.inl h)
      · exact Or.inr (Or.inr (Or.inr h))
      · exact absurd h.1 herrored
  obtain ⟨ended, errored, hfirst, hunhandled⟩ := hfirst
  obtain ⟨ended', errored', hfold⟩ := CallContext.foldlM_errorPrint
    (c := { caller with ended := ended, errored := errored }) hlt hunhandled
  refine ⟨ended', errored', ?_⟩
  unfold fnReturn
  dsimp only
  rw [hfirst, hfold]
  simp [freeLocalHeap, indexed, popStackFrame, hlt]

end Arguments

/-! ## Steps of the machine -/

namespace CallMachine

variable {m : CallMachine} {calls : List OpenCall} {e : CallEvent}

def Keeps (m : CallMachine) (calls : List OpenCall) (e : CallEvent) : Prop :=
  ∃ m', m.step e = some m' ∧ Sound m'.ctx (e.calls m m' calls) ∧
    Waiting m'.callers (e.calls m m' calls) ∧
    Restores m.ctx m'.ctx calls

theorem keeps_of_steps {r : Option CallContext} (hw : Waiting m.callers calls)
    (hstep : m.step e = m.withContext r)
    (hcalls : ∀ m', e.calls m m' calls = track e.kind m.ctx m'.ctx calls)
    (h : Steps e.kind m.ctx calls r) : m.Keeps calls e := by
  obtain ⟨c, rfl, hs, hrestores, hwaiting⟩ := h
  refine ⟨{ m with ctx := c }, hstep, ?_, ?_, hrestores⟩
  · rw [hcalls]
    exact hs
  · rw [hcalls]
    exact hwaiting m.callers hw

theorem fnReturn_keeps {caller : CallContext} {callers : List CallContext} {failures : List Place}
    (hs : Sound m.ctx calls) (hw : Waiting m.callers calls)
    (hcallers : m.callers = caller :: callers)
    (hfits : failures = [] ∨ caller.evalLinenum ≠ 0 ∨ caller.errorHandler = false ∨
      (m.ctx.errored = true ∧ m.ctx.ended = true)) : m.Keeps calls (.fnReturn failures true) := by
  rw [hcallers] at hw
  obtain ⟨inner, call, rest, rfl, hwaits, hw⟩ := hw.caller
  have hdepth : inner.length + (rest.length + 1) = m.ctx.callStackPtr := by
    rw [← hs.depth, List.length_append, List.length_cons]
  have hptr : caller.callStackPtr = rest.length + 1 := hwaits.depth
  have hbound : caller.callStackPtr < maxCallStackDepth := by
    have hbound := hs.bound
    omega
  obtain ⟨ended, errored, hreturn⟩ := caller.fnReturn_eq m.ctx hbound hfits
  have hstep : m.step (.fnReturn failures true) = some ⟨{ caller with
      ended := ended
      errored := errored
      loopStateStack := m.ctx.loopStateStack
      localVariables := Function.update caller.localVariables caller.callStackPtr false
      callStackPtr := caller.callStackPtr - 1 }, callers⟩ := by
    unfold step
    rw [hcallers]
    exact congrArg (Option.map fun c => (⟨c, callers⟩ : CallMachine)) hreturn
  have hpopped : m.ctx.callStackPtr - (caller.callStackPtr - 1) = inner.length + 1 := by omega
  obtain ⟨htype, harguments, hnested⟩ := hs.nested.of_append
  refine ⟨_, hstep, ?_, ?_, ?_⟩
  · change Sound _ (track _ _ _ _)
    unfold track
    dsimp only
    rw [hpopped, if_neg (by omega), List.drop_length_add_append]
    constructor
    · exact (Nat.sub_eq_of_eq_add hptr).symm
    · exact Nat.lt_of_le_of_lt (Nat.sub_le _ _) hbound
    · exact hs.loops.of_append.2
    · exact hwaits.types
    · exact hwaits.type.trans htype
    · intro l hl
      exact hwaits.loops.trans (harguments l hl)
    · exact hnested
  · change Waiting _ (track _ _ _ _)
    unfold track
    dsimp only
    rw [hpopped, if_neg (by omega), List.drop_length_add_append]
    exact hw
  · intro _
    refine ⟨call, ?_, hwaits.loops, hwaits.type⟩
    dsimp only
    rw [hpopped, Nat.add_sub_cancel, List.getElem?_append_right (Nat.le_refl _), Nat.sub_self]
    rfl

theorem step_keeps (hs : Sound m.ctx calls) (hw : Waiting m.callers calls)
    (hfits : e.Fits m calls) :
    m.Keeps calls e := by
  cases e with
  | lineStatement line =>
    exact keeps_of_steps (r := some { m.ctx with currentLinenum := line }) hw rfl (fun _ => rfl)
      (Steps.same hs rfl rfl rfl rfl hs.arguments)
  | useLocals =>
    have huse : m.ctx.useLocals = some m.ctx := if_pos hs.bound
    exact keeps_of_steps hw (congrArg m.withContext huse) (fun _ => rfl)
      (Steps.same hs rfl rfl rfl rfl hs.arguments)
  | error place =>
    exact keeps_of_steps hw rfl (fun _ => rfl) (CallContext.errorPrint_steps hs hfits)
  | onError handler =>
    exact keeps_of_steps (r := some { m.ctx with errorHandler := handler }) hw rfl (fun _ => rfl)
      (Steps.same hs rfl rfl rfl rfl hs.arguments)
  | gosubStatement place =>
    exact keeps_of_steps hw rfl (fun _ => rfl) (CallContext.gosubStatement_steps hs hfits)
  | returnStatement place =>
    exact keeps_of_steps hw rfl (fun _ => rfl) (CallContext.returnStatement_steps hs hfits)
  | procFrame place =>
    exact keeps_of_steps hw rfl (fun _ => rfl) (CallContext.argumentFrame_steps rfl hs hfits)
  | procCall place =>
    obtain ⟨hnewline, call, rest, rfl, hkind⟩ := hfits
    obtain ⟨c, hcall, hptr, hsound⟩ := CallContext.procCall_sound hs hkind hnewline
    have hfn : ¬ call.kind.isFn = true := by
      rw [hkind]
      exact Bool.false_ne_true
    rw [Waiting, if_neg hfn] at hw
    refine ⟨{ m with ctx := c }, congrArg m.withContext hcall, hsound, hw, ?_⟩
    intro hlt
    dsimp only at hlt
    omega
  | endprocStatement place =>
    exact keeps_of_steps hw rfl (fun _ => rfl) (CallContext.endprocStatement_steps hs hfits)
  | libraryStatement place =>
    exact keeps_of_steps hw rfl (fun _ => rfl)
      (CallContext.libraryStatement_steps hs hfits.1 hfits.2)
  | evalStatement place length =>
    exact keeps_of_steps hw rfl (fun _ => rfl) (CallContext.evalStatement_steps hs hfits)
  | eqStatement place =>
    exact keeps_of_steps hw rfl (fun _ => rfl) (CallContext.eqStatement_steps hs hfits)
  | endStatement =>
    exact keeps_of_steps (r := some { m.ctx with ended := true }) hw rfl (fun _ => rfl)
      (Steps.same hs rfl rfl rfl rfl hs.arguments)
  | forStatement place infinite =>
    exact keeps_of_steps hw rfl (fun _ => rfl) (CallContext.forStatement_steps hs hfits.1 hfits.2)
  | nextStatement place continueLoop =>
    exact keeps_of_steps hw rfl (fun _ => rfl) (CallContext.nextStatement_steps hs hfits.1 hfits.2)
  | repeatStatement place =>
    exact keeps_of_steps hw rfl (fun _ => rfl)
      (CallContext.repeatStatement_steps hs hfits.1 hfits.2)
  | untilStatement place done =>
    exact keeps_of_steps hw rfl (fun _ => rfl) (CallContext.untilStatement_steps hs hfits.1 hfits.2)
  | whileStatement place continueLoop inside =>
    exact keeps_of_steps hw rfl (fun _ => rfl) (CallContext.whileStatement_steps hs hfits.1 hfits.2)
  | fnFrame place =>
    exact keeps_of_steps hw rfl (fun _ => rfl) (CallContext.argumentFrame_steps rfl hs hfits)
  | fnClone place type memory =>
    obtain ⟨rfl, call, rest, rfl, hkind⟩ := hfits
    obtain ⟨hsound, hwaiting⟩ := CallContext.clone_sound type hs hkind hw
    refine ⟨⟨m.ctx.clone type, m.ctx :: m.callers⟩, rfl, hsound, hwaiting, ?_⟩
    intro hlt
    exact absurd hlt (Nat.lt_irrefl _)
  | fnReturn failures memory =>
    obtain ⟨rfl, hfits⟩ := hfits
    cases hcallers : m.callers with
    | nil =>
      have hstep : m.step (.fnReturn failures true) = some m := by
        unfold step
        rw [hcallers]
      exact keeps_of_steps (r := some m.ctx) hw hstep (fun _ => rfl)
        (Steps.same hs rfl rfl rfl rfl hs.arguments)
    | cons caller callers =>
      exact fnReturn_keeps hs hw hcallers (hfits caller (by rw [hcallers]; rfl))
  | recover =>
    cases hcallers : m.callers with
    | nil =>
      have hstep : m.step .recover = m.withContext m.ctx.recover := by
        unfold step
        rw [hcallers]
      exact keeps_of_steps hw hstep (fun _ => rfl)
        (CallContext.recover_steps hs (hcallers ▸ hw) hfits)
    | cons caller callers =>
      have hstep : m.step .recover = some m := by
        unfold step
        rw [hcallers]
      exact keeps_of_steps (r := some m.ctx) hw hstep (fun _ => rfl)
        (Steps.same hs rfl rfl rfl rfl hs.arguments)

end CallMachine

/-! ## Runs, and where they go wrong -/

namespace CallRun

variable {m : CallMachine} {calls : List OpenCall}

theorem sound (run : CallRun m calls) : Sound m.ctx calls ∧ Waiting m.callers calls := by
  induction run with
  | init saved =>
    have hdepth : 0 < maxCallStackDepth := by decide
    exact ⟨⟨rfl, hdepth, trivial, trivial, rfl, nofun, trivial⟩, rfl⟩
  | step run fits step ih =>
    obtain ⟨m', hstep, hs, hw, -⟩ := CallMachine.step_keeps ih.1 ih.2 fits
    rw [step] at hstep
    cases hstep
    exact ⟨hs, hw⟩

/-- In a run there is one frame for each open call, and each statement that meets its condition has
a result; where it returns from calls, the pointers and the type are those at the call. -/
theorem balanced (run : CallRun m calls) :
    calls.length = m.ctx.callStackPtr ∧ m.ctx.callStackPtr < maxCallStackDepth ∧
      ∀ e : CallEvent, e.Fits m calls → ∃ m', m.step e = some m' ∧ Restores m.ctx m'.ctx calls := by
  obtain ⟨hs, hw⟩ := run.sound
  refine ⟨hs.depth, hs.bound, ?_⟩
  intro e hfits
  obtain ⟨m', hstep, -, -, hrestores⟩ := CallMachine.step_keeps hs hw hfits
  exact ⟨m', hstep, hrestores⟩

end CallRun

def CallMachine.play (m : CallMachine) (calls : List OpenCall) :
    List CallEvent → Option (CallMachine × List OpenCall)
  | [] => some (m, calls)
  | e :: events => (m.step e).bind fun m' => m'.play (e.calls m m' calls) events

/-- A GOSUB in a FOR loop. -/
theorem CallRun.balanced_gosub : ∃ m m', CallMachine.init.play []
      [.forStatement ⟨true, 20⟩ false, .gosubStatement ⟨true, 30⟩] =
        some (m, [⟨.gosub, ⟨1, 0, 0⟩, .main⟩]) ∧
    m.step (.returnStatement ⟨true, 110⟩) = some m' ∧
      Restores m.ctx m'.ctx [⟨.gosub, ⟨1, 0, 0⟩, .main⟩] := by
  have hfor : CallEvent.Fits .init [] (.forStatement ⟨true, 20⟩ false) := ⟨rfl, by
    rintro (h | h)
    · cases h
    · exact absurd h (by decide)⟩
  have hgosub : CallEvent.Fits ⟨{ CallContext.init with loops := ⟨1, 0, 0⟩ }, []⟩ []
      (.gosubStatement ⟨true, 30⟩) := by
    unfold CallEvent.Fits
    decide
  have run := CallRun.step (CallRun.step (CallRun.init fun _ => ⟨0, 0, 0⟩) hfor rfl) hgosub rfl
  obtain ⟨-, -, hnext⟩ := CallRun.balanced run
  obtain ⟨m', hstep, hrestores⟩ := hnext (.returnStatement ⟨true, 110⟩)
    ⟨Or.inl rfl, Nat.le_refl _, Or.inl rfl⟩
  exact ⟨_, m', rfl, hstep, hrestores⟩

theorem CallMachine.play_gosubs (m : CallMachine) (calls : List OpenCall) (place : Place) (n : ℕ)
    (h : m.ctx.callStackPtr + n < maxCallStackDepth) : ∃ m' calls',
      m.play calls (List.replicate n (.gosubStatement place)) = some (m', calls') ∧
        m'.ctx.callStackPtr = m.ctx.callStackPtr + n := by
  induction n generalizing m calls with
  | zero => exact ⟨m, calls, rfl, rfl⟩
  | succ n ih =>
    obtain ⟨c, hgosub, hone⟩ : ∃ c, m.ctx.gosubStatement place = some c ∧
        c.callStackPtr = m.ctx.callStackPtr + 1 :=
      ⟨_, CallContext.gosubStatement_eq (by omega), rfl⟩
    have hstep : m.step (.gosubStatement place) = some { m with ctx := c } :=
      congrArg m.withContext hgosub
    obtain ⟨m', calls', hplay, hptr⟩ := ih { m with ctx := c }
      (CallEvent.calls m { m with ctx := c } calls (.gosubStatement place))
      (by dsimp only; omega)
    refine ⟨m', calls', ?_, ?_⟩
    · rw [List.replicate_succ, play, hstep]
      exact hplay
    · dsimp only at hptr
      omega

theorem CallContext.gosubStatement_eq_none {c : CallContext} {place : Place}
    (h : c.callStackPtr + 1 = maxCallStackDepth) : c.gosubStatement place = none := by
  have hlt : c.callStackPtr < maxCallStackDepth := by omega
  simp [gosubStatement, saveLine, saveLoops, newStackFrame, initLocalHeap, indexed, pushFrame, hlt,
    Nat.not_le_of_lt hlt, h]

/-- An EVAL in a WHILE loop takes the loop from the stack, and 255 GOSUBs one in the other leave the
arrays. -/
theorem CallMachine.not_balanced :
    (∃ m calls m', CallMachine.init.play []
      [.lineStatement 20, .whileStatement ⟨true, 30⟩ true false,
      .lineStatement 30, .evalStatement ⟨true, 40⟩ 60, .lineStatement evalLine,
      .lineStatement (evalLine + 1)] = some (m, calls) ∧
        m.step (.returnStatement ⟨false, 0⟩) = some m' ∧ ¬ Restores m.ctx m'.ctx calls) ∧
    ∃ m calls, CallMachine.init.play [] (List.replicate 254 (.gosubStatement ⟨true, 20⟩)) =
      some (m, calls) ∧ m.step (.gosubStatement ⟨true, 20⟩) = none := by
  constructor
  · refine ⟨_, _, _, rfl, rfl, ?_⟩
    intro hrestores
    obtain ⟨call, hcall, hloops, -⟩ := hrestores (Nat.zero_lt_one)
    cases Option.some.inj hcall
    exact absurd (congrArg LoopState.whileStackPtr hloops) (by decide)
  · obtain ⟨m, calls, hplay, hptr⟩ := CallMachine.play_gosubs CallMachine.init [] ⟨true, 20⟩ 254
      (by decide)
    refine ⟨m, calls, hplay, congrArg m.withContext (CallContext.gosubStatement_eq_none ?_)⟩
    rw [hptr]
    rfl

end RetroRocket
