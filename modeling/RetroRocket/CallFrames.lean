import RetroRocket.BasicVariables

/-!
# Call frames

What the statements that call and return do to `call_stack_ptr` and to the pointers that are saved
with a frame. The jumps are left out: a run is any sequence of these statements. Each statement
comes with what is behind it, which is where a call or an error handler returns to, and an array
that is indexed by `call_stack_ptr` outside of its bounds has no result.
-/

namespace RetroRocket

def maxLoopStackDepth : ℕ := 255

def evalLine : ℤ := 999999998

/-- `ub_return_type`. -/
inductive ReturnType where
  | main
  | none
  | string
  | int
  | float
  deriving DecidableEq

/-- `control_stack_state`. -/
structure LoopState where
  forStackPtr : ℕ
  whileStackPtr : ℕ
  repeatStackPtr : ℕ
  deriving DecidableEq

structure Place where
  newline : Bool
  line : ℤ

/-- The part of `basic_ctx` that calls work on. -/
structure CallContext where
  callStackPtr : ℕ
  callStack : ℕ → ℤ
  fnTypeStack : ℕ → ReturnType
  loopStateStack : ℕ → LoopState
  localVariables : ℕ → Bool
  loops : LoopState
  fnType : ReturnType
  errorHandler : Bool
  currentLinenum : ℤ
  evalLinenum : ℤ
  oldlen : ℕ
  ended : Bool
  errored : Bool

namespace CallContext

variable (c : CallContext)

/-- What `basic_init` leaves, which does not clear `loop_state_stack`. -/
def init : CallContext where
  callStackPtr := 0
  callStack := fun _ => 0
  fnTypeStack := fun _ => .main
  loopStateStack := fun _ => ⟨0, 0, 0⟩
  localVariables := fun _ => false
  loops := ⟨0, 0, 0⟩
  fnType := .main
  errorHandler := false
  currentLinenum := 0
  evalLinenum := 0
  oldlen := 0
  ended := false
  errored := false

/-! ## Arrays that are indexed by call_stack_ptr -/

/-- The context `c'`, where the arrays of `c` have been indexed by its `call_stack_ptr`. -/
def indexed (c' : CallContext) : Option CallContext :=
  if c.callStackPtr < maxCallStackDepth then some c' else none

def useLocals : Option CallContext := c.indexed c

def initLocalHeap : Option CallContext :=
  c.indexed { c with localVariables := Function.update c.localVariables c.callStackPtr true }

def freeLocalHeap : Option CallContext :=
  c.indexed { c with localVariables := Function.update c.localVariables c.callStackPtr false }

/-- `call_stack[call_stack_ptr] = line`. -/
def saveLine (line : ℤ) : Option CallContext :=
  c.indexed { c with callStack := Function.update c.callStack c.callStackPtr line }

/-- `fn_type_stack[call_stack_ptr] = fn_type`. -/
def saveType : Option CallContext :=
  c.indexed { c with fnTypeStack := Function.update c.fnTypeStack c.callStackPtr c.fnType }

/-- `loop_state_stack[call_stack_ptr]` is set to the loop pointers. -/
def saveLoops : Option CallContext :=
  c.indexed { c with loopStateStack := Function.update c.loopStateStack c.callStackPtr c.loops }

def unwindFor (saved : ℕ) : ℕ → ℕ
  | 0 => 0
  | ptr + 1 => if saved < ptr + 1 then unwindFor saved ptr else ptr + 1

/-- The loop pointers are set from `loop_state_stack[call_stack_ptr]`. -/
def restoreLoops : Option CallContext :=
  let saved := c.loopStateStack c.callStackPtr
  c.indexed { c with loops :=
    ⟨unwindFor saved.forStackPtr c.loops.forStackPtr, saved.whileStackPtr, saved.repeatStackPtr⟩ }

/-- `fn_type = fn_type_stack[call_stack_ptr]`. -/
def restoreType : Option CallContext :=
  c.indexed { c with fnType := c.fnTypeStack c.callStackPtr }

def pushFrame : CallContext := { c with callStackPtr := c.callStackPtr + 1 }

def popStackFrame : CallContext := { c with callStackPtr := c.callStackPtr - 1 }

/-! ## Errors -/

def unhandled : CallContext := { c with ended := true, errored := true }

/-- `tokenizer_error_print`, where the handler is a procedure that is there. -/
def errorPrint (place : Place) : Option CallContext := do
  let c ← c.useLocals
  if c.evalLinenum ≠ 0 then some { c with errored := true }
  else if c.ended then some c
  else if c.errorHandler ∧ c.callStackPtr < maxCallStackDepth then
    let c ← { c with errorHandler := false }.pushFrame.initLocalHeap
    let c ← c.popStackFrame.saveType
    let c := { c with fnType := .none }
    if place.newline then
      let c ← c.saveLine place.line
      some c.pushFrame
    else
      -- the error of `accept_or_return`, with no handler left
      let c ← c.useLocals
      some c.unhandled
  else some c.unhandled

def newStackFrame (place : Place) : Option (Bool × CallContext) :=
  if maxCallStackDepth ≤ c.callStackPtr then do
    let c ← c.errorPrint place
    some (false, c)
  else some (true, c.pushFrame)

/-! ## Calls -/

def gosubStatement (place : Place) : Option CallContext :=
  if c.callStackPtr < maxCallStackDepth then do
    let c ← c.saveLine place.line
    let c ← c.saveLoops
    let (ok, c) ← c.newStackFrame place
    if ok then c.initLocalHeap else some c
  else c.errorPrint place

def returnStatement (place : Place) : Option CallContext :=
  if 0 < c.callStackPtr then do
    let c ← c.freeLocalHeap
    c.popStackFrame.restoreLoops
  else c.errorPrint place

/-- `proc_statement` and the evaluation of an FN, up to their arguments. -/
def argumentFrame (place : Place) : Option CallContext := do
  let (ok, c) ← c.newStackFrame place
  if ok then c.initLocalHeap else some c

/-- `proc_statement`, after its arguments. -/
def procCall (place : Place) : Option CallContext := do
  let c ← c.popStackFrame.saveType
  let c ← { c with fnType := .none }.saveLoops
  if place.newline then
    if c.callStackPtr < maxCallStackDepth then
      let c ← c.saveLine place.line
      let (_, c) ← c.newStackFrame place
      some c
    else c.errorPrint place
  else c.errorPrint place

def endprocStatement (place : Place) : Option CallContext :=
  if c.fnType ≠ .none ∧ c.fnType ≠ .main then c.errorPrint place
  else if 0 < c.callStackPtr then do
    let c ← c.freeLocalHeap
    let c ← c.popStackFrame.restoreType
    c.restoreLoops
  else c.errorPrint place

/-- The call of a constructor in `library_statement`. -/
def libraryStatement (place : Place) : Option CallContext :=
  if c.callStackPtr < maxCallStackDepth then do
    let c ← c.saveLine place.line
    let c ← c.saveType
    let (ok, c) ← c.newStackFrame place
    if ok then
      let c ← c.initLocalHeap
      some { c with fnType := .none }
    else some c
  else c.errorPrint place

/-- `eval_statement` on a single line, with the length of the program. -/
def evalStatement (place : Place) (length : ℕ) : Option CallContext :=
  if c.currentLinenum = evalLine then { c with evalLinenum := 0 }.useLocals
  else if c.oldlen = 0 then do
    let c ← c.useLocals
    let c ← { c with oldlen := length, evalLinenum := c.currentLinenum }.saveLine c.currentLinenum
    let (ok, c) ← c.newStackFrame place
    if ok then c.initLocalHeap else some c
  else some { c with oldlen := 0, evalLinenum := 0 }

def eqStatement (place : Place) : Option CallContext :=
  if c.fnType = .none then c.errorPrint place else some { c with ended := true }

/-! ## Loops -/

def forStatement (place : Place) (infinite : Bool) : Option CallContext :=
  if c.loops.forStackPtr < maxLoopStackDepth then
    if infinite then c.errorPrint place
    else some { c with loops := { c.loops with forStackPtr := c.loops.forStackPtr + 1 } }
  else c.errorPrint place

def nextStatement (place : Place) (continueLoop : Bool) : Option CallContext :=
  if 0 < c.loops.forStackPtr then
    if continueLoop then some c
    else some { c with loops := { c.loops with forStackPtr := c.loops.forStackPtr - 1 } }
  else c.errorPrint place

def repeatStatement (place : Place) : Option CallContext :=
  if c.loops.repeatStackPtr < maxLoopStackDepth then
    some { c with loops := { c.loops with repeatStackPtr := c.loops.repeatStackPtr + 1 } }
  else c.errorPrint place

def untilStatement (place : Place) (done : Bool) : Option CallContext :=
  if 0 < c.loops.repeatStackPtr then
    if done then
      some { c with loops := { c.loops with repeatStackPtr := c.loops.repeatStackPtr - 1 } }
    else some c
  else c.errorPrint place

/-- `while_statement`. `inside` says whether the top of the stack is this loop. The pointer is a
`uint64_t` that is decremented also where it is 0. A missing ENDWHILE is an error after the
statement. -/
def whileStatement (place : Place) (continueLoop inside : Bool) : Option CallContext :=
  let leave := { c with loops :=
    { c.loops with whileStackPtr := (c.loops.whileStackPtr + (2 ^ 64 - 1)) % 2 ^ 64 } }
  if 0 < c.loops.whileStackPtr ∧ inside then
    if continueLoop then some c else some leave
  else if c.loops.whileStackPtr < maxLoopStackDepth then
    if continueLoop then
      some { c with loops := { c.loops with whileStackPtr := c.loops.whileStackPtr + 1 } }
    else some leave
  else c.errorPrint place

/-! ## Atomic contexts -/

/-- `basic_clone`, with the type that the FN returns. -/
def clone (type : ReturnType) : CallContext :=
  { c with fnType := type, ended := false, errored := false }

/-- The end of the evaluation of an FN: what is taken from the atomic context, after the errors that
are reported to the caller's. A string that does not fit in the memory ends it before. -/
def fnReturn (atomic : CallContext) (failures : List Place) (memory : Bool) :
    Option CallContext := do
  let c := if atomic.errored then { c with errored := true, ended := atomic.ended } else c
  let c ← failures.foldlM errorPrint c
  if memory then
    let c ← { c with loopStateStack := atomic.loopStateStack }.freeLocalHeap
    some c.popStackFrame
  else some c

/-- What `basic_run` does about an error, after a line. -/
def recover : Option CallContext :=
  if c.errored then
    let c := { c with errored := false }
    if 0 < c.callStackPtr then do
      let c ← c.freeLocalHeap
      -- `call_stack` is read for the jump
      c.popStackFrame.useLocals
    else some c
  else some c

end CallContext

/-! ## Runs -/

/-- The statements of a program that calls are about, and the parts of those that other code runs
in. -/
inductive CallEvent where
  | lineStatement (line : ℤ)
  | useLocals
  | error (place : Place)
  | onError (handler : Bool)
  | gosubStatement (place : Place)
  | returnStatement (place : Place)
  | procFrame (place : Place)
  | procCall (place : Place)
  | endprocStatement (place : Place)
  | libraryStatement (place : Place)
  | evalStatement (place : Place) (length : ℕ)
  | eqStatement (place : Place)
  | endStatement
  | forStatement (place : Place) (infinite : Bool)
  | nextStatement (place : Place) (continueLoop : Bool)
  | repeatStatement (place : Place)
  | untilStatement (place : Place) (done : Bool)
  | whileStatement (place : Place) (continueLoop inside : Bool)
  | fnFrame (place : Place)
  | fnClone (place : Place) (type : ReturnType) (memory : Bool)
  | fnReturn (failures : List Place) (memory : Bool)
  | recover

structure CallMachine where
  ctx : CallContext
  callers : List CallContext

namespace CallMachine

def init : CallMachine := ⟨.init, []⟩

def withContext (m : CallMachine) (c : Option CallContext) : Option CallMachine :=
  c.map fun c => { m with ctx := c }

def step (m : CallMachine) : CallEvent → Option CallMachine
  | .lineStatement line => some { m with ctx := { m.ctx with currentLinenum := line } }
  | .useLocals => m.withContext m.ctx.useLocals
  | .error place => m.withContext (m.ctx.errorPrint place)
  | .onError handler => some { m with ctx := { m.ctx with errorHandler := handler } }
  | .gosubStatement place => m.withContext (m.ctx.gosubStatement place)
  | .returnStatement place => m.withContext (m.ctx.returnStatement place)
  | .procFrame place => m.withContext (m.ctx.argumentFrame place)
  | .procCall place => m.withContext (m.ctx.procCall place)
  | .endprocStatement place => m.withContext (m.ctx.endprocStatement place)
  | .libraryStatement place => m.withContext (m.ctx.libraryStatement place)
  | .evalStatement place length => m.withContext (m.ctx.evalStatement place length)
  | .eqStatement place => m.withContext (m.ctx.eqStatement place)
  | .endStatement => some { m with ctx := { m.ctx with ended := true } }
  | .forStatement place infinite => m.withContext (m.ctx.forStatement place infinite)
  | .nextStatement place continueLoop => m.withContext (m.ctx.nextStatement place continueLoop)
  | .repeatStatement place => m.withContext (m.ctx.repeatStatement place)
  | .untilStatement place done => m.withContext (m.ctx.untilStatement place done)
  | .whileStatement place continueLoop inside =>
    m.withContext (m.ctx.whileStatement place continueLoop inside)
  | .fnFrame place => m.withContext (m.ctx.argumentFrame place)
  | .fnClone place type memory =>
    if memory then some ⟨m.ctx.clone type, m.ctx :: m.callers⟩
    else m.withContext (m.ctx.errorPrint place)
  | .fnReturn failures memory =>
    match m.callers with
    | [] => some m
    | caller :: callers => (caller.fnReturn m.ctx failures memory).map fun c => ⟨c, callers⟩
  | .recover =>
    match m.callers with
    | [] => m.withContext m.ctx.recover
    | _ => some m

end CallMachine

end RetroRocket
