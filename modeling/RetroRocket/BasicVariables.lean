import RetroRocket.Bits
import RetroRocket.Scopes

/-!
# The variables of a BASIC program

The functions of `variable.c` that set and read variables, with the frames of `main.c` and
`flow_control.c`. A map is a function from names; the last character of a name tells what it is the
name of. Functions and arrays, which a read looks for first, are left out. An access behind the
tables of the frames is `none`.
-/

namespace RetroRocket

abbrev Name := List Char

inductive VarKind where
  | int
  | string
  | double
  deriving DecidableEq

inductive Value where
  | int (value : BitVec 64)
  | string (value : List Byte)
  | double (value : Float)

/-- `ub_var_int`, `ub_var_string` and `ub_var_double`, without their names. -/
structure Variable where
  value : Value
  global : Bool

abbrev VarMap := Name → Option Variable

structure VarMaps where
  globals : VarMap
  locals : ℕ → Option VarMap

/-- The part of `basic_ctx` that variables are in. -/
structure BasicCtx where
  callStackPtr : ℕ
  vars : VarKind → VarMaps

def maxCallStackDepth : ℕ := 255

/-! ## Names -/

/-- The loop of `valid_suffix_var`, which counts the characters that are not digits. -/
def validName : ℕ → Name → Bool
  | _, [] => true
  | offset, c :: rest =>
    if 0 < offset ∧ c.isDigit then validName offset rest
    else if ¬ (('A' ≤ c ∧ c ≤ 'Z') ∨ ('a' ≤ c ∧ c ≤ 'z') ∨ c = '_') then false
    else if 60 < offset then false
    else validName (offset + 1) rest

def validSuffixVar (suffix : Option Char) (name : Name) : Bool :=
  match suffix with
  | some suffix =>
    if name.length < 2 ∨ name.getLast? ≠ some suffix then false
    else validName 0 (name.takeWhile (· ≠ suffix))
  | none => if name.length < 1 then false else validName 0 name

/-- `valid_int_var`, `valid_string_var` and `valid_double_var`. -/
def validVar : VarKind → Name → Bool
  | .int => validSuffixVar none
  | .string => validSuffixVar (some '$')
  | .double => validSuffixVar (some '#')

/-! ## Assignment -/

/-- `hashmap_set` on the map of the program. -/
def setGlobalMap (kind : VarKind) (var : Name) (new : Variable) (ctx : BasicCtx) : BasicCtx :=
  { ctx with vars := Function.update ctx.vars kind { ctx.vars kind with
      globals := Function.update (ctx.vars kind).globals var (some new) } }

/-- `hashmap_set` on the map of the current frame. -/
def setLocalMap (kind : VarKind) (locals : VarMap) (var : Name) (new : Variable) (ctx : BasicCtx) :
    BasicCtx :=
  { ctx with vars := Function.update ctx.vars kind { ctx.vars kind with
      locals := Function.update (ctx.vars kind).locals ctx.callStackPtr
        (some (Function.update locals var (some new))) } }

/-- What `basic_set_int_variable` and its siblings have in common. -/
def basicSetVariable (kind : VarKind) (var : Name) (value : Value) (ctx : BasicCtx)
    (isLocal propagateGlobal : Bool) : Except String BasicCtx :=
  let locals := if isLocal then (ctx.vars kind).locals ctx.callStackPtr else none
  let globals := (ctx.vars kind).globals
  if validVar kind var = false then .error ("Malformed variable name '" ++ String.ofList var ++ "'")
  else
    match locals with
    | some locals =>
      if (locals var).isSome then .ok (setLocalMap kind locals var ⟨value, propagateGlobal⟩ ctx)
      else if (globals var).isSome then .ok (setGlobalMap kind var ⟨value, propagateGlobal⟩ ctx)
      else .ok (setLocalMap kind locals var ⟨value, propagateGlobal⟩ ctx)
    | none => .ok (setGlobalMap kind var ⟨value, propagateGlobal⟩ ctx)

def basicSetIntVariable (var : Name) (value : BitVec 64) :
    BasicCtx → Bool → Bool → Except String BasicCtx :=
  basicSetVariable .int var (.int value)

def basicSetStringVariable (var : Name) (value : List Byte) :
    BasicCtx → Bool → Bool → Except String BasicCtx :=
  basicSetVariable .string var (.string value)

def basicSetDoubleVariable (var : Name) (value : Float) :
    BasicCtx → Bool → Bool → Except String BasicCtx :=
  basicSetVariable .double var (.double value)

/-- A plain or a `GLOBAL` assignment goes to the map of the program. -/
theorem basicSetVariable_global {kind : VarKind} {var : Name} (ctx : BasicCtx)
    (hvalid : validVar kind var) (value : Value)
    (propagateGlobal : Bool) : basicSetVariable kind var value ctx false propagateGlobal =
      .ok (setGlobalMap kind var ⟨value, propagateGlobal⟩ ctx) := by
  unfold basicSetVariable
  dsimp only
  rw [hvalid]
  rfl

/-! ## Reading -/

def findVariable (maps : VarMaps) (var : Name) : ℕ → Option Variable
  | 0 => maps.globals var
  | j + 1 =>
    match (maps.locals (j + 1)).bind (· var) with
    | some found => some found
    | none => findVariable maps var j

def VarKind.word : VarKind → String
  | .int => "integer"
  | .string => "string"
  | .double => "real"

def noSuchVariable (kind : VarKind) (var : Name) : String :=
  "No such " ++ kind.word ++ " variable '" ++ String.ofList var ++ "'"

/-- What `basic_get_int_variable` and its siblings have in common. -/
def basicGetVariable (kind : VarKind) (var : Name) (ctx : BasicCtx) : Except String Value :=
  match findVariable (ctx.vars kind) var ctx.callStackPtr with
  | some found => .ok found.value
  | none => .error (noSuchVariable kind var)

def basicGetIntVariable : Name → BasicCtx → Except String Value := basicGetVariable .int

def basicGetStringVariable : Name → BasicCtx → Except String Value := basicGetVariable .string

def basicGetDoubleVariable : Name → BasicCtx → Except String Value := basicGetVariable .double

/-! ## Frames -/

def newStackFrame (ctx : BasicCtx) : Except String BasicCtx :=
  if maxCallStackDepth ≤ ctx.callStackPtr then .error "Call stack depth exceeded"
  else .ok { ctx with callStackPtr := ctx.callStackPtr + 1 }

def popStackFrame (ctx : BasicCtx) : BasicCtx :=
  if 0 < ctx.callStackPtr then { ctx with callStackPtr := ctx.callStackPtr - 1 } else ctx

def setLocalHeap (map : Option VarMap) (ctx : BasicCtx) : Option BasicCtx :=
  if ctx.callStackPtr < maxCallStackDepth then
    some { ctx with vars := fun kind => { ctx.vars kind with
      locals := Function.update (ctx.vars kind).locals ctx.callStackPtr map } }
  else none

def initLocalHeap : BasicCtx → Option BasicCtx := setLocalHeap (some fun _ => none)

def freeLocalHeap : BasicCtx → Option BasicCtx := setLocalHeap none

def BasicCtx.init : BasicCtx := ⟨0, fun _ => ⟨fun _ => none, fun _ => none⟩⟩

end RetroRocket
