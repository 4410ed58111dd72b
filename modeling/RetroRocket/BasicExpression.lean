import RetroRocket.BasicTokens

/-!
# The expressions of a BASIC program

The evaluator of `unified_expression.c`, level by level: each level is given the one below it, and
`up_relation_expr`, which brackets go back to, is given fuel for the brackets inside each other and
for its loops. An action fails where the processor traps and where the fuel runs out. The built-in
functions, `FN` and the arrays, which a name is looked up in first, are a parameter. The storage of
strings does not run out.
-/

namespace RetroRocket

/-- What the other parts of the interpreter evaluate: built-in functions, calls of `FN` and elements
of arrays, by name. -/
structure Calls where
  int : Name → Option (Action ParseCtx (BitVec 64))
  double : Name → Option (Action ParseCtx Float)
  string : Name → Option (Action ParseCtx (List Byte))
  isBuiltinDouble : Name → Bool

/-- `(double) i`. -/
def doubleOfInt (i : BitVec 64) : Float := Float.ofInt i.toInt

/-- `(int64_t) r`. -/
def intOfDouble (r : Float) : BitVec 64 := r.toInt64.toBitVec

namespace BasicExpr

def report (error : String) : Action ParseCtx Unit := Action.modify (tokenizerErrorPrint error)

def token : Action ParseCtx Token := fun c => (some c.currentToken, c)

def next : Action ParseCtx Unit := Action.modify tokenizerNext

def take (tok : Token) : Action ParseCtx Unit := Action.modify (accept tok)

/-- `tokenizer_variable_name`. -/
def variableToken : Action ParseCtx Name := fun c =>
  let (name, c) := tokenizerVariableName c
  (some name, c)

/-! ## Variables -/

section Variables

variable (calls : Calls)

/-- `basic_get_int_variable`. -/
def getIntVariable (var : Name) : Action ParseCtx (BitVec 64) :=
  match calls.int var with
  | some call => call
  | none => do
    let c ← Action.get
    match basicGetIntVariable var c.basic with
    | .ok (.int value) => pure value
    | .ok _ => pure 0
    | .error error => do
      report error
      pure 0

/-- `basic_get_double_variable`. -/
def getDoubleVariable (var : Name) : Action ParseCtx (Option Float) :=
  match calls.double var with
  | some call => some <$> call
  | none => do
    let c ← Action.get
    match basicGetDoubleVariable var c.basic with
    | .ok (.double value) => pure (some value)
    | .ok _ => pure none
    | .error error =>
      if var.getLast? = some '#' then do
        report error
        pure none
      else pure none

/-- `basic_get_string_variable`. -/
def getStringVariable (var : Name) : Action ParseCtx (List Byte) :=
  match calls.string var with
  | some call => call
  | none => do
    let c ← Action.get
    match basicGetStringVariable var c.basic with
    | .ok (.string value) => pure value
    | .ok _ => pure []
    | .error error => do
      report error
      pure []

/-- `basic_get_numeric_variable`. -/
def getNumericVariable (var : Name) : Action ParseCtx Float := do
  match ← getDoubleVariable calls var with
  | some value => pure value
  | none => do
    let value ← getIntVariable calls var
    pure (doubleOfInt value)

/-- `basic_get_numeric_int_variable`. -/
def getNumericIntVariable (var : Name) : Action ParseCtx (BitVec 64) := do
  match ← getDoubleVariable calls var with
  | some value => pure (intOfDouble value)
  | none => getIntVariable calls var

end Variables

/-! ## Numbers and strings -/

/-- `pow10i`, whose exponent has `fuel` binary digits at most. -/
def pow10Loop : ℕ → Float → Float → ℕ → Float
  | 0, result, _, _ => result
  | fuel + 1, result, base, k =>
    if k = 0 then result
    else pow10Loop fuel (if k % 2 = 1 then result * base else result) (base * base) (k / 2)

def pow10i (e : Int) : Float := pow10Loop 32 1 (if e < 0 then 0.1 else 10) e.natAbs

def atofDigits : Float → Int → List Char → Float × Int × List Char
  | a, count, [] => (a, count, [])
  | a, count, c :: rest =>
    if c.isDigit then atofDigits (a * 10 + Float.ofNat (c.toNat - '0'.toNat)) (count + 1) rest
    else (a, count, c :: rest)

def atofExponent : Int → List Char → Int
  | e, [] => e
  | e, c :: rest => if c.isDigit then atofExponent (e * 10 + (c.toNat - '0'.toNat : ℕ)) rest else e

def atof (text : List Char) : Float :=
  let (a, _, rest) := atofDigits 0 0 text
  let (a, decimals, rest) := match rest with
    | '.' :: rest => atofDigits a 0 rest
    | _ => (a, 0, rest)
  let exponent := match rest with
    | c :: rest =>
      if c = 'e' ∨ c = 'E' then
        match rest with
        | '+' :: rest => atofExponent 0 rest
        | '-' :: rest => - atofExponent 0 rest
        | _ => atofExponent 0 rest
      else 0
    | [] => 0
  if exponent - decimals ≠ 0 then a * pow10i (exponent - decimals) else a

/-- `gc_from_tokenizer_string`, which leaves `ptr` behind the closing quote. -/
def tokenizerString (c : ParseCtx) : List Byte × ParseCtx :=
  let text := if c.ptr.head? = some '"' then c.ptr.tail else c.ptr
  (textBytes (text.takeWhile (· ≠ '"')), { c with ptr := (text.dropWhile (· ≠ '"')).tail })

/-- `strcmp`, on strings that a NUL ends. -/
def strcmp : List Byte → List Byte → Ordering
  | [], [] => .eq
  | [], _ :: _ => .lt
  | _ :: _, [] => .gt
  | a :: s, b :: t => if a = b then strcmp s t else compare a.toNat b.toNat

/-! ## Factors -/

def endName : Action ParseCtx Unit := do
  if (← token) = .closeBracket then take .closeBracket else take .variable

def endNumericName : Action ParseCtx Unit := do
  if (← token) = .comma then report "Too many parameters for builtin function" else endName

def skipSpaces : ℕ → Action ParseCtx Unit
  | 0 => Action.fail
  | fuel + 1 => do
    if (← token) = .space then do
      next
      skipSpaces fuel

section Levels

variable (calls : Calls) (relation : Action ParseCtx Value) (fuel : ℕ)

def upNumber : Action ParseCtx Value := do
  let c ← Action.get
  let fraction := c.ptr.dropWhile Char.isDigit
  if fraction.head? = some '.' ∧ (fraction.tail.head?.any Char.isDigit) then do
    take .number
    pure (.double (atof c.ptr))
  else do
    take .number
    pure (.int (tokenizerNum c.currentToken c))

def upName : Action ParseCtx Value := do
  let name ← variableToken
  if name.getLast? = some '$' then do
    let value ← getStringVariable calls name
    endName
    pure (.string value)
  else if name.getLast? = some '#' ∨ calls.isBuiltinDouble name then do
    let value ← getNumericVariable calls name
    endNumericName
    pure (.double value)
  else do
    let value ← getNumericIntVariable calls name
    endNumericName
    pure (.int value)

def upFactor : Action ParseCtx Value := do
  skipSpaces fuel
  match ← token with
  | .number => upNumber
  | .hexNumber => do
    let c ← Action.get
    take .hexNumber
    pure (.int (tokenizerNum c.currentToken c))
  | .string => do
    let value ← (fun c => (some (tokenizerString c).1, (tokenizerString c).2) : Action ParseCtx _)
    next
    pure (.string value)
  | .variable => upName calls
  | .openBracket => do
    take .openBracket
    let value ← relation
    take .closeBracket
    pure value
  | tok => do
    report ("Expected expression, got " ++ tok.name)
    pure (.int 0)

/-! ## Signs -/

def upSigns : ℕ → Bool → Bool → Action ParseCtx (Bool × Bool)
  | 0, _, _ => Action.fail
  | fuel + 1, sawSign, negate => do
    match ← token with
    | .plus => do
      next
      upSigns fuel true negate
    | .minus => do
      next
      upSigns fuel true (!negate)
    | _ => pure (sawSign, negate)

def upSigned (sawSign negate : Bool) (v : Value) : Action ParseCtx Value :=
  if sawSign then
    match v with
    | .string _ => do
      report "Unary +/- on string"
      pure (.int 0)
    | .double r => pure (.double (if negate then -r else r))
    | .int i => pure (.int (if negate then -i else i))
  else pure v

def upUnary (factor : Action ParseCtx Value) : Action ParseCtx Value := do
  let (sawSign, negate) ← upSigns fuel false false
  let v ← factor
  upSigned sawSign negate v

/-! ## Products -/

/-- A pair of numbers, promoted by `up_promote_pair`. -/
inductive NumberPair where
  | ints (a b : BitVec 64)
  | doubles (a b : Float)

/-- `up_promote_pair`, after strings have been taken for zero. -/
def promotePair : Value → Value → NumberPair
  | .double a, .double b => .doubles a b
  | .double a, .int b => .doubles a (doubleOfInt b)
  | .double a, .string _ => .doubles a (doubleOfInt 0)
  | .int a, .double b => .doubles (doubleOfInt a) b
  | .string _, .double b => .doubles (doubleOfInt 0) b
  | .int a, .int b => .ints a b
  | .int a, .string _ => .ints a 0
  | .string _, .int b => .ints 0 b
  | .string _, .string _ => .ints 0 0

def Value.isString : Value → Bool
  | .string _ => true
  | _ => false

def checkedDivision (divide : BitVec 64 → BitVec 64 → BitVec 64) (a b : BitVec 64) :
    Action ParseCtx Value :=
  if b = 0 then do
    report "Division by zero"
    pure (.int 0)
  else if a = BitVec.intMin 64 ∧ b = -1 then Action.fail
  else pure (.int (divide a b))

/-- `a / b`. -/
def intDiv : BitVec 64 → BitVec 64 → Action ParseCtx Value := checkedDivision BitVec.sdiv

/-- `a % b`. -/
def intMod : BitVec 64 → BitVec 64 → Action ParseCtx Value := checkedDivision BitVec.srem

def upMultiply : NumberPair → Action ParseCtx Value
  | .doubles a b => pure (.double (a * b))
  | .ints a b => pure (.int (a * b))

def upDivide : NumberPair → Action ParseCtx Value
  | .doubles a b =>
    if b == 0 then do
      report "Division by zero"
      pure (.double 0)
    else pure (.double (a / b))
  | .ints a b => intDiv a b

def upMod : NumberPair → Action ParseCtx Value
  | .doubles a b => intMod (intOfDouble a) (intOfDouble b)
  | .ints a b => intMod a b

def upNumbers (error : String) (acc rhs : Value) : Action ParseCtx NumberPair :=
  if Value.isString acc || Value.isString rhs then do
    report error
    pure (promotePair acc rhs)
  else pure (promotePair acc rhs)

/-- The loop of `up_term`. -/
def upTermLoop (unary : Action ParseCtx Value) : ℕ → Value → Action ParseCtx Value
  | 0, _ => Action.fail
  | fuel + 1, acc => do
    match ← token with
    | .asterisk => do
      next
      let rhs ← unary
      let pair ← upNumbers "Numeric operator on string" acc rhs
      let acc ← upMultiply pair
      upTermLoop unary fuel acc
    | .slash => do
      next
      let rhs ← unary
      let pair ← upNumbers "Numeric operator on string" acc rhs
      let acc ← upDivide pair
      upTermLoop unary fuel acc
    | .mod => do
      next
      let rhs ← unary
      let pair ← upNumbers "Numeric operator on string" acc rhs
      let acc ← upMod pair
      upTermLoop unary fuel acc
    | _ => pure acc

def upTerm (unary : Action ParseCtx Value) : Action ParseCtx Value := do
  let acc ← unary
  upTermLoop unary fuel acc

/-! ## Sums -/

def upAdd : NumberPair → Value
  | .doubles a b => .double (a + b)
  | .ints a b => .int (a + b)

def upSubtract : NumberPair → Value
  | .doubles a b => .double (a - b)
  | .ints a b => .int (a - b)

/-- The loop of `up_value_expr`. -/
def upValueLoop (term : Action ParseCtx Value) : ℕ → Value → Action ParseCtx Value
  | 0, _ => Action.fail
  | fuel + 1, acc => do
    match ← token with
    | .plus => do
      next
      let rhs ← term
      match acc, rhs with
      | .string a, .string b => upValueLoop term fuel (.string (a ++ b))
      | _, _ => do
        let pair ← upNumbers "Cannot mix string and number with '+' or '-'" acc rhs
        upValueLoop term fuel (upAdd pair)
    | .minus => do
      next
      let rhs ← term
      let pair ← upNumbers "Cannot mix string and number with '+' or '-'" acc rhs
      upValueLoop term fuel (upSubtract pair)
    | _ => pure acc

/-- `up_value_expr`, over a level for its terms. -/
def upValueOver (term : Action ParseCtx Value) : Action ParseCtx Value := do
  let acc ← term
  upValueLoop term fuel acc

/-- `up_value_expr`, over what brackets go back to. -/
def upValueWith : Action ParseCtx Value :=
  upValueOver fuel (upTerm fuel (upUnary fuel (upFactor calls relation fuel)))

/-! ## Relations -/

inductive Relation where
  | less
  | lessEqual
  | greater
  | greaterEqual
  | equal
  | notEqual
  deriving DecidableEq

def Relation.holds : Relation → Ordering → Bool
  | .less, o => o == .lt
  | .lessEqual, o => o != .gt
  | .greater, o => o == .gt
  | .greaterEqual, o => o != .lt
  | .equal, o => o == .eq
  | .notEqual, o => o != .eq

def Relation.holdsDouble : Relation → Float → Float → Bool
  | .less, a, b => a < b
  | .lessEqual, a, b => a ≤ b
  | .greater, a, b => b < a
  | .greaterEqual, a, b => b ≤ a
  | .equal, a, b => a == b
  | .notEqual, a, b => a != b

def compareInts (a b : BitVec 64) : Ordering := compare a.toInt b.toInt

def upOperator (op : Token) : Action ParseCtx Relation := do
  let secondary ← token
  match op, secondary with
  | .lessThan, .equals => do
    next
    pure .lessEqual
  | .greaterThan, .equals => do
    next
    pure .greaterEqual
  | .lessThan, .greaterThan => do
    next
    pure .notEqual
  | .lessThan, _ => pure .less
  | .greaterThan, _ => pure .greater
  | _, _ => pure .equal

def upCompare (op : Relation) (lhs rhs : Value) : Action ParseCtx Bool :=
  match lhs, rhs with
  | .string a, .string b => pure (op.holds (strcmp a b))
  | _, _ =>
    if Value.isString lhs || Value.isString rhs then do
      report "Cannot compare string with number"
      pure false
    else
      match promotePair lhs rhs with
      | .ints a b => pure (op.holds (compareInts a b))
      | .doubles a b => pure (op.holdsDouble a b)

/-- `up_make_int` of a truth value. -/
def ofBool (b : Bool) : Value := .int (if b then 1 else 0)

/-- The loop of `up_relation_expr`. -/
def upRelationLoop (value : Action ParseCtx Value) : ℕ → Value → Action ParseCtx Value
  | 0, _ => Action.fail
  | fuel + 1, lhs => do
    let op ← token
    if op = .lessThan ∨ op = .greaterThan ∨ op = .equals then do
      next
      let op ← upOperator op
      let rhs ← value
      let result ← upCompare op lhs rhs
      upRelationLoop value fuel (ofBool result)
    else pure lhs

/-- `up_relation_expr`, over a level for its operands. -/
def upRelationOver (value : Action ParseCtx Value) : Action ParseCtx Value := do
  let lhs ← value
  upRelationLoop value fuel lhs

end Levels

def upRelationExpr (calls : Calls) : ℕ → Action ParseCtx Value
  | 0 => Action.fail
  | fuel + 1 => upRelationOver fuel (upValueWith calls (upRelationExpr calls fuel) fuel)

def upValueExpr (calls : Calls) (fuel : ℕ) : Action ParseCtx Value :=
  upValueWith calls (upRelationExpr calls fuel) fuel

/-! ## Conditions -/

def upTruth : Value → Bool
  | .int i => i != 0
  | .double r => r != 0
  | .string s => s.length != 0

def upRelationI (calls : Calls) (fuel : ℕ) : Action ParseCtx (BitVec 64) := do
  match ← upRelationExpr calls fuel with
  | .int i => pure i
  | b => pure (if upTruth b then 1 else 0)

/-- The loop over `NOT`. -/
def upNots : ℕ → Bool → Action ParseCtx Bool
  | 0, _ => Action.fail
  | fuel + 1, negate => do
    if (← token) = .keyword "NOT" then do
      next
      upNots fuel (!negate)
    else pure negate

def upRelationTerm (calls : Calls) (fuel : ℕ) : Action ParseCtx Value := do
  match ← upRelationExpr calls fuel with
  | .int i => pure (.int i)
  | b => pure (ofBool (upTruth b))

/-- `*ctx = save`, for the place in the text. -/
def restore (save : ParseCtx) : Action ParseCtx Unit := Action.modify fun c =>
  { c with ptr := save.ptr, nextptr := save.nextptr, currentToken := save.currentToken }

/-- A term of a condition behind its `NOT`s. Two brackets start a condition in brackets. -/
def upBoolOperand (calls : Calls) (conditional : Action ParseCtx Bool) (fuel : ℕ) :
    Action ParseCtx Value := do
  if (← token) = .openBracket then do
    let save ← Action.get
    take .openBracket
    if (← token) = .openBracket then do
      let b ← conditional
      take .closeBracket
      pure (ofBool b)
    else do
      restore save
      upRelationTerm calls fuel
  else upRelationTerm calls fuel

/-- `!v`, for the integer that a term is. -/
def upNegated (negate : Bool) (v : Value) : Value :=
  if negate then ofBool (!upTruth v) else v

def parseBoolTerm (calls : Calls) (conditional : Action ParseCtx Bool) (fuel : ℕ) :
    Action ParseCtx Value := do
  let negate ← upNots fuel false
  let b ← upBoolOperand calls conditional fuel
  pure (upNegated negate b)

/-- The loop of `up_conditional`. -/
def upConditionalLoop (boolTerm : Action ParseCtx Value) : ℕ → Value → Action ParseCtx Value
  | 0, _ => Action.fail
  | fuel + 1, acc => do
    let tk ← token
    if tk = .keyword "AND" then do
      next
      let rhs ← boolTerm
      upConditionalLoop boolTerm fuel (ofBool (upTruth acc && upTruth rhs))
    else if tk = .keyword "OR" then do
      next
      let rhs ← boolTerm
      upConditionalLoop boolTerm fuel (ofBool (upTruth acc || upTruth rhs))
    else pure acc

def upConditional (calls : Calls) : ℕ → Action ParseCtx Bool
  | 0 => Action.fail
  | fuel + 1 => do
    let acc ← parseBoolTerm calls (upConditional calls fuel) fuel
    let acc ← upConditionalLoop (parseBoolTerm calls (upConditional calls fuel) fuel) fuel acc
    pure (upTruth acc)

end BasicExpr

end RetroRocket
