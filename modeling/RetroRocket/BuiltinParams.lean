import RetroRocket.TokenPointers

/-!
# The arguments of a builtin function

`PARAMS_START` and `PARAMS_GET_ITEM`, which look for the end of an argument character by character,
put a NUL there, evaluate what stands in front of it, and take the NUL away again. Brackets and
commas are counted wherever they stand, also in a string constant.
-/

namespace RetroRocket

/-- `BIP_INT`, `BIP_STRING`, `BIP_DOUBLE` and `BIP_VARIABLE`. -/
inductive ParamType where
  | int
  | string
  | double
  | varName

def nul : Char := '\x00'

def stringAt (text : List Char) (p : ℕ) : List Char := (text.drop p).takeWhile (· ≠ nul)

namespace TokenCtx

/-- `get_next_token` in a text that may have a NUL before its end. -/
def tokenBeforeNul (s : TokenCtx) : Token × TokenCtx :=
  let r := getNextToken { s with text := s.text.take (s.ptr + (stringAt s.text s.ptr).length) }
  (r.1, { r.2 with text := s.text })

def charAt (s : TokenCtx) (p : ℕ) : Char := (s.text[p]?).getD nul

end TokenCtx

structure Params (ν : Type) where
  ctx : TokenCtx
  bracketDepth : ℤ
  itemBegin : ℕ
  items : List (List Char × ν)

def paramsStart (ν : Type) (ctx : TokenCtx) : Params ν := ⟨ctx, 0, ctx.ptr, []⟩

def depthAfter (depth : ℤ) (ch : Char) : ℤ :=
  if ch = '(' then depth + 1 else if ch = ')' then depth - 1 else depth

def EndsItem (depth : ℤ) (ch : Char) : Prop := (ch = ',' ∧ depth = 1) ∨ (ch = ')' ∧ depth = 0)

instance (depth : ℤ) (ch : Char) : Decidable (EndsItem depth ch) :=
  inferInstanceAs (Decidable (_ ∧ _ ∨ _ ∧ _))

namespace Params

variable {ν : Type}

/-- The brackets in `PARAMS_GET_ITEM`. -/
def countBracket (ch : Char) (p : Params ν) : Params ν :=
  { p with
    bracketDepth := depthAfter p.bracketDepth ch
    itemBegin := if ch = '(' ∧ p.bracketDepth + 1 = 1 then p.ctx.ptr + 1 else p.itemBegin }

def evalItem (eval : ParamType → TokenCtx → ν × TokenCtx) (type : ParamType) (p : Params ν) :
    Params ν :=
  let oldptr := p.ctx.ptr
  let token := { p.ctx with nextptr := some p.itemBegin, ptr := p.itemBegin }.tokenBeforeNul
  let ctx := { token.2 with currentToken := token.1, text := p.ctx.text.set oldptr nul }
  let value := eval type ctx
  { p with
    ctx :=
      { value.2 with
        text := value.2.text.set oldptr (p.ctx.charAt oldptr)
        ptr := oldptr
        nextptr := p.ctx.nextptr
        currentToken := p.ctx.currentToken }
    itemBegin := oldptr + 1
    items := p.items ++ [(stringAt ctx.text p.itemBegin, value.1)] }

def readBracket (p : Params ν) : Params ν :=
  let token := { p.ctx with nextptr := some p.ctx.ptr }.tokenBeforeNul
  { p with ctx := { token.2 with currentToken := token.1 } }

def advance (p : Params ν) : Params ν := { p with ctx := { p.ctx with ptr := p.ctx.ptr + 1 } }

def endItem (eval : ParamType → TokenCtx → ν × TokenCtx) (type : ParamType) (ch : Char)
    (p : Params ν) : Params ν :=
  if EndsItem p.bracketDepth ch then p.evalItem eval type else p

def closes (p : Params ν) : Bool := p.bracketDepth = 0 ∨ p.ctx.charAt p.ctx.ptr = nul

def closeItem (p : Params ν) : Params ν := if p.closes then p.readBracket else p

def itemTurn (eval : ParamType → TokenCtx → ν × TokenCtx) (type : ParamType) (ch : Char)
    (p : Params ν) : Params ν × Bool :=
  let counted := p.countBracket ch
  let ended := counted.endItem eval type ch
  (ended.closeItem.advance, decide (EndsItem counted.bracketDepth ch) || ended.closes)

/-- The loop of `PARAMS_GET_ITEM` on the text that is left. -/
def getItemLoop (eval : ParamType → TokenCtx → ν × TokenCtx) (type : ParamType) :
    List Char → Params ν → Params ν
  | [], p => p
  | ch :: rest, p =>
    if ch = '\n' ∨ ch = nul then p
    else
      let turn := p.itemTurn eval type ch
      if turn.2 then turn.1 else getItemLoop eval type rest turn.1

/-- `PARAMS_GET_ITEM`. -/
def getItem (eval : ParamType → TokenCtx → ν × TokenCtx) (type : ParamType) (p : Params ν) :
    Params ν :=
  getItemLoop eval type (p.ctx.text.drop p.ctx.ptr) p

/-- `PARAMS_GET_ITEM` for all the arguments of a function. -/
def getItems (eval : ParamType → TokenCtx → ν × TokenCtx) (types : List ParamType) (p : Params ν) :
    Params ν :=
  types.foldl (fun p type => p.getItem eval type) p

/-- `PARAMS_END` finds the closing bracket. -/
def ended (p : Params ν) : Bool := p.ctx.charAt (p.ctx.ptr - 1) = ')'

end Params

/-! ## Arguments -/

def splitsNowhere : Bool → ℕ → List Char → Bool
  | inQuotes, depth, [] => !inQuotes && depth == 0
  | inQuotes, depth, ch :: rest =>
    if ch = '"' then splitsNowhere (!inQuotes) depth rest
    else if inQuotes then splitsNowhere true depth rest
    else if ch = '(' then splitsNowhere false (depth + 1) rest
    else if ch = ')' then decide (0 < depth) && splitsNowhere false (depth - 1) rest
    else if ch = ',' then decide (0 < depth) && splitsNowhere false depth rest
    else splitsNowhere false depth rest

/-- The text of an argument: its string constants are closed, its brackets are balanced, and its
commas are in brackets. -/
structure IsArgument (e : List Char) : Prop where
  grammar : splitsNowhere false 0 e = true
  noNewline : '\n' ∉ e
  noNul : nul ∉ e

def balanced : ℤ → List Char → Bool
  | depth, [] => depth == 1
  | depth, ch :: rest =>
    !decide (EndsItem (depthAfter depth ch) ch) && balanced (depthAfter depth ch) rest

def callText : List (List Char) → List Char
  | [] => [')']
  | [e] => e ++ [')']
  | e :: es => e ++ ',' :: callText es

end RetroRocket
