import RetroRocket.Bits
import RetroRocket.BasicTokens
import RetroRocket.CallFrames

/-!
# WHILE loops

`while_statement`, `endwhile_statement`, `continue_statement` for WHILE, and the calls of
procedures, on the lines of a program. A line holds one statement. The search for an ENDWHILE goes
over the tokens of the lines. What a condition or another statement does to the rest of the context
is a function.
-/

namespace RetroRocket

inductive LoopStatement (σ : Type) where
  | whileDo (condition : σ → Bool × σ) (tokens : List Token)
  | endwhile
  | continueWhile (taken : σ → Bool × σ) (guard : List Token)
  | procCall (line : ℕ) (tokens : List Token)
  | endproc
  | endProgram
  | plain (run : σ → σ) (tokens : List Token)

def whileToken : Token := .keyword "WHILE"

def endwhileToken : Token := .keyword "ENDWHILE"

variable {σ : Type}

def LoopStatement.tokens : LoopStatement σ → List Token
  | .whileDo _ tokens => whileToken :: tokens
  | .endwhile => [endwhileToken]
  | .continueWhile _ guard => guard ++ [.keyword "CONTINUE", whileToken]
  | .procCall _ tokens => .keyword "PROC" :: tokens
  | .endproc => [.keyword "ENDPROC"]
  | .endProgram => [.keyword "END"]
  | .plain _ tokens => tokens

structure LoopLine (σ : Type) where
  number : ℕ
  statement : LoopStatement σ

structure LoopProgram (σ : Type) where
  lines : List (LoopLine σ)
  distinct : (lines.map LoopLine.number).Nodup
  positive : ∀ line ∈ lines, 0 < line.number

/-! ## The search for a token -/

inductive SeekToken where
  | number (line : ℕ)
  | newline
  | token (t : Token)

def seekTokens (lines : List (LoopLine σ)) : List SeekToken :=
  lines.flatMap fun line =>
    .number line.number :: line.statement.tokens.map .token ++ [.newline]

/-- `seek_to_matching_token` with its depth and the last line that it has seen. It gives the line
that it jumps to. -/
def seekToMatchingToken (openTok closeTok : Token) : ℕ → ℕ → List SeekToken → Option ℕ
  | _, _, [] => none
  | depth, line, .number _ :: rest => seekToMatchingToken openTok closeTok depth line rest
  | depth, _, .newline :: .number n :: rest => seekToMatchingToken openTok closeTok depth n rest
  | depth, line, .newline :: .newline :: rest =>
    seekToMatchingToken openTok closeTok depth line rest
  | depth, line, .newline :: rest => seekToMatchingToken openTok closeTok depth line rest
  | depth, line, .token t :: rest =>
    if t = openTok then seekToMatchingToken openTok closeTok (depth + 1) line rest
    else if t = closeTok then
      if depth = 1 then some line
      else seekToMatchingToken openTok closeTok (depth - 1) line rest
    else seekToMatchingToken openTok closeTok depth line rest

/-! ## Statements -/

/-- The context between two lines: the line that is next, the stack of the loops, and the frames
with the line to return to and the saved `while_stack_ptr`. A fault is an index outside of the stack
or of the tables of local variables. -/
structure WhileCtx (σ : Type) where
  pos : ℕ
  whileStack : ℕ → ℕ
  whileStackPtr : ℕ
  frames : List (ℕ × ℕ)
  data : σ
  ended : Bool
  error : Option String
  fault : Bool

def WhileCtx.start (data : σ) : WhileCtx σ := ⟨0, fun _ => 0, 0, [], data, false, none, false⟩

namespace LoopProgram

variable (P : LoopProgram σ)

def statementAt (p : ℕ) : Option (LoopStatement σ) := P.lines[p]?.map LoopLine.statement

def numberAt (p : ℕ) : ℕ := (P.lines[p]?.map LoopLine.number).getD 0

/-- `ctx->lines`. -/
def position (number : ℕ) : Option ℕ := P.lines.findIdx? fun line => line.number == number

def jumpLinenum (number : ℕ) (c : WhileCtx σ) : WhileCtx σ :=
  match P.position number with
  | some p => { c with pos := p }
  | none => { c with error := some ("No such line " ++ toString number) }

/-- `while_statement`, behind its condition. -/
def whileStatement (line : ℕ) (continueLoop : Bool) (c : WhileCtx σ) : WhileCtx σ :=
  if maxLoopStackDepth < c.whileStackPtr then { c with fault := true }
  else
    let inside := 0 < c.whileStackPtr ∧ c.whileStack (c.whileStackPtr - 1) = line
    if ¬ inside ∧ maxLoopStackDepth ≤ c.whileStackPtr then
      { c with error := some "WHILE stack exhausted" }
    else if continueLoop then
      if inside then c
      else
        { c with
          whileStack := Function.update c.whileStack c.whileStackPtr line
          whileStackPtr := c.whileStackPtr + 1 }
    else
      let c := { c with whileStackPtr := (c.whileStackPtr + (2 ^ 64 - 1)) % 2 ^ 64 }
      match seekToMatchingToken whileToken endwhileToken 1 0 (seekTokens (P.lines.drop c.pos)) with
      | none => { c with error := some "Unclosed WHILE" }
      | some number =>
        -- the rest of the line with the ENDWHILE is skipped
        let c := P.jumpLinenum number c
        { c with pos := c.pos + 1 }

/-- The jump of `endwhile_statement` and of `continue_statement` to the line on the top of the
stack. -/
def jumpToWhile (c : WhileCtx σ) : WhileCtx σ :=
  if maxLoopStackDepth < c.whileStackPtr then { c with fault := true }
  else P.jumpLinenum (c.whileStack (c.whileStackPtr - 1)) c

def endwhileStatement (c : WhileCtx σ) : WhileCtx σ :=
  if 0 < c.whileStackPtr then P.jumpToWhile c else c

def continueStatement (c : WhileCtx σ) : WhileCtx σ :=
  if c.whileStackPtr = 0 then { c with error := some "CONTINUE WHILE used outside WHILE" }
  else P.jumpToWhile c

/-- `proc_statement`, where `init_local_heap` writes to the tables of local variables at the new
frame. -/
def procStatement (line : ℕ) (c : WhileCtx σ) : WhileCtx σ :=
  if maxCallStackDepth ≤ c.frames.length then
    { c with error := some "Call stack depth exceeded" }
  else if maxCallStackDepth ≤ c.frames.length + 1 then { c with fault := true }
  else P.jumpLinenum line { c with frames := (P.numberAt c.pos, c.whileStackPtr) :: c.frames }

/-- `endproc_statement`, where `free_local_heap` clears the tables of local variables at the
frame. -/
def endprocStatement (c : WhileCtx σ) : WhileCtx σ :=
  match c.frames with
  | [] => { c with error := some "ENDPROC when not inside PROC" }
  | (line, ptr) :: frames =>
    if maxCallStackDepth ≤ frames.length + 1 then { c with fault := true }
    else P.jumpLinenum line { c with frames := frames, whileStackPtr := ptr }

def runLine (line : LoopLine σ) (c : WhileCtx σ) : WhileCtx σ :=
  let c := { c with pos := c.pos + 1 }
  match line.statement with
  | .whileDo condition _ =>
    let r := condition c.data
    P.whileStatement line.number r.1 { c with data := r.2 }
  | .endwhile => P.endwhileStatement c
  | .continueWhile taken _ =>
    let r := taken c.data
    if r.1 then P.continueStatement { c with data := r.2 } else { c with data := r.2 }
  | .procCall line _ => P.procStatement line c
  | .endproc => P.endprocStatement c
  | .endProgram => { c with ended := true }
  | .plain run _ => { c with data := run c.data }

/-- `line_statement`, until the program has ended or has an error. -/
def step (c : WhileCtx σ) : WhileCtx σ :=
  if c.ended ∨ c.error.isSome ∨ c.fault then c
  else
    match P.lines[c.pos]? with
    | none => c
    | some line => P.runLine line c

end LoopProgram

end RetroRocket
