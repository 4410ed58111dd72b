import RetroRocket.BasicTokens

/-!
# IF statements

The statements of `flow_control.c` that an `IF` is made of, and the loop of `main.c` over the lines
of a program. A program is the list of its tokens, and `ptr` is the rest of the list. Conditions and
all other statements are the business of an interpreter. An error ends the program.
-/

namespace RetroRocket

structure Lexeme where
  token : Token
  text : List Char
  deriving DecidableEq

def Lexeme.keyword (word : String) : Lexeme := ⟨.keyword word, word.toList⟩

/-- `up_conditional`, with the tokens behind the condition, and the handlers of the other
statements, with the tokens behind the statement. -/
structure Interpreter (σ : Type) where
  conditional : σ → List Lexeme → Bool × σ × List Lexeme
  handler : σ → List Lexeme → σ × List Lexeme

structure Machine (σ : Type) where
  rest : List Lexeme
  env : σ
  currentLinenum : BitVec 64
  errors : List String

namespace Machine

variable {σ : Type} (m : Machine σ)

/-- `tokenizer_token`. -/
def token : Token := (m.rest.head?.map Lexeme.token).getD .endOfInput

/-- `tokenizer_finished`. -/
def finished : Bool := m.rest.isEmpty

/-- `tokenizer_next`. -/
def next : Machine σ := { m with rest := m.rest.tail }

/-- `tokenizer_error_print`. -/
def errorPrint (error : String) : Machine σ := { m with errors := error :: m.errors }

/-- `accept_or_return`, with what comes after it. -/
def acceptOrReturn (token : Token) (k : Machine σ → Machine σ) : Machine σ :=
  if m.token = token then k m.next
  else m.errorPrint ("Expected " ++ token.name ++ " got " ++ m.token.name)

def endifStatement : Machine σ :=
  m.acceptOrReturn (.keyword "ENDIF") fun m => m.acceptOrReturn .newline id

def elseStatement : Machine σ :=
  m.acceptOrReturn (.keyword "ELSE") fun m => m.acceptOrReturn .newline fun m =>
    let m := { m with rest := m.rest.dropWhile fun l => l.token ≠ Token.keyword "ENDIF" }
    let m := if m.finished then m.errorPrint "Block IF/THEN/ELSE without ENDIF" else m
    m.acceptOrReturn (.keyword "ENDIF") fun m => m.acceptOrReturn .newline id

/-- The search for the `THEN` of an `IF` that is not taken: where it goes on, and whether a block
starts there. -/
def seekThen : List Lexeme → List Lexeme × Bool
  | [] => ([], false)
  | l :: rest =>
    if l.token = .keyword "THEN" then (rest, (rest.head?.map Lexeme.token) == some .newline)
    else if l.token = .newline then (l :: rest, false)
    else seekThen rest

/-- The branch of a block that is not taken, in `if_statement`. Each turn takes a token, so the
length of the list is fuel enough. -/
def skipFalse : ℕ → ℕ → Machine σ → Machine σ
  | 0, _, m => m
  | fuel + 1, depth, m =>
    if m.finished then m
    else if m.token = .keyword "IF" then
      let (rest, multiline) := seekThen m.rest.tail
      skipFalse fuel (if multiline then depth + 1 else depth) { m with rest := rest }
    else if m.token = .keyword "ELSE" then
      if depth = 0 ∧ m.next.token = .newline then m.next.acceptOrReturn .newline id
      else skipFalse fuel depth m.next
    else if m.token = .keyword "ENDIF" then
      if depth = 0 then m.next.acceptOrReturn .newline id
      else skipFalse fuel (depth - 1) m.next
    else skipFalse fuel depth m.next

/-- Whether the search for the `ELSE` of a single line goes on. -/
def isInLine (l : Lexeme) : Bool := l.token ≠ Token.keyword "ELSE" ∧ l.token ≠ .newline

def ifStatement (I : Interpreter σ) (statement : Machine σ → Machine σ) : Machine σ :=
  m.acceptOrReturn (.keyword "IF") fun m =>
    let (r, env, rest) := I.conditional m.env m.rest
    let m := { m with env := env, rest := rest }
    m.acceptOrReturn (.keyword "THEN") fun m =>
      if r then
        if m.token = .newline then m.acceptOrReturn .newline id else statement m
      else if m.token = .newline then
        m.acceptOrReturn .newline fun m => skipFalse (m.rest.length + 1) 0 m
      else
        let m := { m with rest := m.rest.tail.dropWhile isInLine }
        if m.token = .keyword "ELSE" then statement m.next
        else if m.token = .newline then m.next
        else m

/-- `statement`, with no keyword restricted. Each `IF` takes a token, so the length of the list is
fuel enough. -/
def statement (I : Interpreter σ) : ℕ → Machine σ → Machine σ
  | 0, m => m
  | fuel + 1, m =>
    if m.token = .keyword "IF" then m.ifStatement I (statement I fuel)
    else if m.token = .keyword "ELSE" then m.elseStatement
    else if m.token = .keyword "ENDIF" then m.endifStatement
    else
      let (env, rest) := I.handler m.env m.rest
      acceptOrReturn { m with env := env, rest := rest } .newline id

def tokenizerNum : BitVec 64 := atoll ((m.rest.head?.map Lexeme.text).getD []) 10

/-- `line_statement`. The error also quotes the text of the line. -/
def lineStatement (I : Interpreter σ) : Machine σ :=
  if m.token = .newline then m.next
  else
    let line := m.tokenizerNum
    if line = 0 then
      m.errorPrint ("Missing line number after line " ++ toString m.currentLinenum.toNat)
    else
      let m := { m with currentLinenum := line }
      m.acceptOrReturn .number fun m => m.statement I (m.rest.length + 1)

def basicRun (I : Interpreter σ) : Machine σ :=
  if m.errors ≠ [] ∨ m.finished then m else m.lineStatement I

/-- `basic_run`, time after time. -/
def run (I : Interpreter σ) : ℕ → Machine σ → Machine σ
  | 0, m => m
  | n + 1, m => run I n (m.basicRun I)

end Machine

end RetroRocket
