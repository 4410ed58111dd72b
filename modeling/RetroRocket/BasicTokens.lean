import RetroRocket.Action
import RetroRocket.BasicVariables

/-!
# The tokens of a BASIC program

The functions of `tokenizer.c` that read tokens. The text of a program is a list of characters, a
pointer into it is the rest of the text, and the empty rest is the NUL at its end. A report of an
error is kept in `errors`. The handler of `ON ERROR` and `EVAL`, which a report may jump to, are
left out.
-/

namespace RetroRocket

/-- `token_t`. A statement keyword is one constructor with its word. -/
inductive Token where
  | noToken
  | endOfInput
  | number
  | hexNumber
  | string
  | variable
  | comma
  | semicolon
  | plus
  | minus
  | asterisk
  | slash
  | mod
  | openBracket
  | closeBracket
  | lessThan
  | greaterThan
  | equals
  | newline
  | tilde
  | space
  | keyword (word : String)
  deriving DecidableEq

def Token.name : Token → String
  | .noToken => "NO_TOKEN"
  | .endOfInput => "ENDOFINPUT"
  | .number => "NUMBER"
  | .hexNumber => "HEXNUMBER"
  | .string => "STRING"
  | .variable => "VARIABLE"
  | .comma => "COMMA"
  | .semicolon => "SEMICOLON"
  | .plus => "PLUS"
  | .minus => "MINUS"
  | .asterisk => "ASTERISK"
  | .slash => "SLASH"
  | .mod => "MOD"
  | .openBracket => "OPENBRACKET"
  | .closeBracket => "CLOSEBRACKET"
  | .lessThan => "LESSTHAN"
  | .greaterThan => "GREATERTHAN"
  | .equals => "EQUALS"
  | .newline => "NEWLINE"
  | .tilde => "TILDE"
  | .space => "SPACE"
  | .keyword word => word

def keywords : List String := [
  "AND", "ANIMATE", "ARRAYFIND", "ARRSORT", "ARRSORTBY", "AUTOFLIP", "BACKGROUND", "BINREAD",
  "BINWRITE", "CALL", "CHAIN", "CHDIR", "CIRCLE", "CLOSE", "CLS", "COLOR", "COLOUR", "CONNECT",
  "CONTINUE", "CREATE", "CURSOR", "DATA", "DATASET", "DEF", "DELETE", "DERESTRICT", "DESTROY",
  "DEVICES", "DIM", "ELSE", "END", "ENDIF", "ENDPROC", "ENDWHILE", "ENVELOPE", "EOR", "ERROR",
  "EVAL", "FADE", "FLIP", "FOR", "GCOL", "GLOBAL", "GOSUB", "GOTO", "GRAPHPRINT", "HUGE", "IF",
  "INPUT", "KEYMAP", "KGET", "LARGE", "LET", "LIBRARY", "LINE", "LOAD", "LOCAL", "MAPFREE",
  "MAPKEYS", "MAPSET", "MATCH", "MEDIUM", "MEMCOPY", "MEMMOVE", "MEMORY", "MEMRELEASE", "MEMSET",
  "MKDIR", "MODLOAD", "MODUNLOAD", "MOUNT", "NEXT", "NOT", "OFF", "ON", "OR", "OUTPORT",
  "OUTPORTD", "OUTPORTW", "PAGE", "PAUSE", "PLAY", "PLOT", "PLOTQUAD", "POINT", "POKE", "POKED",
  "POKEQ", "POKEW", "POP", "PRINT", "PROC", "PUSH", "RECTANGLE", "REDIM", "REM", "REPEAT",
  "RESET", "RESTORE", "RESTRICT", "RETURN", "RMDIR", "ROTATE", "SCROLLREGION", "SEEK",
  "SETTIMEZONE", "SETVARI", "SETVARR", "SETVARS", "SLEEP", "SMALL", "SOCKBINREAD",
  "SOCKBINWRITE", "SOCKCLOSE", "SOCKFLUSH", "SOCKREAD", "SOCKWRITE", "SOUND", "SPRITEFREE",
  "SPRITELOAD", "SPRITEROW", "SSLCONNECT", "STEP", "STOP", "STREAM", "THEN", "TO", "TONE",
  "TRIANGLE", "UDPBIND", "UDPUNBIND", "UDPWRITE", "UNLOAD", "UNTIL", "VDU", "VOLUME", "WHILE",
  "WRITE", "YIELD"]

/-- The part of `basic_ctx` that the tokenizer and the expressions use. -/
structure ParseCtx where
  ptr : List Char
  nextptr : List Char
  currentToken : Token
  currentLinenum : BitVec 64
  basic : BasicCtx
  errors : List String

def textBytes (text : List Char) : List Byte := text.map fun c => BitVec.ofNat 8 c.toNat

def BasicCtx.afterSet (ctx : BasicCtx) : Except String BasicCtx → BasicCtx
  | .ok ctx => ctx
  | .error _ => ctx

/-- The assignments of `tokenizer_error_print`. -/
def BasicCtx.setError (error : String) (line : BitVec 64) (ctx : BasicCtx) : BasicCtx :=
  let ctx := ctx.afterSet
    (basicSetStringVariable "ERR$".toList (textBytes error.toList) ctx false false)
  let ctx := ctx.afterSet (basicSetIntVariable "ERR".toList 1 ctx false false)
  ctx.afterSet (basicSetIntVariable "ERRLINE".toList line ctx false false)

/-- `tokenizer_error_print`, with no handler and outside `EVAL`. -/
def tokenizerErrorPrint (error : String) (c : ParseCtx) : ParseCtx :=
  { c with basic := c.basic.setError error c.currentLinenum, errors := error :: c.errors }

/-! ## Characters -/

/-- `singlechar_tokens`. -/
def singlecharToken : Char → Token
  | '\n' => .newline
  | ',' => .comma
  | ';' => .semicolon
  | '+' => .plus
  | '-' => .minus
  | '*' => .asterisk
  | '/' => .slash
  | '%' => .mod
  | '(' => .openBracket
  | ')' => .closeBracket
  | '<' => .lessThan
  | '>' => .greaterThan
  | '=' => .equals
  | '~' => .tilde
  | ' ' => .space
  | '\t' => .space
  | _ => .noToken

def isVarChar (c : Char) : Bool := c.isAlphanum || c == '_'

def isVarStart (c : Char) : Bool := c.isAlpha || c == '_'

def isXDigit (c : Char) : Bool :=
  c.isDigit || ('a' ≤ c && c ≤ 'f') || ('A' ≤ c && c ≤ 'F')

def isBlank (c : Char) : Bool := c == ' ' || c == '\t'

/-! ## The next token -/

def maxNumlen : ℕ := 32

def numberEnd (isPart : Char → Bool) : ℕ → List Char → Option (ℕ × List Char)
  | 0, _ => none
  | _ + 1, [] => some (0, [])
  | limit + 1, c :: rest =>
    if isPart c then (numberEnd isPart limit rest).map fun p => (p.1 + 1, p.2)
    else some (0, c :: rest)

def stringEnd : List Char → Bool × List Char
  | [] => (false, [])
  | c :: rest =>
    if c = '\r' then (false, rest)
    else if c = '"' then (true, rest)
    else stringEnd rest

def strncmp : List Char → List Char → ℕ → Ordering
  | _, _, 0 => .eq
  | [], [], _ + 1 => .eq
  | [], _ :: _, _ + 1 => .lt
  | _ :: _, [], _ + 1 => .gt
  | a :: s, b :: t, n + 1 => if a = b then strncmp s t n else compare a.toNat b.toNat

def scanKeywords (text : List Char) : List String → Option String
  | [] => none
  | word :: words =>
    match strncmp (text.drop 2) (word.toList.drop 2) (word.toList.length - 2) with
    | .eq =>
      -- `PROC` is followed by the name of its subroutine
      if ¬ ((text.drop word.toList.length).head?.any isVarChar) ∨ word = "PROC" then some word
      else scanKeywords text words
    | .lt => none
    | .gt => scanKeywords text words

def findKeyword (text : List Char) : Option String :=
  scanKeywords text (keywords.filter fun word => word.toList.take 2 = text.take 2)

def bracketsEnd : ℕ → List Char → List Char
  | _, [] => []
  | depth, c :: rest =>
    let depth := if c = '(' then depth + 1 else if c = ')' then depth - 1 else depth
    if 1 < depth then bracketsEnd depth rest else c :: rest

/-- Where a name stops, and whether it is too long. Each turn takes a character, so the length of
the text is fuel enough. -/
def variableEnd : ℕ → ℕ → List Char → Bool × List Char
  | 0, _, text => (false, text)
  | _ + 1, _, [] => (false, [])
  | fuel + 1, varl, c :: rest =>
    if isVarStart c ∨ (0 < varl ∧ (c = '$' ∨ c = '#' ∨ c = '(' ∨ c.isDigit)) then
      match rest with
      | '(' :: inner => variableEnd fuel varl (bracketsEnd 1 inner)
      | _ => if 60 < varl + 1 then (true, rest) else variableEnd fuel (varl + 1) rest
    else (false, c :: rest)

def getNextToken (c : ParseCtx) : Token × ParseCtx :=
  match c.ptr with
  | [] => (.endOfInput, c)
  | ch :: rest =>
    if ch.isDigit ∨ ch = '&' ∨ ch = '.' then
      if ch = '&' then
        match numberEnd isXDigit maxNumlen rest with
        | some (i, next) =>
          if 1 < i then (.hexNumber, { c with ptr := rest, nextptr := next })
          else (.noToken, tokenizerErrorPrint "Hexadecimal number too short" { c with ptr := rest })
        | none => (.noToken, tokenizerErrorPrint "Number too long" { c with ptr := rest })
      else
        match numberEnd (fun ch => ch.isDigit || ch == '.') maxNumlen (ch :: rest) with
        | some (i, next) =>
          if 0 < i then (.number, { c with nextptr := next })
          else (.noToken, tokenizerErrorPrint "Number too short" c)
        | none => (.noToken, tokenizerErrorPrint "Number too long" c)
    else if singlecharToken ch ≠ .noToken then
      (singlecharToken ch, { c with nextptr := rest })
    else if ch = '"' then
      let (closed, next) := stringEnd rest
      let c := if closed then c else tokenizerErrorPrint "Unterminated string constant" c
      (.string, { c with nextptr := next })
    else
      match findKeyword (ch :: rest) with
      | some word => (.keyword word, { c with nextptr := (ch :: rest).drop word.toList.length })
      | none =>
        if isVarStart ch then
          let (tooLong, next) := variableEnd (rest.length + 1) 0 (ch :: rest)
          let c := if tooLong then tokenizerErrorPrint "Variable name too long" c else c
          let next := if next.head? = some '$' ∨ next.head? = some '#' then next.tail else next
          (.variable, { c with nextptr := next })
        else (.noToken, { c with nextptr := c.nextptr.tail })

/-- Reads the token at `ptr` into `current_token`. -/
def readToken (c : ParseCtx) : ParseCtx :=
  let (token, c) := getNextToken c
  { c with currentToken := token }

def tokenizerInit (program : List Char) (c : ParseCtx) : ParseCtx :=
  readToken { c with ptr := program }

def tokenizerFinished (c : ParseCtx) : Bool := c.ptr.isEmpty || c.currentToken == .endOfInput

def tokenizerNext (c : ParseCtx) : ParseCtx :=
  if tokenizerFinished c then c else readToken { c with ptr := c.nextptr.dropWhile isBlank }

def accept (token : Token) (c : ParseCtx) : ParseCtx :=
  if token ≠ c.currentToken then
    tokenizerErrorPrint ("Expected " ++ token.name ++ " got " ++ c.currentToken.name) c
  else tokenizerNext c

/-! ## What a token stands for -/

def digitValue (c : Char) : BitVec 64 :=
  BitVec.ofNat 64 (if c.isDigit then c.toNat - '0'.toNat
    else if 'a' ≤ c then c.toNat - 'a'.toNat + 10 else c.toNat - 'A'.toNat + 10)

/-- The loop of `atoll`. -/
def atollDigits (isPart : Char → Bool) (radix : BitVec 64) : BitVec 64 → List Char → BitVec 64
  | val, [] => val
  | val, c :: rest =>
    if isPart c then atollDigits isPart radix (val * radix + digitValue c) rest else val

/-- `atoll`, with the radix 16 or another one, which is taken for 10. -/
def atoll (text : List Char) (radix : ℕ) : BitVec 64 :=
  let text := text.dropWhile isBlank
  if radix = 16 then
    match text with
    | '&' :: rest => atollDigits isXDigit 16 0 rest
    | _ => atollDigits isXDigit 16 0 text
  else
    match text with
    | '-' :: rest => - atollDigits Char.isDigit 10 0 rest
    | '+' :: rest => atollDigits Char.isDigit 10 0 rest
    | _ => atollDigits Char.isDigit 10 0 text

def tokenizerNum (token : Token) (c : ParseCtx) : BitVec 64 :=
  if token = .number then atoll c.ptr 10 else atoll c.ptr 16

/-- The loop of `tokenizer_variable_name`: the name, the text behind it, and whether the name is
valid. The counter goes down from `MAX_VARNAME`. -/
def variableName : ℕ → Bool → List Char → Name × List Char × Bool
  | 0, _, text => ([], text, true)
  | _ + 1, _, [] => ([], [], true)
  | limit + 1, true, c :: rest =>
    if isVarStart c then
      let (name, next, valid) := variableName limit false rest
      (c :: name, next, valid)
    else ([], c :: rest, true)
  | limit + 1, false, c :: rest =>
    if c = '$' ∨ c = '#' then
      ([c], rest, ¬ rest.head?.any fun d => isVarChar d || d == '$' || d == '#')
    else if isVarChar c then
      let (name, next, valid) := variableName limit false rest
      (c :: name, next, valid)
    else ([], c :: rest, true)

def maxVarname : ℕ := 50

def tokenizerVariableName (c : ParseCtx) : Name × ParseCtx :=
  let (name, next, valid) := variableName maxVarname true c.ptr
  if valid then (name, { c with ptr := next })
  else ([], tokenizerErrorPrint ("Invalid variable name '" ++ String.ofList name ++ "'")
    { c with ptr := next })

end RetroRocket
