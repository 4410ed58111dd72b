import RetroRocket.BasicTokens

/-!
# The pointers of the tokenizer

`get_next_token` and `tokenizer_next` with their pointers as positions in the text of a program,
which ends with the NUL at position `text.length`. `nextptr` may point behind the NUL, and points
nowhere in a new context. A step that would read at such a place has no result. Where it stays in
the text, it reads the same tokens as `readToken`, whose pointers are the rest of the text.
-/

namespace RetroRocket

/-- The part of `basic_ctx` that the tokenizer uses. -/
structure TokenCtx where
  text : List Char
  ptr : ℕ
  nextptr : Option ℕ
  currentToken : Token
  errors : List String

namespace TokenCtx

variable (s : TokenCtx)

/-- `tokenizer_error_print`. Nothing handles the error while the program has not been run. -/
def errorPrint (error : String) : TokenCtx := { s with errors := error :: s.errors }

def stringLength : List Char → Bool × ℕ
  | [] => (false, 1)
  | c :: rest =>
    if c = '\r' then (false, 1)
    else if c = '"' then (true, 1)
    else
      let (closed, n) := stringLength rest
      (closed, n + 1)

def getNextToken : Token × TokenCtx :=
  match s.text.drop s.ptr with
  | [] => (.endOfInput, s)
  | ch :: rest =>
    if ch.isDigit ∨ ch = '&' ∨ ch = '.' then
      if ch = '&' then
        let s := { s with ptr := s.ptr + 1 }
        match numberEnd isXDigit maxNumlen rest with
        | some (i, _) =>
          if 1 < i then (.hexNumber, { s with nextptr := some (s.ptr + i) })
          else (.noToken, s.errorPrint "Hexadecimal number too short")
        | none => (.noToken, s.errorPrint "Number too long")
      else
        match numberEnd (fun ch => ch.isDigit || ch == '.') maxNumlen (ch :: rest) with
        | some (i, _) =>
          if 0 < i then (.number, { s with nextptr := some (s.ptr + i) })
          else (.noToken, s.errorPrint "Number too short")
        | none => (.noToken, s.errorPrint "Number too long")
    else if singlecharToken ch ≠ .noToken then
      (singlecharToken ch, { s with nextptr := some (s.ptr + 1) })
    else if ch = '"' then
      let (closed, n) := stringLength rest
      let s := if closed then s else s.errorPrint "Unterminated string constant"
      (.string, { s with nextptr := some (s.ptr + n + 1) })
    else
      match findKeyword (ch :: rest) with
      | some word => (.keyword word, { s with nextptr := some (s.ptr + word.toList.length) })
      | none =>
        if isVarStart ch then
          let (tooLong, next) := variableEnd (rest.length + 1) 0 (ch :: rest)
          let s := if tooLong then s.errorPrint "Variable name too long" else s
          let last := s.text.length - next.length
          let last := if next.head? = some '$' ∨ next.head? = some '#' then last + 1 else last
          (.variable, { s with nextptr := some last })
        else (.noToken, { s with nextptr := s.nextptr.map (· + 1) })

/-- Reads the token at `ptr` into `current_token`. -/
def read : TokenCtx :=
  let (token, s) := s.getNextToken
  { s with currentToken := token }

/-- `tokenizer_init`, on a new context. -/
def tokenizerInit (program : List Char) : TokenCtx := read ⟨program, 0, none, .noToken, []⟩

/-- `tokenizer_finished`. -/
def finished : Bool := (s.text.drop s.ptr).isEmpty || s.currentToken == .endOfInput

/-- The first position from `p` on that is not blank. -/
def skipBlanks (text : List Char) (p : ℕ) : ℕ := p + ((text.drop p).takeWhile isBlank).length

def tokenizerNext : Option TokenCtx :=
  if s.finished then some s
  else
    match s.nextptr with
    | none => none
    | some p =>
      if s.text.length < p then none else some (read { s with ptr := skipBlanks s.text p })

end TokenCtx

end RetroRocket
