import QPlusWeb.JSONValues

/-!
# The lexer of the literal parser

`LiteralParser::Lexer` reads JSON, the literals of an `eval` and JSONP scripts, depending on its mode.
`ptr` is what lies between `m_ptr` and `m_end`.  After an error no more tokens are read, so `ptr` then
stays where the token starts.
-/

namespace QPlusWeb.JSC
open List

inductive ParserMode where
  | strictJSON
  | nonStrictJSON
  | jsonp
  deriving DecidableEq

inductive TokenType where
  | lBracket
  | rBracket
  | lBrace
  | rBrace
  | string
  | identifier
  | number
  | colon
  | lParen
  | rParen
  | comma
  | true
  | false
  | null
  | end
  | dot
  | assign
  | semi
  | error
  deriving DecidableEq

/-- A token with its text or its value. -/
inductive Token (ν : Type) where
  | lBracket
  | rBracket
  | lBrace
  | rBrace
  | string (s : UString)
  | identifier (s : UString)
  | number (x : ν)
  | colon
  | lParen
  | rParen
  | comma
  | true
  | false
  | null
  | end
  | dot
  | assign
  | semi
  | error
  deriving DecidableEq

variable {ν : Type}

namespace Token

def type : Token ν → TokenType
  | lBracket => .lBracket
  | rBracket => .rBracket
  | lBrace => .lBrace
  | rBrace => .rBrace
  | string _ => .string
  | identifier _ => .identifier
  | number _ => .number
  | colon => .colon
  | lParen => .lParen
  | rParen => .rParen
  | comma => .comma
  | true => .true
  | false => .false
  | null => .null
  | .end => .end
  | dot => .dot
  | assign => .assign
  | semi => .semi
  | error => .error

end Token

structure Lexer (ν : Type) where
  ptr : UString
  currentToken : Token ν
  lexErrorMessage : String

/-! ### Strings -/

variable (mode : ParserMode)

def isSafeStringCharacter (terminator c : UInt16) : Bool :=
  (ch ' ' ≤ c && (mode = .strictJSON || c ≤ 0xff) && c ≠ backslash && c ≠ terminator) ||
    (c = 0x9 && mode ≠ .strictJSON)

/-- `%c` of a code unit. -/
def formatCharacter (c : UInt16) : String := String.singleton (Char.ofNat (c.toNat % 0x100))

/-- `%s` of `String::ascii()`, which ends at a null character. -/
def formatASCII (s : UString) : String :=
  String.ofList ((s.takeWhile (· ≠ 0)).map fun c =>
    if c < 0x20 || 0x7f < c then '?' else Char.ofNat c.toNat)

/-- The escape sequences of one character. -/
def simpleEscape (c : UInt16) : Option UInt16 :=
  if c = quotationMark then some quotationMark
  else if c = backslash then some backslash
  else if c = ch '/' then some (ch '/')
  else if c = ch 'b' then some 0x8
  else if c = ch 'f' then some 0xC
  else if c = ch 'n' then some 0xA
  else if c = ch 'r' then some 0xD
  else if c = ch 't' then some 0x9
  else if c = apostrophe ∧ mode ≠ .strictJSON then some apostrophe
  else none

/-- The digits after `\u`. -/
def lexUnicodeEscape : UString → Except String (UInt16 × UString)
  | c1 :: c2 :: c3 :: c4 :: ptr =>
    if [c1, c2, c3, c4].all isASCIIHexDigit then .ok (convertUnicode c1 c2 c3 c4, ptr)
    else
      .error ("\"\\" ++ formatASCII [ch 'u', c1, c2, c3, c4] ++ "\" is not a valid unicode escape")
  | _ => .error "\\u must be followed by 4 hex digits"

/-- An escape sequence after its backslash. -/
def lexEscape : UString → Except String (UInt16 × UString)
  | [] => .error "Unterminated string"
  | c :: ptr =>
    match simpleEscape mode c with
    | some c' => .ok (c', ptr)
    | none =>
      if c = ch 'u' then lexUnicodeEscape ptr
      else .error ("Invalid escape character " ++ formatCharacter c)

theorem lexUnicodeEscape_eq_ok {ptr rest : UString} {c : UInt16}
    (h : lexUnicodeEscape ptr = .ok (c,rest)) :
    ∃ c1 c2 c3 c4, ptr = c1::c2::c3::c4::rest ∧
      [c1,c2,c3,c4].all isASCIIHexDigit ∧ c = convertUnicode c1 c2 c3 c4 := by
  unfold lexUnicodeEscape at h
  split at h
  next c1 c2 c3 c4 ptr =>
    split at h
    next hh =>
      simp only [Except.ok.injEq,Prod.mk.injEq] at h
      exact ⟨c1,c2,c3,c4,by rw [h.2],hh,h.1.symm⟩
    next => cases h
  next => cases h

theorem lexEscape_length {mode : ParserMode} {ptr rest : UString} {c : UInt16}
    (h : lexEscape mode ptr = .ok (c,rest)) : rest.length < ptr.length := by
  cases ptr with
  | nil => cases h
  | cons c' ptr =>
    simp only [lexEscape] at h
    split at h
    next =>
      simp only [Except.ok.injEq,Prod.mk.injEq] at h
      rw [← h.2,length_cons]
      exact Nat.lt_succ_self _
    next =>
      split at h
      next =>
        obtain ⟨c1,c2,c3,c4,rfl,-,-⟩ := lexUnicodeEscape_eq_ok h
        simp only [length_cons]
        omega
      next => cases h

/-- The end of the loop: the string is what has been built, or the last run if nothing was. -/
def finishString (terminator : UInt16) (builder run ptr : UString) :
    Except String (UString × UString) :=
  match ptr with
  | [] => .error "Unterminated string"
  | c :: ptr =>
    if c = terminator then .ok (if builder = [] then run else builder, ptr)
    else .error "Unterminated string"

/-- The loop of `lexString`: a run of safe characters and an escape sequence in every round. -/
def lexStringFrom (mode : ParserMode) (terminator : UInt16) (builder ptr : UString) :
    Except String (UString × UString) :=
  let run := ptr.takeWhile (isSafeStringCharacter mode terminator)
  let rest := ptr.dropWhile (isSafeStringCharacter mode terminator)
  let builder := if builder = [] then builder else builder ++ run
  if mode ≠ .nonStrictJSON ∧ rest.head? = some backslash then
    let builder := if builder = [] then run else builder
    match _h : lexEscape mode rest.tail with
    | .error message => .error message
    | .ok (c, after) =>
      if after ≠ [] ∧ after.head? ≠ some terminator then
        lexStringFrom mode terminator (builder ++ [c]) after
      else finishString terminator (builder ++ [c]) run after
  else if mode ≠ .nonStrictJSON ∧ run ≠ [] ∧ rest ≠ [] ∧ rest.head? ≠ some terminator then
    lexStringFrom mode terminator builder rest
  else finishString terminator builder run rest
termination_by ptr.length
decreasing_by
  · have hlt := lexEscape_length _h
    have hle : rest.length ≤ ptr.length := (dropWhile_suffix _).length_le
    rw [length_tail] at hlt
    omega
  · have hsplit : (run ++ rest).length = ptr.length :=
      congrArg List.length takeWhile_append_dropWhile
    have hrun : run ≠ [] := by tauto
    have hpos := length_pos_iff.mpr hrun
    rw [length_append] at hsplit
    change rest.length < ptr.length
    omega

/-! ### Numbers -/

def lexInteger : UString → Except String UString
  | [] => .error "Invalid number"
  | c :: ptr =>
    if c = ch '0' then .ok ptr
    else if ch '1' ≤ c && c ≤ ch '9' then .ok (ptr.dropWhile isASCIIDigit)
    else .error "Invalid number"

/-- `[0-9]+` -/
def lexDigits (message : String) : UString → Except String UString
  | [] => .error message
  | c :: ptr => if isASCIIDigit c then .ok (ptr.dropWhile isASCIIDigit) else .error message

/-- `('.' [0-9]+)?` -/
def lexFraction (ptr : UString) : Except String UString :=
  if ptr.head? = some (ch '.') then lexDigits "Invalid digits after decimal point" ptr.tail
  else .ok ptr

/-- `([eE][+-]? [0-9]+)?` -/
def lexExponent : UString → Except String UString
  | [] => .ok []
  | c :: ptr =>
    if c = ch 'e' || c = ch 'E' then
      lexDigits
        "Exponent symbols should be followed by an optional '+' or '-' and then by at least one number"
        (if ptr.head? = some (ch '-') ∨ ptr.head? = some (ch '+') then ptr.tail else ptr)
    else .ok (c :: ptr)

/-- What has been read between two places. -/
def readBetween (start ptr : UString) : UString := start.take (start.length - ptr.length)

/-- The loop for short integers. -/
def shortInteger (text : UString) : ℤ :=
  if text.head? = some (ch '-') then -digitsValue text.tail else digitsValue text

def isShortInteger (start ptr : UString) : Bool :=
  ptr ≠ [] && ptr.head? ≠ some (ch 'e') && ptr.head? ≠ some (ch 'E') &&
    (readBetween start ptr).length < 10

def lexNumber (d : Doubles ν) (start : UString) : Except String (ν × UString) := do
  let ptr ← lexInteger (if start.head? = some (ch '-') then start.tail else start)
  if ptr.head? ≠ some (ch '.') ∧ isShortInteger start ptr then
    return (d.ofInt (shortInteger (readBetween start ptr)), ptr)
  else
    let ptr ← lexFraction ptr
    let ptr ← lexExponent ptr
    return (parseDouble d (readBetween start ptr), ptr)

/-! ### Tokens -/

/-- The tokens of one character in the `switch`. -/
def punctuation (c : UInt16) : Option (Token ν) :=
  if c = ch '[' then some .lBracket
  else if c = ch ']' then some .rBracket
  else if c = ch '(' then some .lParen
  else if c = ch ')' then some .rParen
  else if c = 0x7B then some .lBrace
  else if c = 0x7D then some .rBrace
  else if c = ch ',' then some .comma
  else if c = ch ':' then some .colon
  else none

/-- The literals, by their first character. -/
def keywordToken (ptr : UString) : Option (Token ν × UString) :=
  if [ch 't', ch 'r', ch 'u', ch 'e'].isPrefixOf ptr then some (.true, ptr.drop 4)
  else if [ch 'f', ch 'a', ch 'l', ch 's', ch 'e'].isPrefixOf ptr then some (.false, ptr.drop 5)
  else if [ch 'n', ch 'u', ch 'l', ch 'l'].isPrefixOf ptr then some (.null, ptr.drop 4)
  else none

def isIdentifierStart (c : UInt16) : Bool := isASCIIAlpha c || c = ch '_' || c = ch '$'

def isIdentifierPart (c : UInt16) : Bool :=
  isASCIIAlphanumeric c || c = ch '_' || c = ch '$' || c = 0x200C || c = 0x200D

/-- `lex` from the first character of a token.  The type it returns is not always that of the token:
a `;` is a `TokSemi`, but `TokAssign` is returned. -/
def lexToken (d : Doubles ν) (mode : ParserMode) (c : UInt16) (ptr : UString) :
    Except String (TokenType × Token ν × UString) :=
  match punctuation c with
  | some token => .ok (token.type, token, ptr)
  | none =>
    if c = quotationMark then do
      let (s, ptr) ← lexStringFrom mode quotationMark [] ptr
      return (.string, .string s, ptr)
    else
      match keywordToken (c :: ptr) with
      | some (token, ptr) => .ok (token.type, token, ptr)
      | none =>
        if c = ch '-' || isASCIIDigit c then do
          let (x, ptr) ← lexNumber d (c :: ptr)
          return (.number, .number x, ptr)
        else if c = ch '.' then .ok (.dot, .dot, ptr)
        else if c = ch '=' then .ok (.assign, .assign, ptr)
        else if c = ch ';' then .ok (.assign, .semi, ptr)
        else if isIdentifierStart c then
          .ok (.identifier, .identifier ((c :: ptr).takeWhile isIdentifierPart),
            (c :: ptr).dropWhile isIdentifierPart)
        else if c = apostrophe then
          if mode = .strictJSON then .error "Single quotes (') are not allowed in JSON"
          else do
            let (s, ptr) ← lexStringFrom mode apostrophe [] ptr
            return (.string, .string s, ptr)
        else .error ("Unrecognized token '" ++ formatCharacter c ++ "'")

/-- `next()`: the type that it returns, and the lexer with its new current token. -/
def Lexer.next (d : Doubles ν) (mode : ParserMode) (l : Lexer ν) : TokenType × Lexer ν :=
  match l.ptr.dropWhile isJSONWhiteSpace with
  | [] => (.end, { l with ptr := [], currentToken := .end })
  | c :: ptr =>
    match lexToken d mode c ptr with
    | .ok (type, token, ptr) => (type, { l with ptr := ptr, currentToken := token })
    | .error message => (.error, ⟨c :: ptr, .error, message⟩)

end QPlusWeb.JSC
