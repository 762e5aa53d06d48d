import QPlusWeb.LiteralLexer
import QPlusWeb.ProbeSequence

/-!
# The literal parser

`LiteralParser::parse` is an automaton that keeps the objects under construction, their next keys and
the states to go back to on stacks of its own.  Every label of the source is a state here, so that a
`goto` is a step.  The loop runs on fuel; `none` is a loop that does not end or a stack that is popped
when it is empty.
-/

namespace QPlusWeb.JSC

open ProbeSequence

inductive ParserState where
  | startParseObject
  | startParseArray
  | startParseExpression
  | startParseStatement
  | startParseStatementEndStatement
  | doParseObjectStartExpression
  | doParseObjectEndExpression
  | doParseArrayStartExpression
  | doParseArrayEndExpression
  deriving DecidableEq

variable {ν : Type}

/-- The variables of `parse`; a stack has its last element first. -/
structure ParserVariables (ν : Type) where
  lexer : Lexer ν
  objectStack : List (JSONValue ν)
  lastValue : Option (JSONValue ν)
  stateStack : List ParserState
  identifierStack : List UString

/-- What `parse` returns, and what it leaves in the members. -/
structure ParseEnd (ν : Type) where
  value : Option (JSONValue ν)
  parseErrorMessage : String
  lexer : Lexer ν

/-- The next round, or the end. -/
abbrev ParserStep (ν : Type) := (ParserState × ParserVariables ν) ⊕ Option (ParseEnd ν)

namespace ParserVariables

/-- `return JSValue();` -/
def fail (v : ParserVariables ν) (message : String) : ParserStep ν :=
  .inr (some ⟨none, message, v.lexer⟩)

/-- `break;` -/
def complete (v : ParserVariables ν) : ParserStep ν :=
  match v.stateStack with
  | [] => .inr (some ⟨v.lastValue, "", v.lexer⟩)
  | state :: stateStack => .inl (state, { v with stateStack := stateStack })

variable (d : Doubles ν) (mode : ParserMode) (v : ParserVariables ν)

/-- `m_lexer.next(); lastValue = value; break;` -/
def literal (value : JSONValue ν) : ParserStep ν :=
  complete { v with lexer := (v.lexer.next d mode).2, lastValue := some value }

/-- `m_lexer.next(); lastValue = objectStack.last(); objectStack.removeLast(); break;` -/
def closeObject : ParserStep ν :=
  match v.objectStack with
  | [] => .inr none
  | object :: objectStack => literal d mode { v with objectStack := objectStack } object

/-- Goes on with an expression, to come back to `state`. -/
def pushExpression (state : ParserState) : ParserStep ν :=
  .inl (.startParseExpression, { v with stateStack := state :: v.stateStack })

/-- The key of a member, at its token. -/
def memberKey : Token ν → Option UString
  | .string s => some s
  | .identifier s => if mode ≠ .strictJSON then some s else none
  | _ => none

/-- A member after its key. -/
def member (key : UString) (message : String) : ParserStep ν :=
  let (type, lexer) := v.lexer.next d mode
  let v := { v with lexer := lexer }
  if type ≠ .colon then v.fail message
  else
    pushExpression
      { v with
        lexer := (v.lexer.next d mode).2
        identifierStack := key :: v.identifierStack }
      .doParseObjectEndExpression

def startParseExpression : ParserStep ν :=
  match v.lexer.currentToken with
  | .lBracket => .inl (.startParseArray, v)
  | .lBrace => .inl (.startParseObject, v)
  | .string s => v.literal d mode (.string s)
  | .number x => v.literal d mode (.number x)
  | .null => v.literal d mode .null
  | .true => v.literal d mode (.bool Bool.true)
  | .false => v.literal d mode (.bool Bool.false)
  | .rBracket => v.fail "Unexpected token ']'"
  | .rBrace => v.fail "Unexpected token '\x7d'"
  | .identifier s => v.fail ("Unexpected identifier \"" ++ formatASCII s ++ "\"")
  | .colon => v.fail "Unexpected token ':'"
  | .lParen => v.fail "Unexpected token '('"
  | .rParen => v.fail "Unexpected token ')'"
  | .comma => v.fail "Unexpected token ','"
  | .dot => v.fail "Unexpected token '.'"
  | .assign => v.fail "Unexpected token '='"
  | .semi => v.fail "Unexpected token ';'"
  | .end => v.fail "Unexpected EOF"
  | .error => v.fail "Could not parse value expression"

def startParseStatement : ParserStep ν :=
  match v.lexer.currentToken with
  | .lBracket | .number _ | .string _ => .inl (.startParseExpression, v)
  | .lParen =>
    pushExpression { v with lexer := (v.lexer.next d mode).2 } .startParseStatementEndStatement
  | .rBracket => v.fail "Unexpected token ']'"
  | .lBrace => v.fail "Unexpected token '\x7b'"
  | .rBrace => v.fail "Unexpected token '\x7d'"
  | .identifier _ => v.fail "Unexpected identifier"
  | .colon => v.fail "Unexpected token ':'"
  | .rParen => v.fail "Unexpected token ')'"
  | .comma => v.fail "Unexpected token ','"
  | .true => v.fail "Unexpected token 'true'"
  | .false => v.fail "Unexpected token 'false'"
  | .null => v.fail "Unexpected token 'null'"
  | .end => v.fail "Unexpected EOF"
  | .dot => v.fail "Unexpected token '.'"
  | .assign => v.fail "Unexpected token '='"
  | .semi => v.fail "Unexpected token ';'"
  | .error => v.fail "Could not parse statement"

def startParseStatementEndStatement : ParserStep ν :=
  if v.lexer.currentToken.type ≠ .rParen then v.fail ""
  else
    let (type, lexer) := v.lexer.next d mode
    if type = .end then .inr (some ⟨v.lastValue, "", lexer⟩)
    else fail { v with lexer := lexer } "Unexpected content at end of JSON literal"

def doParseArrayStartExpression : ParserStep ν :=
  let lastToken := v.lexer.currentToken.type
  let (type, lexer) := v.lexer.next d mode
  let v := { v with lexer := lexer }
  if type = .rBracket then
    if lastToken = .comma then v.fail "Unexpected comma at the end of array expression"
    else v.closeObject d mode
  else v.pushExpression .doParseArrayEndExpression

/-- `array->putDirectIndex(m_exec, array->length(), lastValue);` -/
def appendElement : Option (ParserVariables ν) :=
  match v.objectStack, v.lastValue with
  | .array elements :: objectStack, some value =>
    some { v with objectStack := .array (elements ++ [value]) :: objectStack }
  | _, _ => none

def doParseArrayEndExpression : ParserStep ν :=
  match v.appendElement with
  | none => .inr none
  | some v =>
    if v.lexer.currentToken.type = .comma then .inl (.doParseArrayStartExpression, v)
    else if v.lexer.currentToken.type ≠ .rBracket then v.fail "Expected ']'"
    else v.closeObject d mode

def startParseObject : ParserStep ν :=
  let (type, lexer) := v.lexer.next d mode
  let v := { v with lexer := lexer, objectStack := .object [] :: v.objectStack }
  match memberKey mode lexer.currentToken with
  | some key => v.member d mode key "Expected ':' before value in object property definition"
  | none => if type ≠ .rBrace then v.fail "Expected '\x7d'" else v.closeObject d mode

def doParseObjectStartExpression : ParserStep ν :=
  let lexer := (v.lexer.next d mode).2
  let v := { v with lexer := lexer }
  match memberKey mode lexer.currentToken with
  | some key => v.member d mode key "Expected ':'"
  | none => v.fail "Property name must be a string literal"

/-- Puts the last value under the last key, which is then done with. -/
def putProperty : Option (ParserVariables ν) :=
  match v.objectStack, v.identifierStack, v.lastValue with
  | .object members :: objectStack, key :: identifierStack, some value =>
    some
      { v with
        objectStack := .object (putMember members key value) :: objectStack
        identifierStack := identifierStack }
  | _, _, _ => none

def doParseObjectEndExpression : ParserStep ν :=
  match v.putProperty with
  | none => .inr none
  | some v =>
    if v.lexer.currentToken.type = .comma then .inl (.doParseObjectStartExpression, v)
    else if v.lexer.currentToken.type ≠ .rBrace then v.fail "Expected '\x7d'"
    else v.closeObject d mode

/-- One label of the `switch`. -/
def step : ParserState × ParserVariables ν → ParserStep ν
  | (.startParseArray, v) =>
    .inl (.doParseArrayStartExpression, { v with objectStack := .array [] :: v.objectStack })
  | (.doParseArrayStartExpression, v) => v.doParseArrayStartExpression d mode
  | (.doParseArrayEndExpression, v) => v.doParseArrayEndExpression d mode
  | (.startParseObject, v) => v.startParseObject d mode
  | (.doParseObjectStartExpression, v) => v.doParseObjectStartExpression d mode
  | (.doParseObjectEndExpression, v) => v.doParseObjectEndExpression d mode
  | (.startParseExpression, v) => v.startParseExpression d mode
  | (.startParseStatement, v) => v.startParseStatement d mode
  | (.startParseStatementEndStatement, v) => v.startParseStatementEndStatement d mode

end ParserVariables

/-- Every round reads a token or goes to a label from which one is read. -/
def parse (d : Doubles ν) (mode : ParserMode) (initialState : ParserState) (lexer : Lexer ν) :
    Option (ParseEnd ν) :=
  (loop (ParserVariables.step d mode) (4 * lexer.ptr.length + 8)
    (initialState, ⟨lexer, [], none, [], []⟩)).join

/-- The lexer at the start of a text. -/
def Lexer.start (characters : UString) : Lexer ν := ⟨characters, .end, ""⟩

def tryLiteralParse (d : Doubles ν) (mode : ParserMode) (characters : UString) :
    Option (ParseEnd ν) := do
  let lexer := ((Lexer.start characters : Lexer ν).next d mode).2
  let result ← parse d mode
    (if mode = .strictJSON then .startParseExpression else .startParseStatement) lexer
  let lexer :=
    if result.lexer.currentToken.type = .semi then (result.lexer.next d mode).2 else result.lexer
  if lexer.currentToken.type ≠ .end then return { result with value := none, lexer := lexer }
  else return { result with lexer := lexer }

/-! ### JSONP -/

inductive JSONPPathEntry where
  /-- `var pathEntryName = JSON` -/
  | declare (pathEntryName : UString)
  /-- `<prior entries>.pathEntryName = JSON` -/
  | dot (pathEntryName : UString)
  /-- `<prior entries>[pathIndex] = JSON` -/
  | lookup (pathIndex : ℤ)
  /-- `<prior entries>(JSON)` -/
  | call (pathEntryName : UString)
  deriving DecidableEq

structure JSONPData (ν : Type) where
  path : List JSONPPathEntry
  value : JSONValue ν

section
variable (d : Doubles ν) (isKeyword : UString → Bool) (needsFullSourceInfo : Bool)

/-- The text of an identifier token. -/
def identifierText : Token ν → UString
  | .identifier s => s
  | _ => []

/-- The first entry of a path, at its identifier: the path, the type that `next()` returned after it,
and the lexer. -/
def pathStart (l : Lexer ν) : Option (JSONPPathEntry × TokenType × Lexer ν) :=
  let name := identifierText l.currentToken
  if name = [ch 'v', ch 'a', ch 'r'] then
    let (type, l) := l.next d .jsonp
    if type ≠ .identifier then none
    else
      let name := identifierText l.currentToken
      let (type, l) := l.next d .jsonp
      if isKeyword name ∨ type ≠ .assign then none else some (.declare name, type, l)
  else if isKeyword name then none
  else
    let (type, l) := l.next d .jsonp
    some (.dot name, type, l)

/-- `[pathIndex]`, after the bracket. -/
def pathLookup (l : Lexer ν) : Option (JSONPPathEntry × Lexer ν) :=
  let (type, l) := l.next d .jsonp
  match type, l.currentToken with
  | .number, .number x => do
    let index ← d.toInt? x
    if index < 0 then none
    else
      let (type, l) := l.next d .jsonp
      if type ≠ .rBracket then none else some (.lookup index, l)
  | _, _ => none

/-- `.pathEntryName`, after the dot. -/
def pathDot (l : Lexer ν) : Option (JSONPPathEntry × Lexer ν) :=
  let (type, l) := l.next d .jsonp
  if type ≠ .identifier then none else some (.dot (identifierText l.currentToken), l)

/-- The path up to its `=` or `(`, from the type that `next()` returned. -/
def pathFrom : ℕ → List JSONPPathEntry → TokenType → Lexer ν → Option (List JSONPPathEntry × Lexer ν)
  | 0, _, _, _ => none
  | fuel + 1, path, type, l =>
    match type with
    | .assign => some (path, l)
    | .lBracket => do
      let (entry, l) ← pathLookup d l
      let (type, l) := l.next d .jsonp
      pathFrom fuel (path ++ [entry]) type l
    | .dot => do
      let (entry, l) ← pathDot d l
      let (type, l) := l.next d .jsonp
      pathFrom fuel (path ++ [entry]) type l
    | .lParen =>
      match path.getLast? with
      | some (.dot name) =>
        if needsFullSourceInfo then none else some (path.dropLast ++ [.call name], l)
      | _ => none
    | _ => none

/-- One round of the loop: a statement up to its `;`. -/
def jsonpStatement (l : Lexer ν) : Option (JSONPData ν × Lexer ν) := do
  let (entry, type, l) ← pathStart d isKeyword l
  let (path, l) ← pathFrom d needsFullSourceInfo (l.ptr.length + 1) [entry] type l
  let result ← parse d .jsonp .startParseExpression (l.next d .jsonp).2
  let value ← result.value
  match path.getLast? with
  | some (.call _) =>
    if result.lexer.currentToken.type ≠ .rParen then none
    else return (⟨path, value⟩, (result.lexer.next d .jsonp).2)
  | _ => return (⟨path, value⟩, result.lexer)

def jsonpFrom : ℕ → List (JSONPData ν) → Lexer ν → Option (List (JSONPData ν))
  | 0, _, _ => none
  | fuel + 1, results, l => do
    let (data, l) ← jsonpStatement d isKeyword needsFullSourceInfo l
    let results := results ++ [data]
    let l' := if l.currentToken.type = .semi then (l.next d .jsonp).2 else l
    if l.currentToken.type = .semi ∧ l'.currentToken.type = .identifier then
      jsonpFrom fuel results l'
    else if l'.currentToken.type = .end then some results
    else none

/-- The results if the script is read, `none` if it is not. -/
def tryJSONPParse (characters : UString) : Option (List (JSONPData ν)) :=
  let (type, l) := (Lexer.start characters : Lexer ν).next d .jsonp
  if type ≠ .identifier then none
  else jsonpFrom d isKeyword needsFullSourceInfo (characters.length + 1) [] l

end

end QPlusWeb.JSC
