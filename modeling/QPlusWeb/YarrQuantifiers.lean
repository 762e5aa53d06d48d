import QPlusWeb.YarrCharacters
import Mathlib.Data.List.Infix
import Mathlib.Tactic.Linarith

/-!
# Quantifiers of regular expressions

Yarr's parser: the loop over the tokens of a pattern with its escapes, character classes, parentheses
and quantifiers, and the calls that it makes to its delegate.  A text is the list of the characters that
are left, and characters are numbers.  Every quantifier in braces that is reported has the bounds of the
text exactly if the numbers in the text are below `2 ^ 32`.
-/

namespace QPlusWeb.Yarr

open List

inductive ErrorCode
  | patternTooLarge | quantifierOutOfOrder | quantifierWithoutAtom | quantifierTooLarge
  | missingParentheses | parenthesesUnmatched | parenthesesTypeInvalid | characterClassUnmatched
  | characterClassOutOfOrder | escapeUnterminated
  deriving DecidableEq

inductive BuiltInCharacterClassID
  | DigitClassID | SpaceClassID | WordClassID | NewlineClassID
  deriving DecidableEq

/-- The calls of the delegate for tokens that are not quantifiers. -/
inductive TokenCall
  | disjunction
  | assertionBOL
  | assertionEOL
  | assertionWordBoundary (invert : Bool)
  | atomPatternCharacter (ch : ℕ)
  | atomBuiltInCharacterClass (classID : BuiltInCharacterClassID) (invert : Bool)
  | atomCharacterClassBegin (invert : Bool)
  | atomCharacterClassAtom (ch : ℕ)
  | atomCharacterClassRange (first last : ℕ)
  | atomCharacterClassBuiltIn (classID : BuiltInCharacterClassID) (invert : Bool)
  | atomCharacterClassEnd
  | atomParenthesesSubpatternBegin (capture : Bool)
  | atomParentheticalAssertionBegin (invert : Bool)
  | atomParenthesesEnd
  | atomBackReference (subpatternId : ℕ)
  deriving DecidableEq

/-- A quantifier is recorded with the text that it starts. -/
inductive DelegateCall
  | quantifyAtom (text : List ℕ) (min max : ℕ) (greedy : Bool)
  | token (call : TokenCall)
  deriving DecidableEq

def uchar (c : Char) : ℕ := c.toNat

def quantifyInfinite : ℕ := 2 ^ 32 - 1

def isASCIIDigit (c : ℕ) : Bool := uchar '0' ≤ c && c ≤ uchar '9'

def isASCIIOctalDigit (c : ℕ) : Bool := uchar '0' ≤ c && c ≤ uchar '7'

/-- The value of a hexadecimal digit. -/
def toASCIIHexValue (c : ℕ) : Option ℕ :=
  if isASCIIDigit c then some (c - uchar '0')
  else if uchar 'a' ≤ c ∧ c ≤ uchar 'f' then some (c - uchar 'a' + 10)
  else if uchar 'A' ≤ c ∧ c ≤ uchar 'F' then some (c - uchar 'A' + 10)
  else none

def peekIsDigit (text : List ℕ) : Bool := text.head?.any isASCIIDigit

/-- The text behind the character, if it is the next one. -/
def tryConsume (c : Char) (text : List ℕ) : Option (List ℕ) :=
  if text.head? = some (uchar c) then some text.tail else none

/-- The loop of `consumeNumber`. -/
def consumeDigits (n : ℕ) : List ℕ → ℕ × List ℕ
  | [] => (n, [])
  | c :: rest =>
    let newValue := (n * 10 + (c - uchar '0')) % 2 ^ 32
    if isASCIIDigit c ∧ newValue ≥ n then consumeDigits newValue rest else (n, c :: rest)

def consumeNumber : List ℕ → ℕ × List ℕ
  | [] => (0, [])
  | c :: rest => consumeDigits (c - uchar '0') rest

/-- The loop of `consumeOctal`. -/
def consumeOctalDigits (n : ℕ) : List ℕ → ℕ × List ℕ
  | [] => (n, [])
  | c :: rest =>
    if n < 32 ∧ isASCIIOctalDigit c then consumeOctalDigits (n * 8 + (c - uchar '0')) rest
    else (n, c :: rest)

/-- `count` hexadecimal digits behind a number. -/
def tryConsumeHex (n : ℕ) : ℕ → List ℕ → Option (ℕ × List ℕ)
  | 0, text => some (n, text)
  | _ + 1, [] => none
  | count + 1, c :: text => do tryConsumeHex (n * 16 + (← toASCIIHexValue c)) count text

/-! ### Escapes and character classes -/

def characterClassEscape (c : ℕ) : Option (BuiltInCharacterClassID × Bool) :=
  if c = uchar 'd' then some (.DigitClassID, false)
  else if c = uchar 's' then some (.SpaceClassID, false)
  else if c = uchar 'w' then some (.WordClassID, false)
  else if c = uchar 'D' then some (.DigitClassID, true)
  else if c = uchar 'S' then some (.SpaceClassID, true)
  else if c = uchar 'W' then some (.WordClassID, true)
  else none

def controlEscape (c : ℕ) : Option ℕ :=
  if c = uchar 'f' then some 0x0C
  else if c = uchar 'n' then some 0x0A
  else if c = uchar 'r' then some 0x0D
  else if c = uchar 't' then some 0x09
  else if c = uchar 'v' then some 0x0B
  else none

section
variable (inCharacterClass : Bool) (backReferenceLimit : ℕ)

/-- A back-reference, or else an octal number.  A digit above 7 is left in the text. -/
def parseDecimalEscape (c : ℕ) (rest : List ℕ) : TokenCall × List ℕ :=
  let number := consumeNumber (c :: rest)
  if c ≠ uchar '0' ∧ inCharacterClass = false ∧ number.1 ≤ backReferenceLimit then
    (.atomBackReference number.1, number.2)
  else if c ≥ uchar '8' then (.atomPatternCharacter (uchar '\\'), c :: rest)
  else
    let octal := consumeOctalDigits (c - uchar '0') rest
    (.atomPatternCharacter octal.1, octal.2)

/-- A letter behind `\c`; without one the backslash stands for itself, and the `c` is left. -/
def parseControlLetter (c : ℕ) : List ℕ → TokenCall × List ℕ
  | [] => (.atomPatternCharacter (uchar '\\'), [c])
  | control :: rest =>
    if isASCIIAlpha control ∨
        inCharacterClass = true ∧ (isASCIIDigit control ∨ control = uchar '_') then
      (.atomPatternCharacter (control % 32), rest)
    else (.atomPatternCharacter (uchar '\\'), c :: control :: rest)

/-- `count` digits behind `\x` or `\u`; without them the letter stands for itself. -/
def parseHexEscape (count c : ℕ) (rest : List ℕ) : TokenCall × List ℕ :=
  match tryConsumeHex 0 count rest with
  | some (x, rest) => (.atomPatternCharacter x, rest)
  | none => (.atomPatternCharacter c, rest)

/-- The escape in the text behind a backslash. -/
def parseEscape : List ℕ → Option (TokenCall × List ℕ)
  | [] => none
  | c :: rest =>
    some <|
      if c = uchar 'b' then
        (if inCharacterClass then .atomPatternCharacter 8 else .assertionWordBoundary false, rest)
      else if c = uchar 'B' then
        (if inCharacterClass then .atomPatternCharacter c else .assertionWordBoundary true, rest)
      else if isASCIIDigit c then parseDecimalEscape inCharacterClass backReferenceLimit c rest
      else if c = uchar 'c' then parseControlLetter inCharacterClass c rest
      else if c = uchar 'x' then parseHexEscape 2 c rest
      else if c = uchar 'u' then parseHexEscape 4 c rest
      else
        match characterClassEscape c with
        | some (classID, invert) => (.atomBuiltInCharacterClass classID invert, rest)
        | none => (.atomPatternCharacter ((controlEscape c).getD c), rest)

end

/-- What has been read of a token: the calls, the text behind it, an error, and whether it is an
atom. -/
structure Token where
  calls : List TokenCall
  rest : List ℕ
  err : Option ErrorCode
  isAtom : Bool

def parseAtomEscape (backReferenceLimit : ℕ) (rest : List ℕ) : Token :=
  match parseEscape false backReferenceLimit rest with
  | none => ⟨[], rest, some .escapeUnterminated, false⟩
  | some (.assertionWordBoundary invert, rest) =>
    ⟨[.assertionWordBoundary invert], rest, none, false⟩
  | some (call, rest) => ⟨[call], rest, none, true⟩

inductive CharacterClassConstructionState
  | Empty | CachedCharacter | CachedCharacterHyphen | AfterCharacterClass | AfterCharacterClassHyphen
  deriving DecidableEq

structure CharacterClassParserDelegate where
  calls : List TokenCall
  err : Option ErrorCode
  state : CharacterClassConstructionState
  character : ℕ

namespace CharacterClassParserDelegate
variable (d : CharacterClassParserDelegate)

def atomPatternCharacter (ch : ℕ) (hyphenIsRange : Bool) : CharacterClassParserDelegate :=
  let isRange := hyphenIsRange ∧ ch = uchar '-'
  match d.state with
  | .Empty => { d with character := ch, state := .CachedCharacter }
  | .AfterCharacterClass =>
    if isRange then
      { d with calls := d.calls ++ [.atomCharacterClassAtom (uchar '-')]
               state := .AfterCharacterClassHyphen }
    else { d with character := ch, state := .CachedCharacter }
  | .CachedCharacter =>
    if isRange then { d with state := .CachedCharacterHyphen }
    else { d with calls := d.calls ++ [.atomCharacterClassAtom d.character], character := ch }
  | .CachedCharacterHyphen =>
    if ch < d.character then { d with err := some .characterClassOutOfOrder }
    else { d with calls := d.calls ++ [.atomCharacterClassRange d.character ch], state := .Empty }
  | .AfterCharacterClassHyphen =>
    { d with calls := d.calls ++ [.atomCharacterClassAtom ch], state := .Empty }

/-- The characters that have been kept back. -/
def cached : List TokenCall :=
  match d.state with
  | .CachedCharacter => [.atomCharacterClassAtom d.character]
  | .CachedCharacterHyphen =>
    [.atomCharacterClassAtom d.character, .atomCharacterClassAtom (uchar '-')]
  | _ => []

def atomBuiltInCharacterClass (classID : BuiltInCharacterClassID) (invert : Bool) :
    CharacterClassParserDelegate :=
  { d with
    calls := d.calls ++ d.cached ++ [.atomCharacterClassBuiltIn classID invert]
    state :=
      match d.state with
      | .CachedCharacterHyphen | .AfterCharacterClassHyphen => .Empty
      | _ => .AfterCharacterClass }

/-- The calls of an escape; in a class there are no assertions and no back-references. -/
def escape : TokenCall → CharacterClassParserDelegate
  | .atomPatternCharacter ch => d.atomPatternCharacter ch false
  | .atomBuiltInCharacterClass classID invert => d.atomBuiltInCharacterClass classID invert
  | _ => d

/-- A round of the loop of `parseCharacterClass`, for a character that does not end the class. -/
def step (backReferenceLimit c : ℕ) (rest : List ℕ) : CharacterClassParserDelegate × List ℕ :=
  if c = uchar '\\' then
    match parseEscape true backReferenceLimit rest with
    | none => ({ d with err := some .escapeUnterminated }, rest)
    | some (call, rest) => (d.escape call, rest)
  else (d.atomPatternCharacter c true, rest)

end CharacterClassParserDelegate

section Suffixes
variable {text rest : List ℕ}

theorem tryConsume_eq_some {c : Char} (h : tryConsume c text = some rest) :
    text = uchar c :: rest := by
  unfold tryConsume at h
  split at h
  next hh =>
    cases h
    exact eq_cons_of_mem_head? hh
  next => cases h

theorem consumeDigits_suffix (n : ℕ) (text : List ℕ) : (consumeDigits n text).2 <:+ text := by
  fun_induction consumeDigits n text with
  | case1 n => exact suffix_rfl
  | case2 n c rest newValue hn ih => exact ih.trans (suffix_cons ..)
  | case3 n c rest newValue hn => exact suffix_rfl

theorem consumeOctalDigits_suffix (n : ℕ) (text : List ℕ) :
    (consumeOctalDigits n text).2 <:+ text := by
  fun_induction consumeOctalDigits n text with
  | case1 n => exact suffix_rfl
  | case2 n c rest hn ih => exact ih.trans (suffix_cons ..)
  | case3 n c rest hn => exact suffix_rfl

theorem tryConsumeHex_suffix {n count x : ℕ} (h : tryConsumeHex n count text = some (x, rest)) :
    rest <:+ text := by
  induction count generalizing n text with
  | zero =>
    cases h
    exact suffix_rfl
  | succ count ih =>
    cases text with
    | nil => cases h
    | cons c text =>
      obtain ⟨value, -, h⟩ := Option.bind_eq_some_iff.mp h
      exact (ih h).trans (suffix_cons ..)

theorem parseDecimalEscape_suffix (inCharacterClass : Bool) (limit c : ℕ) (rest : List ℕ) :
    (parseDecimalEscape inCharacterClass limit c rest).2 <:+ c :: rest := by
  simp only [parseDecimalEscape]
  split
  · exact (consumeDigits_suffix _ rest).trans (suffix_cons ..)
  split
  · exact suffix_rfl
  · exact (consumeOctalDigits_suffix _ rest).trans (suffix_cons ..)

theorem parseControlLetter_suffix (inCharacterClass : Bool) (c : ℕ) (rest : List ℕ) :
    (parseControlLetter inCharacterClass c rest).2 <:+ c :: rest := by
  cases rest with
  | nil => exact suffix_rfl
  | cons control rest =>
    simp only [parseControlLetter]
    split
    · exact (suffix_cons ..).trans (suffix_cons ..)
    · exact suffix_rfl

theorem parseHexEscape_suffix (count c : ℕ) (rest : List ℕ) :
    (parseHexEscape count c rest).2 <:+ c :: rest := by
  unfold parseHexEscape
  split
  next h => exact (tryConsumeHex_suffix h).trans (suffix_cons ..)
  next => exact suffix_cons ..

theorem parseEscape_suffix {inCharacterClass : Bool} {limit : ℕ} {call : TokenCall}
    (h : parseEscape inCharacterClass limit text = some (call, rest)) : rest <:+ text := by
  cases text with
  | nil => cases h
  | cons c text =>
    have hrest := congrArg Prod.snd (Option.some.inj h)
    simp only at hrest
    subst hrest
    split
    · exact suffix_cons ..
    split
    · exact suffix_cons ..
    split
    · exact parseDecimalEscape_suffix _ _ c text
    split
    · exact parseControlLetter_suffix _ c text
    split
    · exact parseHexEscape_suffix 2 c text
    split
    · exact parseHexEscape_suffix 4 c text
    split <;> exact suffix_cons ..

theorem parseAtomEscape_suffix (limit : ℕ) (rest : List ℕ) :
    (parseAtomEscape limit rest).rest <:+ rest := by
  unfold parseAtomEscape
  split
  next => exact suffix_rfl
  next h => exact parseEscape_suffix h
  next h => exact parseEscape_suffix h

theorem CharacterClassParserDelegate.step_suffix (d : CharacterClassParserDelegate) (limit c : ℕ)
    (rest : List ℕ) : (d.step limit c rest).2 <:+ rest := by
  unfold step
  split
  · split
    next => exact suffix_rfl
    next h => exact parseEscape_suffix h
  · exact suffix_rfl

end Suffixes

/-- The loop of `parseCharacterClass`. -/
def characterClassLoop (limit : ℕ) (d : CharacterClassParserDelegate) : List ℕ → Token
  | [] => ⟨d.calls, [], some .characterClassUnmatched, true⟩
  | c :: rest =>
    if c = uchar ']' then ⟨d.calls ++ d.cached ++ [.atomCharacterClassEnd], rest, none, true⟩
    else
      let next := d.step limit c rest
      if next.1.err.isSome then ⟨next.1.calls, next.2, next.1.err, true⟩
      else characterClassLoop limit next.1 next.2
termination_by text => text.length
decreasing_by
  exact Nat.lt_succ_of_le (d.step_suffix limit c rest).length_le

def parseCharacterClass (limit : ℕ) (rest : List ℕ) : Token :=
  match tryConsume '^' rest with
  | some rest => characterClassLoop limit ⟨[.atomCharacterClassBegin true], none, .Empty, 0⟩ rest
  | none => characterClassLoop limit ⟨[.atomCharacterClassBegin false], none, .Empty, 0⟩ rest

theorem characterClassLoop_suffix (limit : ℕ) (d : CharacterClassParserDelegate) (text : List ℕ) :
    (characterClassLoop limit d text).rest <:+ text := by
  fun_induction characterClassLoop limit d text with
  | case1 d => exact suffix_rfl
  | case2 d rest => exact suffix_cons ..
  | case3 d c rest hc next herr => exact (d.step_suffix limit c rest).trans (suffix_cons ..)
  | case4 d c rest hc next herr ih =>
    exact ih.trans ((d.step_suffix limit c rest).trans (suffix_cons ..))

theorem parseCharacterClass_suffix (limit : ℕ) (rest : List ℕ) :
    (parseCharacterClass limit rest).rest <:+ rest := by
  unfold parseCharacterClass
  split
  next rest' h =>
    rw [tryConsume_eq_some h]
    exact (characterClassLoop_suffix ..).trans (suffix_cons ..)
  next => exact characterClassLoop_suffix ..

/-! ### The loop over the tokens -/

structure ParserState where
  rest : List ℕ
  calls : List DelegateCall
  err : Option ErrorCode
  parenthesesNestingDepth : UInt32
  lastTokenWasAnAtom : Bool

/-- The upper bound behind the lower one. -/
def consumeMax (min : ℕ) (text : List ℕ) : ℕ × List ℕ :=
  match tryConsume ',' text with
  | some text => if peekIsDigit text then consumeNumber text else (quantifyInfinite, text)
  | none => (min, text)

/-- The bounds behind `{` and the text behind `}`, if the quantifier is complete. -/
def consumeBounds (text : List ℕ) : Option (ℕ × ℕ × List ℕ) :=
  if peekIsDigit text then
    let min := consumeNumber text
    let max := consumeMax min.1 min.2
    (tryConsume '}' max.2).map fun rest => (min.1, max.1, rest)
  else none

namespace ParserState
variable (s : ParserState)

def take (token : Token) : ParserState :=
  { s with
    rest := token.rest
    calls := s.calls ++ token.calls.map .token
    err := token.err
    lastTokenWasAnAtom := token.isAtom }

def fail (rest : List ℕ) (err : ErrorCode) : ParserState := s.take ⟨[], rest, some err, false⟩

def nest (token : Token) : ParserState :=
  { s.take token with parenthesesNestingDepth := s.parenthesesNestingDepth + 1 }

/-- A pattern that ends behind `(?` is refused before the depth is counted. -/
def parseParenthesesBegin (rest : List ℕ) : ParserState :=
  match tryConsume '?' rest with
  | none => s.nest ⟨[.atomParenthesesSubpatternBegin true], rest, none, false⟩
  | some [] => s.fail [] .parenthesesTypeInvalid
  | some (c :: rest) =>
    if c = uchar ':' then s.nest ⟨[.atomParenthesesSubpatternBegin false], rest, none, false⟩
    else if c = uchar '=' then
      s.nest ⟨[.atomParentheticalAssertionBegin false], rest, none, false⟩
    else if c = uchar '!' then
      s.nest ⟨[.atomParentheticalAssertionBegin true], rest, none, false⟩
    else s.nest ⟨[], rest, some .parenthesesTypeInvalid, false⟩

def parseParenthesesEnd (rest : List ℕ) : ParserState :=
  let token : Token :=
    if s.parenthesesNestingDepth > 0 then ⟨[.atomParenthesesEnd], rest, none, true⟩
    else ⟨[], rest, some .parenthesesUnmatched, true⟩
  { s.take token with parenthesesNestingDepth := s.parenthesesNestingDepth - 1 }

def quantify (min max : ℕ) (greedy : Bool) (rest : List ℕ) : ParserState :=
  { s with
    rest := rest
    calls := s.calls ++ [.quantifyAtom s.rest min max greedy]
    lastTokenWasAnAtom := false }

def parseQuantifier (min max : ℕ) (rest : List ℕ) : ParserState :=
  if min = quantifyInfinite then s.fail rest .quantifierTooLarge
  else if s.lastTokenWasAnAtom then
    match tryConsume '?' rest with
    | some rest => s.quantify min max false rest
    | none => s.quantify min max true rest
  else s.fail rest .quantifierWithoutAtom

/-- A round of the loop of `parseTokens`. -/
def parseToken (backReferenceLimit : ℕ) : ParserState :=
  match s.rest with
  | [] => s
  | c :: rest =>
    if c = uchar '|' then s.take ⟨[.disjunction], rest, none, false⟩
    else if c = uchar '(' then s.parseParenthesesBegin rest
    else if c = uchar ')' then s.parseParenthesesEnd rest
    else if c = uchar '^' then s.take ⟨[.assertionBOL], rest, none, false⟩
    else if c = uchar '$' then s.take ⟨[.assertionEOL], rest, none, false⟩
    else if c = uchar '.' then
      s.take ⟨[.atomBuiltInCharacterClass .NewlineClassID true], rest, none, true⟩
    else if c = uchar '[' then s.take (parseCharacterClass backReferenceLimit rest)
    else if c = uchar '\\' then s.take (parseAtomEscape backReferenceLimit rest)
    else if c = uchar '*' then s.parseQuantifier 0 quantifyInfinite rest
    else if c = uchar '+' then s.parseQuantifier 1 quantifyInfinite rest
    else if c = uchar '?' then s.parseQuantifier 0 1 rest
    else
      match if c = uchar '\x7b' then consumeBounds rest else none with
      | some (min, max, rest) =>
        if min ≤ max then s.parseQuantifier min max rest else s.fail rest .quantifierOutOfOrder
      | none => s.take ⟨[.atomPatternCharacter c], rest, none, true⟩

end ParserState

/-! ### The numbers of the text -/

/-- The value of more digits behind a number. -/
def decimalValue (n : ℕ) (digits : List ℕ) : ℕ :=
  digits.foldl (fun n c => n * 10 + (c - uchar '0')) n

def IsNumber (digits : List ℕ) : Prop := digits ≠ [] ∧ ∀ c ∈ digits, isASCIIDigit c = true

/-- The text behind `{` is `n}`, or `n,}` or `n,m}` with the digits `m` as the upper bound, and then
`rest`. -/
structure Written (text n : List ℕ) (upper : Option (List ℕ)) (rest : List ℕ) : Prop where
  lower_isNumber : IsNumber n
  upper_digits : ∀ m ∈ upper, ∀ c ∈ m, isASCIIDigit c = true
  text_eq : text = n ++ (upper.elim [] (uchar ',' :: ·) ++ uchar '}' :: rest)

/-- The upper bound that is written. -/
def upperValue (min : ℕ) : Option (List ℕ) → ℕ
  | none => min
  | some [] => quantifyInfinite
  | some (c :: m) => decimalValue 0 (c :: m)

/-- Bounds are written behind `{`, and `min` and `max` are these if and only if they are below
`2 ^ 32`. -/
def BoundsExact (text : List ℕ) (min max : ℕ) (rest : List ℕ) : Prop :=
  ∃ n upper, Written text n upper rest ∧
    (min = decimalValue 0 n ∧ max = upperValue (decimalValue 0 n) upper ↔
      decimalValue 0 n < 2 ^ 32 ∧ ∀ m ∈ upper, decimalValue 0 m < 2 ^ 32)

section Numbers
variable {text rest : List ℕ} {min max : ℕ}

theorem le_decimalValue (n : ℕ) (digits : List ℕ) : n ≤ decimalValue n digits := by
  induction digits generalizing n with
  | nil => exact le_rfl
  | cons c digits ih => exact le_trans (by omega) (ih (n * 10 + (c - uchar '0')))

theorem consumeDigits_lt {n : ℕ} (h : n < 2 ^ 32) (text : List ℕ) :
    (consumeDigits n text).1 < 2 ^ 32 := by
  fun_induction consumeDigits n text with
  | case1 n => exact h
  | case2 n c rest newValue hn ih => exact ih (Nat.mod_lt _ (by decide))
  | case3 n c rest newValue hn => exact h

/-- The digits that are consumed; the number is theirs if it does not wrap around. -/
theorem consumeDigits_spec (n : ℕ) (text : List ℕ) :
    ∃ digits, (∀ c ∈ digits, isASCIIDigit c = true) ∧ text = digits ++ (consumeDigits n text).2 ∧
      (decimalValue n digits < 2 ^ 32 → (consumeDigits n text).1 = decimalValue n digits) := by
  fun_induction consumeDigits n text with
  | case1 n => exact ⟨[], nofun, rfl, fun _ => rfl⟩
  | case2 n c rest newValue hn ih =>
    obtain ⟨digits, hd, hr, hv⟩ := ih
    refine ⟨c :: digits, forall_mem_cons.mpr ⟨hn.1, hd⟩, congrArg (c :: ·) hr, fun hlt => ?_⟩
    have hle : n * 10 + (c - uchar '0') ≤ decimalValue n (c :: digits) := le_decimalValue _ digits
    have hnew : newValue = n * 10 + (c - uchar '0') := Nat.mod_eq_of_lt (by omega)
    rw [hnew] at hv ⊢
    exact hv hlt
  | case3 n c rest newValue hs => exact ⟨[], nofun, rfl, fun _ => rfl⟩

theorem consumeNumber_spec (h : peekIsDigit text = true) :
    ∃ digits, IsNumber digits ∧ text = digits ++ (consumeNumber text).2 ∧
      ((consumeNumber text).1 = decimalValue 0 digits ↔ decimalValue 0 digits < 2 ^ 32) := by
  match text with
  | [] => cases h
  | c :: text =>
    have hc : c - uchar '0' < 2 ^ 32 := by
      have hd : (uchar '0' ≤ c && c ≤ uchar '9') = true := h
      have hle : c ≤ 57 := of_decide_eq_true (Bool.and_eq_true_iff.mp hd).2
      omega
    obtain ⟨digits, hd, ht, hv⟩ := consumeDigits_spec (c - uchar '0') text
    have hf : decimalValue 0 (c :: digits) = decimalValue (c - uchar '0') digits := by
      simp [decimalValue]
    refine ⟨c :: digits, ⟨cons_ne_nil _ _, forall_mem_cons.mpr ⟨h, hd⟩⟩, congrArg (c :: ·) ht, ?_⟩
    rw [hf]
    exact ⟨fun heq => heq ▸ consumeDigits_lt hc text, hv⟩

theorem consumeBounds_spec (h : consumeBounds text = some (min, max, rest)) :
    BoundsExact text min max rest := by
  unfold consumeBounds at h
  split at h
  next hdigit =>
    obtain ⟨rest, hclose, heq⟩ := Option.map_eq_some_iff.mp h
    cases heq
    obtain ⟨n, hn, htext, hvalue⟩ := consumeNumber_spec hdigit
    generalize consumeNumber text = r at *
    subst htext
    replace hclose := tryConsume_eq_some hclose
    unfold consumeMax at hclose ⊢
    split at hclose
    next text hcomma =>
      have hr := tryConsume_eq_some hcomma
      split at hclose
      next hdigit =>
        obtain ⟨m, hm, htext, hvalue'⟩ := consumeNumber_spec hdigit
        rw [hclose] at htext
        obtain ⟨c, m, rfl⟩ := exists_cons_of_ne_nil hm.1
        refine ⟨n, some (c :: m), ⟨hn, ?_, ?_⟩, ?_⟩
        · rintro _ ⟨⟩
          exact hm.2
        · rw [hr, htext]
          rfl
        · simpa [hcomma, hdigit, upperValue] using and_congr hvalue hvalue'
      next hdigit =>
        refine ⟨n, some [], ⟨hn, ?_, ?_⟩, ?_⟩
        · rintro _ ⟨⟩
          exact nofun
        · rw [hr, show text = _ from hclose]
          rfl
        · simpa [hcomma, hdigit, upperValue, decimalValue] using hvalue
    next hcomma =>
      refine ⟨n, none, ⟨hn, nofun, by rw [hclose]; rfl⟩, ?_⟩
      simpa [hcomma, upperValue] using hvalue
  next => cases h

theorem BoundsExact.suffix (h : BoundsExact text min max rest) : rest <:+ text := by
  obtain ⟨n, upper, hw, -⟩ := h
  rw [hw.text_eq]
  exact ((suffix_cons ..).trans (suffix_append ..)).trans (suffix_append ..)

end Numbers

namespace ParserState
variable {s s' : ParserState} {token : Token} {rest : List ℕ} {min max : ℕ}

/-- A text that starts with `{` has the bounds exactly if they are small. -/
def Quantifies (text : List ℕ) (min max : ℕ) : Prop :=
  ∀ text', text = uchar '{' :: text' → ∃ rest, BoundsExact text' min max rest

/-- What a round does: it consumes something, and reports only the quantifier that the text starts
with. -/
structure Advances (s s' : ParserState) : Prop where
  suffix : s'.rest <:+ s.rest.tail
  calls : ∀ text min max greedy, .quantifyAtom text min max greedy ∈ s'.calls →
    .quantifyAtom text min max greedy ∈ s.calls ∨ text = s.rest ∧ Quantifies text min max

theorem advances_take (h : token.rest <:+ s.rest.tail) : s.Advances (s.take token) where
  suffix := h
  calls := by
    intro text min max greedy hm
    exact .inl (by simpa [take] using hm)

theorem advances_fail (h : rest <:+ s.rest.tail) (err : ErrorCode) :
    s.Advances (s.fail rest err) :=
  @advances_take s ⟨[], rest, some err, false⟩ h

theorem Advances.withDepth (h : s.Advances s') (depth : UInt32) :
    s.Advances { s' with parenthesesNestingDepth := depth } :=
  ⟨h.suffix, h.calls⟩

theorem advances_nest (h : token.rest <:+ s.rest.tail) : s.Advances (s.nest token) :=
  (advances_take h).withDepth _

theorem advances_quantify (hr : rest <:+ s.rest.tail) (hq : Quantifies s.rest min max)
    (greedy : Bool) : s.Advances (s.quantify min max greedy rest) where
  suffix := hr
  calls := by
    intro text min' max' greedy' hm
    rcases mem_append.mp hm with hm | hm
    · exact .inl hm
    · cases mem_singleton.mp hm
      exact .inr ⟨rfl, hq⟩

theorem advances_parseQuantifier (hr : rest <:+ s.rest.tail) (hq : Quantifies s.rest min max) :
    s.Advances (s.parseQuantifier min max rest) := by
  unfold parseQuantifier
  split
  · exact advances_fail hr _
  split
  · split
    next rest' hl =>
      rw [tryConsume_eq_some hl] at hr
      exact advances_quantify ((suffix_cons ..).trans hr) hq false
    next => exact advances_quantify hr hq true
  · exact advances_fail hr _

theorem advances_parseParenthesesBegin (hr : rest <:+ s.rest.tail) :
    s.Advances (s.parseParenthesesBegin rest) := by
  unfold parseParenthesesBegin
  split
  next => exact advances_nest hr
  next => exact advances_fail nil_suffix _
  next c rest' h =>
    rw [tryConsume_eq_some h] at hr
    have hr' := ((suffix_cons c rest').trans (suffix_cons ..)).trans hr
    repeat' split
    all_goals exact advances_nest hr'

theorem advances_ite {p : Prop} [Decidable p] {a b : ParserState} (ha : p → s.Advances a)
    (hb : ¬ p → s.Advances b) : s.Advances (if p then a else b) := by
  split
  next h => exact ha h
  next h => exact hb h

theorem advances_parseToken (s : ParserState) (limit : ℕ) : s.Advances (s.parseToken limit) := by
  unfold parseToken
  split
  next hs => exact ⟨hs ▸ suffix_rfl, fun _ _ _ _ => .inl⟩
  next c rest hs =>
    have htail : s.rest.tail = rest := by rw [hs, tail_cons]
    have hr : rest <:+ s.rest.tail := htail ▸ suffix_rfl
    have hb (hc : c ≠ uchar '{') (min max : ℕ) : Quantifies s.rest min max := by
      intro text' ht
      rw [hs] at ht
      exact absurd (cons.inj ht).1 hc
    refine advances_ite (fun _ => advances_take hr) fun _ => ?_
    refine advances_ite (fun _ => advances_parseParenthesesBegin hr) fun _ => ?_
    refine advances_ite (fun _ => (advances_take ?_).withDepth _) fun _ => ?_
    · split <;> exact hr
    refine advances_ite (fun _ => advances_take hr) fun _ => ?_
    refine advances_ite (fun _ => advances_take hr) fun _ => ?_
    refine advances_ite (fun _ => advances_take hr) fun _ => ?_
    refine advances_ite
      (fun _ => advances_take (htail ▸ parseCharacterClass_suffix limit rest)) fun _ => ?_
    refine advances_ite
      (fun _ => advances_take (htail ▸ parseAtomEscape_suffix limit rest)) fun _ => ?_
    refine advances_ite
      (fun hc => advances_parseQuantifier hr (hb (by rw [hc]; decide) _ _)) fun _ => ?_
    refine advances_ite
      (fun hc => advances_parseQuantifier hr (hb (by rw [hc]; decide) _ _)) fun _ => ?_
    refine advances_ite
      (fun hc => advances_parseQuantifier hr (hb (by rw [hc]; decide) _ _)) fun _ => ?_
    split
    next min max rest' hbounds =>
      split at hbounds
      next hc =>
        have hexact := consumeBounds_spec hbounds
        have hr' : rest' <:+ s.rest.tail := htail ▸ hexact.suffix
        refine advances_ite (fun _ => advances_parseQuantifier hr' fun text' ht => ?_) fun _ => ?_
        · cases hs.symm.trans ht
          exact ⟨rest', hexact⟩
        · exact advances_fail hr' _
      next => cases hbounds
    next => exact advances_take hr

end ParserState

/-- The loop of `parseTokens`. -/
def parseTokens (limit : ℕ) (s : ParserState) : ParserState :=
  if s.rest = [] then
    if s.parenthesesNestingDepth > 0 then { s with err := some .missingParentheses } else s
  else
    let next := s.parseToken limit
    if next.err.isSome then next else parseTokens limit next
termination_by s.rest.length
decreasing_by
  have hle := (s.advances_parseToken limit).suffix.length_le
  have hpos := length_pos_iff.mpr ‹s.rest ≠ []›
  rw [length_tail] at hle
  omega

def parse (backReferenceLimit : ℕ) (pattern : List ℕ) : ParserState :=
  if pattern.length > 1024 * 1024 then ⟨pattern, [], some .patternTooLarge, 0, false⟩
  else parseTokens backReferenceLimit ⟨pattern, [], none, 0, false⟩

section Runs
variable {limit : ℕ} {s : ParserState}

theorem quantifies_of_parseTokens {text : List ℕ} {min max : ℕ} {greedy : Bool}
    (h : .quantifyAtom text min max greedy ∈ (parseTokens limit s).calls) :
    .quantifyAtom text min max greedy ∈ s.calls ∨
      text <:+ s.rest ∧ ParserState.Quantifies text min max := by
  fun_induction parseTokens limit s with
  | case1 s hnil hdepth => exact .inl h
  | case2 s hnil hdepth => exact .inl h
  | case3 s hne next herr =>
    obtain ⟨-, hcalls⟩ := s.advances_parseToken limit
    rcases hcalls _ _ _ _ h with hm | ⟨rfl, hq⟩
    · exact .inl hm
    · exact .inr ⟨suffix_rfl, hq⟩
  | case4 s hne next herr ih =>
    obtain ⟨hsuffix, hcalls⟩ := s.advances_parseToken limit
    rcases ih h with hm | ⟨ht, hq⟩
    · rcases hcalls _ _ _ _ hm with hm | ⟨rfl, hq⟩
      · exact .inl hm
      · exact .inr ⟨suffix_rfl, hq⟩
    · exact .inr ⟨(ht.trans hsuffix).trans (tail_suffix _), hq⟩

theorem parseTokens_next (h : s.rest ≠ []) (herr : (s.parseToken limit).err = none) :
    parseTokens limit s = parseTokens limit (s.parseToken limit) := by
  rw [parseTokens, if_neg h]
  simp [herr]

theorem parseTokens_nil (h : s.rest = []) (hdepth : s.parenthesesNestingDepth = 0) :
    parseTokens limit s = s := by
  rw [parseTokens, if_pos h, if_neg (by rw [hdepth]; decide)]

end Runs

/-- Every quantifier in braces that is reported has the bounds that stand in the text if and only if
these are below `2 ^ 32`. -/
theorem reported_quantifiers_exact_iff (backReferenceLimit : ℕ) (pattern text : List ℕ)
    (min max : ℕ) (greedy : Bool)
    (h : .quantifyAtom (uchar '{' :: text) min max greedy ∈
      (parse backReferenceLimit pattern).calls) :
    uchar '{' :: text <:+ pattern ∧ ∃ n upper rest, Written text n upper rest ∧
      (min = decimalValue 0 n ∧ max = upperValue (decimalValue 0 n) upper ↔
        decimalValue 0 n < 2 ^ 32 ∧ ∀ m ∈ upper, decimalValue 0 m < 2 ^ 32) := by
  unfold parse at h
  split at h
  next => exact absurd h not_mem_nil
  next =>
    obtain ⟨hsuffix, hq⟩ := (quantifies_of_parseTokens h).resolve_left not_mem_nil
    obtain ⟨rest, n, upper, hexact⟩ := hq text rfl
    exact ⟨hsuffix, n, upper, rest, hexact⟩

/-- A letter and its quantifier. -/
def repeated (bound : String) : List ℕ := ("a\x7b" ++ bound ++ "\x7d").toList.map uchar

/-- The lower bound 2 and the upper bound 30 are reported behind a letter. -/
theorem reported_quantifiers_exact_twoToThirty :
    let text := (repeated "2,30").tail.tail
    uchar '\x7b' :: text <:+ repeated "2,30" ∧ ∃ n upper rest, Written text n upper rest ∧
      (2 = decimalValue 0 n ∧ 30 = upperValue (decimalValue 0 n) upper ↔
        decimalValue 0 n < 2 ^ 32 ∧ ∀ m ∈ upper, decimalValue 0 m < 2 ^ 32) := by
  refine reported_quantifiers_exact_iff quantifyInfinite (repeated "2,30") _ 2 30 true ?_
  rw [parse, if_neg (by decide), parseTokens_next (by decide) (by decide),
    parseTokens_next (by decide) (by decide), parseTokens_nil (by decide) (by decide)]
  decide

theorem reported_quantifier_wraps :
    .quantifyAtom (repeated "6000000000").tail 1705032704 1705032704 true ∈
        (parse quantifyInfinite (repeated "6000000000")).calls ∧
      decimalValue 0 ("6000000000".toList.map uchar) = 6000000000 := by
  refine ⟨?_, by decide⟩
  rw [parse, if_neg (by decide), parseTokens_next (by decide) (by decide),
    parseTokens_next (by decide) (by decide), parseTokens_nil (by decide) (by decide)]
  decide

end QPlusWeb.Yarr
