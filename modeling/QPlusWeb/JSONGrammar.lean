import QPlusWeb.LiteralLexer

/-!
# The JSON grammar

The lexical and the syntactic grammar of JSON in ECMAScript 5.1, 15.12.1, each with the value that a
text denotes: a text is a sequence of tokens with white space around them, and the tokens derive a
value.  The characters of a string, its escapes and the tokens that are keys of an object are
parameters of the grammar, since the parser has modes that accept more.
-/

namespace QPlusWeb.JSON

open JSC List

variable {ν : Type} (members : List (UString × JSONValue ν))

def WhiteSpace (w : UString) : Prop := ∀ c ∈ w, c = 0x9 ∨ c = 0xA ∨ c = 0xD ∨ c = 0x20

/-! ### Strings -/

inductive HexDigit : UInt16 → ℕ → Prop
  | decimal {c} : ch '0' ≤ c → c ≤ ch '9' → HexDigit c (c.toNat - (ch '0').toNat)
  | lower {c} : ch 'a' ≤ c → c ≤ ch 'f' → HexDigit c (c.toNat - (ch 'a').toNat + 10)
  | upper {c} : ch 'A' ≤ c → c ≤ ch 'F' → HexDigit c (c.toNat - (ch 'A').toNat + 10)

/-- The characters between the quotes of a string and the string they denote. -/
inductive StringText (safe : UInt16 → Prop) (escapes : List (UInt16 × UInt16)) :
    UString → UString → Prop
  | nil : StringText safe escapes [] []
  | char {c text value} : safe c → StringText safe escapes text value →
      StringText safe escapes (c :: text) (c :: value)
  | escape {e c text value} : (e, c) ∈ escapes →
      StringText safe escapes text value →
      StringText safe escapes (backslash :: e :: text) (c :: value)
  | unicode {c1 c2 c3 c4 n1 n2 n3 n4 text value} :
      HexDigit c1 n1 → HexDigit c2 n2 → HexDigit c3 n3 → HexDigit c4 n4 →
      StringText safe escapes text value →
      StringText safe escapes (backslash :: ch 'u' :: c1 :: c2 :: c3 :: c4 :: text)
        (UInt16.ofNat (((n1 * 16 + n2) * 16 + n3) * 16 + n4) :: value)

/-- `JSONStringCharacter` without its escape sequences. -/
def StringCharacter (c : UInt16) : Prop := 0x20 ≤ c ∧ c ≠ quotationMark ∧ c ≠ backslash

/-- `JSONEscapeCharacter`, with what it stands for. -/
def escapeCharacters : List (UInt16 × UInt16) :=
  [(quotationMark, quotationMark), (ch '/', ch '/'), (backslash, backslash), (ch 'b', 0x8),
    (ch 'f', 0xC), (ch 'n', 0xA), (ch 'r', 0xD), (ch 't', 0x9)]

/-! ### Numbers -/

def Digit (c : UInt16) : Prop := ch '0' ≤ c ∧ c ≤ ch '9'

/-- `DecimalIntegerLiteral` -/
inductive IntegerText : UString → Prop
  | zero : IntegerText [ch '0']
  | digits {c digits} : ch '1' ≤ c → c ≤ ch '9' → (∀ x ∈ digits, Digit x) →
      IntegerText (c :: digits)

def DigitsText (digits : UString) : Prop := digits ≠ [] ∧ ∀ c ∈ digits, Digit c

/-- An optional `JSONFraction`. -/
inductive FractionText : UString → Prop
  | none : FractionText []
  | fraction {digits} : DigitsText digits → FractionText (ch '.' :: digits)

def SignText (sign : UString) : Prop := sign = [] ∨ sign = [ch '-'] ∨ sign = [ch '+']

/-- An optional `ExponentPart`. -/
inductive ExponentText : UString → Prop
  | none : ExponentText []
  | exponent {e sign digits} : e = ch 'e' ∨ e = ch 'E' → SignText sign →
      DigitsText digits → ExponentText (e :: (sign ++ digits))

/-- `JSONNumber` -/
inductive NumberText : UString → Prop
  | number {sign integer fraction exponent} : sign = [] ∨ sign = [ch '-'] →
      IntegerText integer → FractionText fraction → ExponentText exponent →
      NumberText (sign ++ integer ++ fraction ++ exponent)

/-! ### Tokens -/

/-- The text of a token. -/
inductive Lexeme (d : Doubles ν) : UString → Token ν → Prop
  | lBracket : Lexeme d [ch '['] .lBracket
  | rBracket : Lexeme d [ch ']'] .rBracket
  | lBrace : Lexeme d [0x7B] .lBrace
  | rBrace : Lexeme d [0x7D] .rBrace
  | comma : Lexeme d [ch ','] .comma
  | colon : Lexeme d [ch ':'] .colon
  | true : Lexeme d [ch 't', ch 'r', ch 'u', ch 'e'] .true
  | false : Lexeme d [ch 'f', ch 'a', ch 'l', ch 's', ch 'e'] .false
  | null : Lexeme d [ch 'n', ch 'u', ch 'l', ch 'l'] .null
  | string {text value} : StringText StringCharacter escapeCharacters text value →
      Lexeme d (quotationMark :: (text ++ [quotationMark])) (.string value)
  | number {text} : NumberText text → Lexeme d text (.number (parseDouble d text))

/-- A text is the texts of the tokens with white space before and after them. -/
inductive Lexes (lexeme : UString → Token ν → Prop) : UString → List (Token ν) → Prop
  | done {w} : WhiteSpace w → Lexes lexeme w []
  | token {w text rest token tokens} : WhiteSpace w →
      lexeme text token → Lexes lexeme rest tokens →
      Lexes lexeme (w ++ text ++ rest) (token :: tokens)

/-! ### Values -/

/-- The value that the last of the members gives a key. -/
def lastValue (key : UString) (members : List (UString × JSONValue ν)) : Option (JSONValue ν) :=
  (members.reverse.find? fun m => m.1 = key).map Prod.snd

/-- The object with these members: of the members with one key the last one counts. -/
def objectOf : List (UString × JSONValue ν) → List (UString × JSONValue ν)
  | [] => []
  | (key, value) :: members =>
    (key, (lastValue key members).getD value) :: (objectOf members).filter (·.1 ≠ key)

/-- The non-terminals, with what they denote. -/
inductive Phrase (ν : Type) where
  | value (v : JSONValue ν)
  | elements (vs : List (JSONValue ν))
  | members (ms : List (UString × JSONValue ν))

/-- `JSONValue`, `JSONElementList` and `JSONMemberList` -/
inductive Derives (key : Token ν → Option UString) : Phrase ν → List (Token ν) → Prop
  | null : Derives key (.value .null) [.null]
  | true : Derives key (.value (.bool Bool.true)) [.true]
  | false : Derives key (.value (.bool Bool.false)) [.false]
  | number {x} : Derives key (.value (.number x)) [.number x]
  | string {s} : Derives key (.value (.string s)) [.string s]
  | emptyArray : Derives key (.value (.array [])) [.lBracket, .rBracket]
  | array {vs ts} : Derives key (.elements vs) ts →
      Derives key (.value (.array vs)) (.lBracket :: (ts ++ [.rBracket]))
  | emptyObject : Derives key (.value (.object [])) [.lBrace, .rBrace]
  | object {ms ts} :
      Derives key (.members ms) ts →
      Derives key (.value (.object (objectOf ms))) (.lBrace :: (ts ++ [.rBrace]))
  | firstElement {v ts} : Derives key (.value v) ts →
      Derives key (.elements [v]) ts
  | nextElement {vs v ts us} :
      Derives key (.elements vs) ts → Derives key (.value v) us →
      Derives key (.elements (vs ++ [v])) (ts ++ .comma :: us)
  | firstMember {k t v ts} :
      key t = some k → Derives key (.value v) ts →
      Derives key (.members [(k, v)]) (t :: .colon :: ts)
  | nextMember {ms k t v ts us} : Derives key (.members ms) ts → key t = some k →
      Derives key (.value v) us →
      Derives key (.members (ms ++ [(k, v)])) (ts ++ .comma :: t :: .colon :: us)

/-- The keys of JSON are strings. -/
def stringKey : Token ν → Option UString
  | .string s => some s
  | _ => none

/-- The text is a `JSONText` that denotes the value. -/
def Text (d : Doubles ν) (s : UString) (v : JSONValue ν) : Prop :=
  ∃ tokens, Lexes (Lexeme d) s tokens ∧ Derives stringKey (.value v) tokens

/-! ### The members of an object -/

theorem lastValue_append (key k : UString) (members : List (UString × JSONValue ν))
    (value : JSONValue ν) :
    lastValue key (members++[(k,value)]) =
      if k = key then some value else lastValue key members := by
  by_cases h : k = key <;> simp [lastValue,h]

theorem filter_putMember_self (key : UString) (value : JSONValue ν) :
    (putMember members key value).filter (·.1 ≠ key) = members.filter (·.1 ≠ key) := by
  induction members with
  | nil => simp [putMember]
  | cons m members ih =>
    by_cases h : m.1 = key
    · simp [putMember,h]
    · simp only [putMember,h,if_false]
      rw [filter_cons_of_pos (by simpa using h),filter_cons_of_pos (by simpa using h),ih]

theorem filter_putMember_of_ne {members : List (UString × JSONValue ν)} {key k : UString}
    (hne : k ≠ key) (value : JSONValue ν) :
    (putMember members k value).filter (·.1 ≠ key) =
      putMember (members.filter (·.1 ≠ key)) k value := by
  induction members with
  | nil => simp [putMember,hne]
  | cons m members ih =>
    by_cases hk : m.1 = k
    · have hm : m.1 ≠ key := hk ▸ hne
      simp [putMember,hk,hne]
    · by_cases hm : m.1 = key
      · simp only [putMember,hk,if_false]
        rw [filter_cons_of_neg (by simpa using hm),filter_cons_of_neg (by simpa using hm),ih]
      · simp only [putMember,hk,if_false]
        rw [filter_cons_of_pos (by simpa using hm),filter_cons_of_pos (by simpa using hm),
          ih,putMember,if_neg hk]

theorem objectOf_append (k : UString) (value : JSONValue ν) :
    objectOf (members++[(k,value)]) = putMember (objectOf members) k value := by
  induction members with
  | nil => simp [objectOf,putMember,lastValue]
  | cons m members ih =>
    obtain ⟨key,v⟩ := m
    rw [cons_append,objectOf,objectOf,ih,lastValue_append,putMember]
    by_cases h : key = k
    · subst h
      rw [if_pos rfl,if_pos rfl,filter_putMember_self]
      rfl
    · rw [if_neg (Ne.symm h),if_neg h,filter_putMember_of_ne (Ne.symm h)]

end QPlusWeb.JSON
