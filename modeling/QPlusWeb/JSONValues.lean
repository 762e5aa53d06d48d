import Mathlib.Data.Rat.Defs
import Mathlib.Data.Rat.Floor
import Mathlib.Algebra.Order.Ring.Unbundled.Rat

/-!
# Values of JSON, and their numbers

Strings are sequences of UTF-16 code units.  An object is the list of its members; a key occurs once,
and a value that is put under a key that is there replaces the old one.

Doubles are only known by the function that rounds a decimal number to one; it takes the sign apart
from the number, so that -0 may differ from 0.
-/

namespace QPlusWeb.JSC

/-- The code units of a string. -/
abbrev UString := List UInt16

/-- The code unit of an ASCII character. -/
def ch (c : Char) : UInt16 := UInt16.ofNat c.toNat

def quotationMark : UInt16 := 0x22

def apostrophe : UInt16 := 0x27

def backslash : UInt16 := 0x5C

inductive JSONValue (ν : Type) where
  | null
  | bool (b : Bool)
  | number (x : ν)
  | string (s : UString)
  | array (elements : List (JSONValue ν))
  | object (members : List (UString × JSONValue ν))

variable {ν : Type}

/-- `putDirect` and `putDirectIndex` on an object: the place of a key is that of its first value. -/
def putMember (members : List (UString × JSONValue ν)) (key : UString) (value : JSONValue ν) :
    List (UString × JSONValue ν) :=
  match members with
  | [] => [(key, value)]
  | m :: members =>
    if m.1 = key then (key, value) :: members else m :: putMember members key value

/-! ### Characters -/

variable (c : UInt16)

def isJSONWhiteSpace : Bool := c = ch ' ' || c = 0x9 || c = 0xA || c = 0xD

def isASCIIDigit : Bool := ch '0' ≤ c && c ≤ ch '9'

def isASCIIAlpha : Bool := ch 'a' ≤ (c ||| 0x20) && (c ||| 0x20) ≤ ch 'z'

def isASCIIAlphanumeric : Bool := isASCIIDigit c || isASCIIAlpha c

def isASCIIHexDigit : Bool :=
  isASCIIDigit c || (ch 'a' ≤ (c ||| 0x20) && (c ||| 0x20) ≤ ch 'f')

def toASCIIHexValue : UInt16 :=
  if c < ch 'A' then c - ch '0' else (c - ch 'A' + 10) &&& 0xF

def convertHex (c1 c2 : UInt16) : UInt16 := (toASCIIHexValue c1 <<< 4 ||| toASCIIHexValue c2) &&& 0xFF

def convertUnicode (c1 c2 c3 c4 : UInt16) : UInt16 := convertHex c1 c2 <<< 8 ||| convertHex c3 c4

/-! ### Numbers -/

/-- What is known of doubles. -/
structure Doubles (ν : Type) where
  /-- The double nearest to a decimal number with a sign. -/
  round : Bool → ℚ → ν
  /-- The `int` that a double is equal to. -/
  toInt? : ν → Option ℤ

/-- `int` to `double`. -/
def Doubles.ofInt (d : Doubles ν) (k : ℤ) : ν := d.round (k < 0) |(k : ℚ)|

def Doubles.negativeZero (d : Doubles ν) : ν := d.round true 0

def digitValue : ℤ := c.toNat - (ch '0').toNat

/-- The number that digits denote. -/
def digitsValue (digits : UString) : ℤ := digits.foldl (fun n c => n * 10 + digitValue c) 0

/-- The exponent of a decimal literal, from the `e` on. -/
def exponentValue : UString → ℤ
  | _ :: c :: digits =>
    if c = ch '-' then -digitsValue digits
    else if c = ch '+' then digitsValue digits
    else digitsValue (c :: digits)
  | _ => 0

/-- The fraction of a decimal literal and what follows it. -/
def splitFraction : UString → UString × UString
  | c :: rest => if c = ch '.' then rest.span isASCIIDigit else ([], c :: rest)
  | [] => ([], [])

/-- The sign and the number that a decimal literal denotes. -/
def decimalValue (literal : UString) : Bool × ℚ :=
  let negative := literal.head? = some (ch '-')
  let literal := if negative then literal.tail else literal
  let integer := literal.takeWhile isASCIIDigit
  let fraction := splitFraction (literal.dropWhile isASCIIDigit)
  (negative,
    (digitsValue integer + digitsValue fraction.1 / 10 ^ fraction.1.length) *
      (10 : ℚ) ^ exponentValue fraction.2)

/-- `parseDouble` is taken to be right. -/
def parseDouble (d : Doubles ν) (literal : UString) : ν :=
  d.round (decimalValue literal).1 (decimalValue literal).2

end QPlusWeb.JSC
