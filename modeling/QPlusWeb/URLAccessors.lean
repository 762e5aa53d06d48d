import QPlusWeb.URLParser
import Mathlib.Tactic.Linarith

/-!
# What a URL gives out

The protocol, the host, the port and the path of a URL, and the decoding of its escape sequences.  The
tables of Unicode and the decoder for UTF-8 are a parameter.
-/

namespace QPlusWeb.WebCore

open ListScans

/-- The UTF-16 code units of a string. -/
abbrev Chars := List UInt16

/-- The code unit of a character of the basic plane. -/
def uchar (c : Char) : UInt16 := UInt16.ofNat c.toNat

def chars (text : String) : Chars := text.toList.map uchar

def widen (s : Bytes) : Chars := s.map UInt8.toUInt16

def lowerASCII (c : UInt16) : UInt16 := if uchar 'A' ≤ c && c ≤ uchar 'Z' then c + 0x20 else c

/-- What is used of the Unicode library and of the text codecs. -/
structure TextLibrary where
  /-- `TextEncoding::decode` for UTF-8 -/
  decodeUTF8 : Bytes → Chars
  /-- `u_foldCase` -/
  foldCase : UInt16 → UInt16
  /-- spaces beyond ASCII -/
  isWhiteSpaceNeutral : UInt16 → Bool

/-- A text library that knows no more than ASCII. -/
def asciiLibrary : TextLibrary where
  decodeUTF8 := widen
  foldCase := lowerASCII
  isWhiteSpaceNeutral := fun _ => false

variable (t : TextLibrary)

/-! ### Characters and numbers -/

def isDigitChar (c : UInt16) : Bool := uchar '0' ≤ c && c ≤ uchar '9'

def isHexDigitChar (c : UInt16) : Bool :=
  isDigitChar c || (uchar 'A' ≤ c && c ≤ uchar 'F') || (uchar 'a' ≤ c && c ≤ uchar 'f')

def isAlphaChar (c : UInt16) : Bool :=
  (uchar 'A' ≤ c && c ≤ uchar 'Z') || (uchar 'a' ≤ c && c ≤ uchar 'z')

def isASCIISpaceChar (c : UInt16) : Bool := c = 0x20 || (0x09 ≤ c && c ≤ 0x0D)

def toASCIIHexValue (c : UInt16) : ℕ :=
  if c < uchar 'A' then c.toNat - (uchar '0').toNat
  else (c.toNat - (uchar 'A').toNat + 10) % 16

def isSpaceOrNewline (c : UInt16) : Bool :=
  if c ≤ 0x7F then isASCIISpaceChar c else t.isWhiteSpaceNeutral c

def equalIgnoringCase (a b : Chars) : Bool := a.map t.foldCase = b.map t.foldCase

/-- The number that decimal digits stand for. -/
def digitsValue (digits : Chars) : ℕ :=
  digits.foldl (fun value c => 10 * value + (c.toNat - (uchar '0').toNat)) 0

/-- Decimal digits between spaces and after a sign; a number out of range is refused as soon as it is. -/
def toIntegralType (isSigned : Bool) (integralMax : ℕ) (data : Chars) : Option ℤ :=
  let data := data.dropWhile (isSpaceOrNewline t)
  let isNegative := isSigned && data.head? = some (uchar '-')
  let data := if isNegative || data.head? = some (uchar '+') then data.tail else data
  let digits := data.takeWhile isDigitChar
  let rest := (data.dropWhile isDigitChar).dropWhile (isSpaceOrNewline t)
  if digits = [] || rest ≠ [] then none
  else if isNegative then
    if digitsValue digits ≤ integralMax + 1 then some (-(digitsValue digits : ℤ)) else none
  else if digitsValue digits ≤ integralMax then some (digitsValue digits) else none

def charactersToUIntStrict (data : Chars) : Option ℤ := toIntegralType t false (2 ^ 32 - 1) data

def charactersToIntStrict (data : Chars) : Option ℤ := toIntegralType t true (2 ^ 31 - 1) data

/-! ### Escape sequences -/

/-- The length of the run of escape sequences at the beginning, with up to two characters from 0x40 to
0x7F after each sequence. -/
def findEndOfRun (numberOfTrailingCharacters : ℕ) : Chars → ℕ
  | [] => 0
  | c :: rest =>
    if c = uchar '%' then
      match rest with
      | d₁ :: d₂ :: rest =>
        if isHexDigitChar d₁ && isHexDigitChar d₂ then 3 + findEndOfRun 0 rest else 0
      | _ => 0
    else if 0x40 ≤ c && c ≤ 0x7F && numberOfTrailingCharacters < 2 then
      1 + findEndOfRun (numberOfTrailingCharacters + 1) rest
    else 0

/-- The bytes of a run. -/
def runBytes : Chars → Bytes
  | [] => []
  | c :: rest =>
    if c = uchar '%' then
      match rest with
      | d₁ :: d₂ :: rest =>
        UInt8.ofNat (toASCIIHexValue d₁ * 16 + toASCIIHexValue d₂) :: runBytes rest
      | _ => []
    else c.toUInt8 :: runBytes rest

def decodeRun (run : Chars) : Chars := t.decodeUTF8 (runBytes run)

/-- The loop of `decodeEscapeSequences`; so many characters belong to a run that is decoded already. -/
def decodeLoop : ℕ → Chars → Chars
  | _, [] => []
  | decoded + 1, _ :: rest => decodeLoop decoded rest
  | 0, c :: rest =>
    if c = uchar '%' then
      match findEndOfRun 0 (c :: rest) with
      | 0 => c :: decodeLoop 0 rest
      | n + 1 =>
        let run := (c :: rest).take (n + 1)
        (if decodeRun t run = [] then run else decodeRun t run) ++ decodeLoop n rest
    else c :: decodeLoop 0 rest

def decodeURLEscapeSequences (string : Chars) : Chars := decodeLoop t 0 string

/-! ### The components -/

namespace URL

variable (u : URL)

def protocol : Chars := widen (slice u.string 0 u.schemeEnd)

def host : Chars := decodeURLEscapeSequences t (widen (slice u.string u.hostStart u.hostEnd))

def maximumValidPortNumber : ℤ := 0xFFFE

def invalidPortNumber : ℤ := 0xFFFF

/-- The characters after the colon. -/
def portText : Chars := widen (slice u.string (u.hostEnd + 1) u.portEnd)

/-- 0 if there is no port. -/
def port : ℤ :=
  if u.hostEnd = u.portEnd || u.hostEnd + 1 = u.portEnd then 0
  else
    match charactersToUIntStrict t u.portText with
    | none => invalidPortNumber
    | some number => if number > maximumValidPortNumber then invalidPortNumber else number

def path : Chars := widen (slice u.string u.portEnd u.pathEnd)

/-- For a protocol in lower case. -/
def protocolIs (protocol : Bytes) : Bool :=
  (slice u.string 0 u.schemeEnd).map (· ||| 0x20) = protocol

end URL

/-- 0 for protocols without a default port. -/
def defaultPort (protocol : Chars) : ℤ :=
  if equalIgnoringCase t protocol (chars "http") then 80
  else if equalIgnoringCase t protocol (chars "https") then 443
  else if equalIgnoringCase t protocol (chars "ftp") then 21
  else if equalIgnoringCase t protocol (chars "ftps") then 990
  else 0

/-- The port is converted to 16 bits. -/
def isDefaultPortForProtocol (port : ℤ) (protocol : Chars) : Bool :=
  protocol ≠ [] && defaultPort t protocol = port % 2 ^ 16

def shouldUseInnerURL (u : URL) : Bool := u.protocolIs (bytes "blob")

/-- The components of an invalid URL are empty. -/
def invalidURL : URL := ⟨[], false, 0, 0, 0, 0, 0, 0, 0, 0, 0, 0⟩

/-- The decoded path is copied to a buffer of bytes. -/
def extractInnerURL (u : URL) : URL :=
  (parse ((decodeURLEscapeSequences t u.path).map UInt16.toUInt8)).getD invalidURL

end QPlusWeb.WebCore
