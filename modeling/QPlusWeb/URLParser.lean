import QPlusWeb.ListScans

/-!
# URL::parse

The parser moves indices over a C string, first to the end of the scheme, then through an authority
if there is one, and on through the path, the query and the fragment.  From the ranges it assembles
the canonical string and records where the components are in that one.

A byte string stands for the `char` buffer without its terminating zero; reading behind the end gives
the zero.  An invalid URL is `none`.
-/

namespace QPlusWeb.WebCore

open ListScans

abbrev Bytes := List UInt8

/-- The byte of an ASCII character. -/
def byte (c : Char) : UInt8 := UInt8.ofNat c.toNat

def bytes (text : String) : Bytes := text.toList.map byte

/-- What a C string is read up to. -/
def cString (string : Bytes) : Bytes := string.takeWhile (· ≠ 0)

variable (url : Bytes)

/-- `url[i]` -/
def charAt (i : ℕ) : UInt8 := url.getD i 0

/-! ### Character classes -/

def isASCIIDigit (c : UInt8) : Bool := byte '0' ≤ c && c ≤ byte '9'

def isASCIIUpper (c : UInt8) : Bool := byte 'A' ≤ c && c ≤ byte 'Z'

def isASCIILower (c : UInt8) : Bool := byte 'a' ≤ c && c ≤ byte 'z'

def isASCIIAlpha (c : UInt8) : Bool := isASCIIUpper c || isASCIILower c

def isASCIIAlphanumeric (c : UInt8) : Bool := isASCIIDigit c || isASCIIAlpha c

def isASCIIHexDigit (c : UInt8) : Bool :=
  isASCIIDigit c || (byte 'A' ≤ c && c ≤ byte 'F') || (byte 'a' ≤ c && c ≤ byte 'f')

def toASCIILower (c : UInt8) : UInt8 := if isASCIIUpper c then c + 0x20 else c

def isSchemeFirstChar (c : UInt8) : Bool := isASCIIAlpha c

def isSchemeChar (c : UInt8) : Bool := isASCIIAlphanumeric c || c ∈ bytes "+-."

def isUserInfoChar (c : UInt8) : Bool := isASCIIAlphanumeric c || c ∈ bytes "!$%&'()*+,-.:;=_~"

def isHostnameChar (c : UInt8) : Bool := isASCIIAlphanumeric c || c ∈ bytes "%-._"

def isIPv6Char (c : UInt8) : Bool := isASCIIHexDigit c || c ∈ bytes "%.:"

def isPathSegmentEndChar (c : UInt8) : Bool := c = 0 || c ∈ bytes "#/?"

def isBadChar (c : UInt8) : Bool := (0 < c && c ≤ 0x20) || 0x7F ≤ c || c ∈ bytes "\"#%<>?"

def isLetterMatchIgnoringCase (c lowercaseLetter : UInt8) : Bool := (c ||| 0x20) = lowercaseLetter

/-- The letters of `text` from a position on, in either case. -/
def matchesIgnoringCase (start : ℕ) (text : Bytes) : Bool :=
  text.zipIdx.all fun (letter, i) => isLetterMatchIgnoringCase (charAt url (start + i)) letter

/-! ### Schemes -/

def isNonFileHierarchicalScheme (scheme : Bytes) : Bool :=
  scheme ∈ [bytes "ws", bytes "ftp", bytes "wss", bytes "http", bytes "https", bytes "gopher"]

def isCanonicalHostnameLowercaseForScheme (scheme : Bytes) : Bool :=
  scheme ∈ [bytes "ws", bytes "ftp", bytes "wss", bytes "http", bytes "file", bytes "https",
    bytes "gopher"]

def isDefaultPortForScheme (port scheme : Bytes) : Bool :=
  (scheme, port) ∈ [(bytes "ws", bytes "80"), (bytes "ftp", bytes "21"), (bytes "wss", bytes "443"),
    (bytes "http", bytes "80"), (bytes "https", bytes "443"), (bytes "gopher", bytes "70")]

def isFile (schemeEnd : ℕ) : Bool :=
  schemeEnd = 4 && matchesIgnoringCase url 0 (bytes "file")

def protocolIsInHTTPFamily : Bool :=
  matchesIgnoringCase url 0 (bytes "http") &&
    (charAt url 4 = byte ':' ||
      (isLetterMatchIgnoringCase (charAt url 4) (byte 's') && charAt url 5 = byte ':'))

/-! ### The ranges -/

/-- The ranges up to the port. -/
structure Authority where
  userStart : ℕ
  userEnd : ℕ
  passwordStart : ℕ
  passwordEnd : ℕ
  hostStart : ℕ
  hostEnd : ℕ
  portStart : ℕ
  portEnd : ℕ
  deriving DecidableEq

/-- The path starts at `portEnd`, and the query at `pathEnd` with its question mark. -/
structure Ranges extends Authority where
  schemeEnd : ℕ
  pathEnd : ℕ
  queryEnd : ℕ
  fragmentStart : ℕ
  fragmentEnd : ℕ
  deriving DecidableEq

/-- All ranges are empty and at one place. -/
def Authority.none (start : ℕ) : Authority :=
  ⟨start, start, start, start, start, start, start, start⟩

/-- User and password, if an `@` ends them; otherwise the host starts at once. -/
def findUserInfo (userStart : ℕ) : Option Authority :=
  let userEnd := scan isUserInfoChar url userStart
  let colonPos := scan (fun c => isUserInfoChar c && c ≠ byte ':') url userStart
  if charAt url userEnd = byte '@' then
    if colonPos ≠ userEnd then
      some { Authority.none (userEnd + 1) with
        userStart := userStart, userEnd := colonPos, passwordStart := colonPos + 1
        passwordEnd := userEnd }
    else
      some { Authority.none (userEnd + 1) with
        userStart := userStart, userEnd := userEnd, passwordStart := userEnd, passwordEnd := userEnd }
  else if charAt url userEnd = byte '[' || isPathSegmentEndChar (charAt url userEnd) then
    some (Authority.none userStart)
  else none

/-- The end of the host that starts at a position. -/
def findHostEnd (hostStart : ℕ) : Option ℕ :=
  if charAt url hostStart = byte '[' then
    let hostEnd := scan isIPv6Char url (hostStart + 1)
    if charAt url hostEnd = byte ']' then some (hostEnd + 1) else none
  else some (scan isHostnameChar url hostStart)

def findPort (hostEnd : ℕ) : ℕ × ℕ :=
  if charAt url hostEnd = byte ':' then (hostEnd + 1, scan isASCIIDigit url (hostEnd + 1))
  else (hostEnd, hostEnd)

def hostPortIsEmptyButCredentialsArePresent (hostStart portEnd : ℕ) (userinfoEndChar : UInt8) :
    Bool := userinfoEndChar = byte '@' && hostStart = portEnd

/-- The authority that starts at `userStart`. -/
def findAuthority (schemeEnd userStart : ℕ) : Option Authority := do
  let a ← findUserInfo url userStart
  let hostEnd ← findHostEnd url a.hostStart
  let (portStart, portEnd) := findPort url hostEnd
  let a := { a with hostEnd := hostEnd, portStart := portStart, portEnd := portEnd }
  if !isPathSegmentEndChar (charAt url portEnd) then none
  else if hostPortIsEmptyButCredentialsArePresent a.hostStart portEnd (charAt url a.passwordEnd) then
    none
  else if a.userStart = portEnd ∧ !protocolIsInHTTPFamily url ∧ !isFile url schemeEnd then
    -- no authority found, the first two path segments are taken to be empty
    some (Authority.none (a.userStart - 2))
  else some a

/-- `hierarchical` and `hasSecondSlash` -/
def slashes (schemeEnd : ℕ) : ℕ :=
  if charAt url (schemeEnd + 1) = byte '/' then
    if charAt url (schemeEnd + 2) = byte '/' then 2 else 1
  else 0

/-- What follows the scheme without two slashes is an opaque part or an absolute path, unless the
scheme has an authority. -/
def authorityAfterScheme (schemeEnd : ℕ) : Option Authority :=
  if slashes url schemeEnd = 2 || isNonFileHierarchicalScheme (url.take schemeEnd) then
    findAuthority url schemeEnd (schemeEnd + 1 + slashes url schemeEnd)
  else some (Authority.none (schemeEnd + 1))

def findPathEnd (pathStart : ℕ) : ℕ :=
  scan (fun c => c ≠ byte '?' && c ≠ byte '#') url pathStart

def findQueryEnd (queryStart : ℕ) : ℕ :=
  if charAt url queryStart = byte '?' then scan (fun c => c ≠ byte '#') url queryStart
  else queryStart

/-- Without a `#` the fragment is empty. -/
def findFragment (queryEnd : ℕ) : ℕ × ℕ :=
  if charAt url queryEnd = byte '#' then (queryEnd + 1, url.length) else (queryEnd, queryEnd)

def rangesAfterAuthority (schemeEnd : ℕ) (a : Authority) : Ranges :=
  let pathEnd := findPathEnd url a.portEnd
  let queryEnd := findQueryEnd url pathEnd
  { a with
    schemeEnd := schemeEnd
    pathEnd := pathEnd
    queryEnd := queryEnd
    fragmentStart := (findFragment url queryEnd).1
    fragmentEnd := (findFragment url queryEnd).2 }

def findRanges : Option Ranges :=
  if !isSchemeFirstChar (charAt url 0) then none
  else
    let schemeEnd := scan isSchemeChar url 0
    if charAt url schemeEnd ≠ byte ':' then none
    else (authorityAfterScheme url schemeEnd).map (rangesAfterAuthority url schemeEnd)

/-! ### The canonical string -/

def hexDigits : Bytes := bytes "0123456789ABCDEF"

def appendEscapedChar (c : UInt8) : Bytes :=
  [byte '%', hexDigits.getD (c.toNat / 16) 0, hexDigits.getD (c.toNat % 16) 0]

def isTabOrNewline (c : UInt8) : Bool := c = 0x09 || c = 0x0A || c = 0x0D

def escapeBadChar (c : UInt8) : Bytes :=
  if isBadChar c then
    if c = byte '%' || c = byte '?' then [c]
    else if isTabOrNewline c then [] else appendEscapedChar c
  else [c]

def appendEscapingBadChars (s : Bytes) : Bytes := s.flatMap escapeBadChar

def escapeNonHierarchicalChar (c : UInt8) : Bytes :=
  if isTabOrNewline c then []
  else if c < 0x20 || c ≥ 127 then appendEscapedChar c
  else [c]

def escapeAndAppendNonHierarchicalPart (s : Bytes) : Bytes := s.flatMap escapeNonHierarchicalChar

/-- The last segment is taken off; the first character stays. -/
def rewindSegment (dst : Bytes) : Bytes :=
  (if dst.length > 1 then dst.tail else dst).dropWhile (· ≠ byte '/')

/-- The loop of `copyPathRemovingDots`; the destination is reversed. -/
def copySegments (dst : Bytes) (src : Bytes) : Bytes :=
  match src with
  | [] => dst.reverse
  | c :: rest =>
    if c = byte '.' ∧ dst.head? = some (byte '/') then
      match rest with
      | [] => dst.reverse
      | c₁ :: rest₁ =>
        if c₁ = byte '/' then copySegments dst rest₁
        else if c₁ = byte '.' then
          match rest₁ with
          | [] => (rewindSegment dst).reverse
          | c₂ :: rest₂ =>
            if c₂ = byte '/' then copySegments (rewindSegment dst) rest₂
            else copySegments (c :: dst) (c₁ :: c₂ :: rest₂)
        else copySegments (c :: dst) (c₁ :: rest₁)
    else copySegments (c :: dst) rest

def copyPathRemovingDots : Bytes → Bytes
  | [] => []
  | c :: src => copySegments [c] src

def hasSlashDotOrDotDot (s : Bytes) : Bool :=
  (s.zip s.tail).any fun (pc, c) => c = byte '.' && (pc = byte '/' || pc = byte '.')

structure URL where
  string : Bytes
  protocolIsInHTTPFamily : Bool
  schemeEnd : ℕ
  userStart : ℕ
  userEnd : ℕ
  passwordEnd : ℕ
  hostEnd : ℕ
  portEnd : ℕ
  pathAfterLastSlash : ℕ
  pathEnd : ℕ
  queryEnd : ℕ
  fragmentEnd : ℕ
  deriving DecidableEq

def URL.hostStart (u : URL) : ℕ :=
  if u.passwordEnd = u.userStart then u.passwordEnd else u.passwordEnd + 1

/-- The texts of the components that are put together. -/
@[ext]
structure Components where
  scheme : Bytes
  /-- `//` before the authority -/
  slashes : Bytes
  user : Bytes
  /-- with its colon -/
  password : Bytes
  /-- `@` after user and password -/
  credentialsEnd : Bytes
  host : Bytes
  /-- with its colon -/
  port : Bytes
  path : Bytes
  query : Bytes
  /-- with its `#` -/
  fragment : Bytes
  deriving DecidableEq

namespace Components

def upToScheme (c : Components) : Bytes := c.scheme ++ [byte ':']

def upToSlashes (c : Components) : Bytes := c.upToScheme ++ c.slashes

def upToUser (c : Components) : Bytes := c.upToSlashes ++ c.user

def upToPassword (c : Components) : Bytes := c.upToUser ++ c.password

def upToHost (c : Components) : Bytes := c.upToPassword ++ c.credentialsEnd ++ c.host

def upToPort (c : Components) : Bytes := c.upToHost ++ c.port

def upToPath (c : Components) : Bytes := c.upToPort ++ c.path

def upToQuery (c : Components) : Bytes := c.upToPath ++ c.query

def string (c : Components) : Bytes := c.upToQuery ++ c.fragment

end Components

/-- The path of the result. -/
def canonicalPath (schemeEnd : ℕ) (path : Bytes) : Bytes :=
  if slashes url schemeEnd = 0 then escapeAndAppendNonHierarchicalPart path
  else if !hasSlashDotOrDotDot url then appendEscapingBadChars path
  else appendEscapingBadChars (copyPathRemovingDots path)

section
variable (url : Bytes) (r : Ranges)

def hostIsLocalHost : Bool :=
  r.portEnd - r.userStart = 9 && matchesIgnoringCase url r.userStart (bytes "localhost")

/-- Just `file://` or `file://localhost` -/
def degenerateFilePath : Bool :=
  r.portEnd = r.pathEnd && (r.hostStart = r.hostEnd || hostIsLocalHost url r)

def haveNonHostAuthorityPart : Bool :=
  r.userStart ≠ r.userEnd || r.passwordStart ≠ r.passwordEnd || r.hostEnd ≠ r.portEnd

/-- The authority is written. -/
def hasAuthority : Bool :=
  if isFile url r.schemeEnd then !degenerateFilePath url r
  else haveNonHostAuthorityPart r || r.hostStart ≠ r.hostEnd

end

/-- The components of the result, in the order in which they are put into the buffer. -/
def components (r : Ranges) : Components :=
  let scheme := (slice url 0 r.schemeEnd).map toASCIILower
  let isFile := isFile url r.schemeEnd
  let user := if hasAuthority url r then slice url r.userStart r.userEnd else []
  let password :=
    if hasAuthority url r && r.passwordEnd ≠ r.passwordStart then
      byte ':' :: slice url r.passwordStart r.passwordEnd
    else []
  let host := slice url r.hostStart r.hostEnd
  let port := slice url r.portStart r.portEnd
  { scheme := scheme
    slashes := if hasAuthority url r || isFile then bytes "//" else []
    user := user
    password := password
    credentialsEnd := if user ++ password ≠ [] then [byte '@'] else []
    host :=
      if !hasAuthority url r ||
          (isFile && hostIsLocalHost url r && !haveNonHostAuthorityPart r) then []
      else if isCanonicalHostnameLowercaseForScheme scheme then host.map toASCIILower
      else host
    port :=
      if hasAuthority url r && r.hostEnd ≠ r.portStart &&
          ((port ≠ [] && !isDefaultPortForScheme port scheme) || r.hostStart = r.hostEnd) then
        byte ':' :: port
      else []
    path :=
      (if (protocolIsInHTTPFamily url || isFile) && r.pathEnd = r.portEnd then [byte '/'] else []) ++
        canonicalPath url r.schemeEnd (slice url r.portEnd r.pathEnd)
    query := appendEscapingBadChars (slice url r.pathEnd r.queryEnd)
    fragment :=
      if r.fragmentEnd ≠ r.queryEnd then
        byte '#' :: escapeAndAppendNonHierarchicalPart (slice url r.fragmentStart r.fragmentEnd)
      else [] }

/-- The buffer and the places of the components in it. -/
def assemble (inHTTPFamily : Bool) (c : Components) : URL where
  string := c.string
  protocolIsInHTTPFamily := inHTTPFamily
  schemeEnd := c.scheme.length
  userStart := c.upToSlashes.length
  userEnd := c.upToUser.length
  passwordEnd := c.upToPassword.length
  hostEnd := c.upToHost.length
  portEnd := c.upToPort.length
  pathAfterLastSlash := c.upToPath.length - (c.path.reverse.takeWhile (· ≠ byte '/')).length
  pathEnd := c.upToPath.length
  queryEnd := c.upToQuery.length
  fragmentEnd := c.string.length

/-- `parse` on a C string. -/
def parseChars : Option URL :=
  (findRanges url).map fun r => assemble (protocolIsInHTTPFamily url) (components url r)

/-- `none` if the URL is invalid. -/
def parse (string : Bytes) : Option URL := parseChars (cString string)

end QPlusWeb.WebCore
