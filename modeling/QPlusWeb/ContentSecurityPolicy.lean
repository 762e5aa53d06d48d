import QPlusWeb.URLAccessors

/-!
# CSPSourceList

A source list is parsed word by word into sources, and a URL is allowed if one of the sources matches
it.  A wildcard for the host is an empty host with a flag.
-/

namespace QPlusWeb.WebCore

open ListScans

/-- What a source list uses of the origin of its page; 0 stands for the default port. -/
structure SecurityOrigin where
  protocol : Chars
  host : Chars
  port : ℤ
  deriving DecidableEq

variable (t : TextLibrary) (page : SecurityOrigin)

/-! ### Matching -/

structure CSPSource where
  scheme : Chars
  host : Chars
  port : ℤ
  path : Chars
  hostHasWildcard : Bool
  portHasWildcard : Bool
  deriving DecidableEq

namespace CSPSource

variable (source : CSPSource) (u : URL)

def isSchemeOnly : Bool := source.host = []

def schemeMatches : Bool :=
  if source.scheme = [] then equalIgnoringCase t u.protocol page.protocol
  else equalIgnoringCase t u.protocol source.scheme

/-- `String::endsWith` without regard to case -/
def endsWithIgnoringCase (s suffix : Chars) : Bool :=
  suffix.length ≤ s.length && equalIgnoringCase t (s.drop (s.length - suffix.length)) suffix

/-- `String::startsWith` without regard to case -/
def startsWithIgnoringCase (s start : Chars) : Bool :=
  start.length ≤ s.length && equalIgnoringCase t (s.take start.length) start

def hostMatches : Bool :=
  equalIgnoringCase t (u.host t) source.host ||
    (source.hostHasWildcard && endsWithIgnoringCase t (u.host t) (uchar '.' :: source.host))

def pathMatches : Bool :=
  if source.path = [] then true
  else if source.path.getLast? = some (uchar '/') then
    startsWithIgnoringCase t (decodeURLEscapeSequences t u.path) source.path
  else decodeURLEscapeSequences t u.path = source.path

def portMatches : Bool :=
  if source.portHasWildcard then true
  else if u.port t = source.port then true
  else if u.port t = 0 then isDefaultPortForProtocol t source.port u.protocol
  else if source.port = 0 then isDefaultPortForProtocol t (u.port t) u.protocol
  else false

def «matches» : Bool :=
  schemeMatches t page source u &&
    (isSchemeOnly source ||
      (hostMatches t source u && portMatches t source u && pathMatches t source u))

end CSPSource

/-! ### Parsing -/

def isHostCharacter (c : UInt16) : Bool := isDigitChar c || isAlphaChar c || c = uchar '-'

def isSchemeContinuationCharacter (c : UInt16) : Bool :=
  isDigitChar c || isAlphaChar c || c ∈ chars "+-."

def isPathComponentCharacter (c : UInt16) : Bool := c ≠ uchar '?' && c ≠ uchar '#'

def isNotColonOrSlash (c : UInt16) : Bool := c ≠ uchar ':' && c ≠ uchar '/'

def parseScheme : Chars → Option Chars
  | [] => none
  | c :: rest =>
    if isAlphaChar c && rest.all isSchemeContinuationCharacter then some (c :: rest) else none

/-- The labels of a host name; a character is needed at the start of each. -/
def hostLabels : (atStart : Bool) → Chars → Bool
  | _, [] => true
  | true, c :: rest => isHostCharacter c && hostLabels false rest
  | false, c :: rest =>
    if isHostCharacter c then hostLabels false rest else c = uchar '.' && hostLabels true rest

/-- The host and whether it has a wildcard. -/
def parseHost : Chars → Option (Chars × Bool)
  | [] => none
  | c :: rest =>
    if c = uchar '*' then
      match rest with
      | [] => some ([], true)
      | d :: host =>
        if d = uchar '.' && hostLabels true host then some (host, true) else none
    else if hostLabels true (c :: rest) then some (c :: rest, false) else none

/-- A query or a fragment is ignored. -/
def parsePath (path : Chars) : Chars :=
  decodeURLEscapeSequences t (path.takeWhile isPathComponentCharacter)

/-- The port behind the colon and whether it is a wildcard. -/
def parsePort (port : Chars) : Option (ℤ × Bool) :=
  if port = [] then none
  else if port = [uchar '*'] then some (0, true)
  else if port.all isDigitChar then (charactersToIntStrict t port).map (·, false)
  else none

/-- The port, whether it is a wildcard, and what follows up to the end. -/
def parseOptionalPort (rest : Chars) : Option (ℤ × Bool × Chars) :=
  if rest.head? = some (uchar ':') then
    (parsePort t (rest.tail.takeWhile (· ≠ uchar '/'))).map fun (port, portHasWildcard) =>
      (port, portHasWildcard, rest.tail.dropWhile (· ≠ uchar '/'))
  else some (0, false, rest)

/-- A host with port and path. -/
def parseHostSource (scheme text : Chars) : Option CSPSource := do
  let (host, hostHasWildcard) ← parseHost (text.takeWhile isNotColonOrSlash)
  let (port, portHasWildcard, pathText) ← parseOptionalPort t (text.dropWhile isNotColonOrSlash)
  some
    { scheme := scheme
      host := host
      port := port
      path := if pathText = [] then [] else parsePath t pathText
      hostHasWildcard := hostHasWildcard
      portHasWildcard := portHasWildcard }

def schemeSource (scheme : Chars) : CSPSource := ⟨scheme, [], 0, [], false, false⟩

/-- Behind `scheme:/` -/
def parseAfterSlash (scheme : Chars) : Chars → Option CSPSource
  | [] => none
  | c :: text =>
    if c = uchar '/' then
      if text = [] then some (schemeSource scheme) else parseHostSource t scheme text
    else none

/-- Behind the first colon: `scheme:`, `scheme://` with a host or without, or a port. -/
def parseAfterColon (start text : Chars) : Chars → Option CSPSource
  | [] => (parseScheme start).map schemeSource
  | c :: after =>
    if c = uchar '/' then (parseScheme start).bind fun scheme => parseAfterSlash t scheme after
    else parseHostSource t [] text

/-- A source that is no keyword.  `parsePath` leaves `position` before the path, so a path directly
behind a host without a scheme is refused. -/
def parseSourceExpression (text : Chars) : Option CSPSource :=
  match text.dropWhile isNotColonOrSlash with
  | [] => parseHostSource t [] text
  | c :: after =>
    if c = uchar ':' then parseAfterColon t (text.takeWhile isNotColonOrSlash) text after
    else none

structure CSPSourceList where
  list : List CSPSource
  allowStar : Bool
  allowInline : Bool
  allowEval : Bool
  deriving DecidableEq

namespace CSPSourceList

def empty : CSPSourceList := ⟨[], false, false, false⟩

variable (l : CSPSourceList)

def addSourceSelf : CSPSourceList :=
  { l with list := l.list ++ [⟨page.protocol, page.host, page.port, [], false, false⟩] }

/-- As many characters of the keyword, a C string, are compared as the word has. -/
def equalsKeyword (keyword word : Chars) : Bool :=
  word.length ≤ keyword.length + 1 &&
    equalIgnoringCase t ((keyword ++ [0]).take word.length) word

/-- Keywords are attributes of the list. -/
def addSource (word : Chars) : CSPSourceList :=
  if equalsKeyword t (chars "'none'") word then l
  else if word = [uchar '*'] then { l with allowStar := true }
  else if equalsKeyword t (chars "'self'") word then l.addSourceSelf page
  else if equalsKeyword t (chars "'unsafe-inline'") word then { l with allowInline := true }
  else if equalsKeyword t (chars "'unsafe-eval'") word then { l with allowEval := true }
  else
    match parseSourceExpression t word with
    | none => l
    | some source =>
      if source.scheme = [] && source.host = [] then l else { l with list := l.list ++ [source] }

/-- The words of a value. -/
def sourceWords (value : Chars) : List Chars := (value.splitOnP isASCIISpaceChar).filter (· ≠ [])

def isSourceListNone (value : Chars) : Bool :=
  match sourceWords value with
  | [] => true
  | [word] => equalsKeyword t (chars "'none'") word
  | _ => false

def parse (value : Chars) : CSPSourceList :=
  if isSourceListNone t value then empty
  else (sourceWords value).foldl (addSource t page) empty

/-- The URL that is matched. -/
def effectiveURL (u : URL) : URL := if shouldUseInnerURL u then extractInnerURL t u else u

def «matches» (u : URL) : Bool :=
  l.allowStar || l.list.any fun source => source.matches t page (effectiveURL t u)

end CSPSourceList

end QPlusWeb.WebCore
