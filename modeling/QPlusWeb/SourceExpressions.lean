import QPlusWeb.ContentSecurityPolicy
import QPlusWeb.URLPorts

/-!
# What a source list says

A source expression writes a scheme, a host, a port and a path, or leaves some of them out, and each
part that it writes is to be met by a URL that it allows.  The parser reads every word as the expression
that it writes, and except for a few forms the matcher checks every part.
-/

namespace QPlusWeb.WebCore

open ListScans List

variable (t : TextLibrary)

/-! ### Expressions -/

inductive HostPattern where
  /-- `*` -/
  | all
  | exact (host : Chars)
  /-- a host behind `*.` -/
  | subdomains (host : Chars)

inductive PortPattern where
  | omitted
  | number (digits : Chars)
  /-- `:*` -/
  | all

inductive SourceExpression where
  | self
  | scheme (scheme : Chars)
  | host (scheme : Option Chars) (host : HostPattern) (port : PortPattern) (path : Option Chars)

namespace HostPattern

def text : HostPattern → Chars
  | all => chars "*"
  | exact host => host
  | subdomains host => chars "*." ++ host

/-- Labels with dots between them and possibly at the end. -/
def WellFormed : HostPattern → Prop
  | all => True
  | exact host => hostLabels true host ∧ host ≠ []
  | subdomains host => hostLabels true host

/-- The same host up to case, for a wildcard with further labels, each followed by a dot. -/
def Matches : HostPattern → Chars → Prop
  | all, _ => True
  | exact host, name => equalIgnoringCase t name host
  | subdomains host, name =>
    ∃ labels : List Chars, (∀ l ∈ labels, uchar '.' ∉ l) ∧
      equalIgnoringCase t name (labels.flatMap (· ++ [uchar '.']) ++ host)

end HostPattern

namespace PortPattern

def text : PortPattern → Chars
  | omitted => []
  | number digits => uchar ':' :: digits
  | all => chars ":*"

def WellFormed : PortPattern → Prop
  | number digits => digits ≠ [] ∧ ∀ c ∈ digits, isDigitChar c = true
  | _ => True

/-- A port that the URL does not write is the default port of its scheme. -/
def Matches (u : URL) : PortPattern → Prop
  | omitted => ∀ n ∈ u.writtenPort, (n : ℤ) = defaultPort t u.protocol
  | number digits =>
    u.writtenPort = some (digitsValue digits) ∨
      (u.writtenPort = none ∧ (digitsValue digits : ℤ) = defaultPort t u.protocol)
  | all => True

end PortPattern

/-- The path of the URL is below a path that ends in a slash, or equal. -/
def PathMatches (u : URL) (path : Chars) : Prop :=
  if (decodeURLEscapeSequences t path).getLast? = some (uchar '/') then
    decodeURLEscapeSequences t path <+: decodeURLEscapeSequences t u.path
  else decodeURLEscapeSequences t u.path = decodeURLEscapeSequences t path

def IsScheme (scheme : Chars) : Prop := parseScheme scheme = some scheme

/-- The expression that a word is. -/
inductive Writes : Chars → SourceExpression → Prop
  | self {word} (h : equalIgnoringCase t (chars "'self'") word) : Writes word .self
  | scheme {scheme} (h : IsScheme scheme) : Writes (scheme ++ chars ":") (.scheme scheme)
  | schemeSlashes {scheme} (h : IsScheme scheme) :
      Writes (scheme ++ chars "://") (.scheme scheme)
  | host {scheme host port path ignored} (hscheme : ∀ s ∈ scheme, IsScheme s) (hhost : host.WellFormed)
      (hport : port.WellFormed)
      (hpath : ∀ p ∈ path, p.head? = some (uchar '/') ∧ ∀ c ∈ p, isPathComponentCharacter c = true)
      (hignored : ∀ c ∈ ignored.head?, isPathComponentCharacter c = false ∧ path ≠ none) :
      Writes ((scheme.elim [] (· ++ chars "://")) ++ (host.text ++ (port.text ++
        (path.getD [] ++ ignored)))) (.host scheme host port path)

/-- Every part that is written is met. -/
def SourceExpression.Matches (page : SecurityOrigin) (u : URL) : SourceExpression → Prop
  | self =>
    equalIgnoringCase t u.protocol page.protocol ∧ equalIgnoringCase t (u.host t) page.host ∧
      (if page.port = 0 then PortPattern.omitted.Matches t u
      else u.writtenPort = some page.port.toNat ∨
        (u.writtenPort = none ∧ page.port = defaultPort t u.protocol))
  | .scheme s => equalIgnoringCase t u.protocol s
  | .host s name port path =>
    equalIgnoringCase t u.protocol (s.getD page.protocol) ∧ name.Matches t (u.host t) ∧
      port.Matches t u ∧ ∀ p ∈ path, PathMatches t u p

/-! ### Parsing -/

namespace HostPattern

def host : HostPattern → Chars
  | all => []
  | exact host => host
  | subdomains host => host

def hasWildcard : HostPattern → Bool
  | exact _ => false
  | _ => true

end HostPattern

namespace PortPattern

def value : PortPattern → ℤ
  | number digits => digitsValue digits
  | _ => 0

def hasWildcard : PortPattern → Bool
  | all => true
  | _ => false

end PortPattern

/-- The source that the parser makes of an expression with a host. -/
def hostSource (scheme : Option Chars) (host : HostPattern) (port : PortPattern)
    (path : Option Chars) : CSPSource :=
  ⟨scheme.getD [], host.host, port.value, path.elim [] (decodeURLEscapeSequences t), host.hasWildcard,
    port.hasWildcard⟩

/-- A path as expressions write it, or none, with what is ignored behind it. -/
structure PathText (path : Option Chars) (ignored : Chars) : Prop where
  component : ∀ p ∈ path, p.head? = some (uchar '/') ∧ ∀ c ∈ p, isPathComponentCharacter c = true
  stops : ∀ c ∈ ignored.head?, isPathComponentCharacter c = false ∧ path ≠ none

variable {text host after s rest scheme a word : Chars} {wildcard : Bool} {p : UInt16 → Bool}
  {c : UInt16} {source : CSPSource}

theorem parseHost_sound (h : parseHost text = some (host,wildcard)) :
    ∃ p : HostPattern, p.WellFormed ∧ text = p.text ∧ host = p.host ∧ wildcard = p.hasWildcard := by
  cases text with
  | nil => cases h
  | cons c rest =>
    unfold parseHost at h
    dsimp only at h
    split at h
    next hs =>
      subst hs
      cases rest with
      | nil =>
        cases h
        exact ⟨.all,trivial,rfl,rfl,rfl⟩
      | cons d name =>
        dsimp only at h
        split at h
        next hd =>
          cases h
          rw [Bool.and_eq_true,decide_eq_true_iff] at hd
          obtain ⟨rfl,hl⟩ := hd
          exact ⟨.subdomains host,hl,rfl,rfl,rfl⟩
        next => cases h
    next =>
      split at h
      next hl =>
        cases h
        exact ⟨.exact (c::rest),⟨hl,cons_ne_nil _ _⟩,rfl,rfl,rfl⟩
      next => cases h

theorem parsePort_sound {port : Chars} {n : ℤ} (h : parsePort t port = some (n,wildcard)) :
    ∃ p : PortPattern, p.WellFormed ∧ uchar ':'::port = p.text ∧ n = p.value ∧
      wildcard = p.hasWildcard := by
  unfold parsePort at h
  split at h
  next => cases h
  next hne =>
    split at h
    next hs =>
      cases h
      exact ⟨.all,trivial,by rw [hs]; rfl,rfl,rfl⟩
    next =>
      split at h
      next hd =>
        have ha := all_eq_true.mp hd
        rw [charactersToIntStrict,toIntegralType_of_digits t true _ ha hne] at h
        obtain ⟨m,hm,⟨⟩⟩ := Option.map_eq_some_iff.mp h
        split at hm
        next => exact ⟨.number port,⟨hne,ha⟩,rfl,(Option.some.inj hm).symm,rfl⟩
        next => cases hm
      next => cases h

/-- The rest of a word behind host and port. -/
theorem parsePath_sound (h : ∀ c ∈ text.head?, c = uchar '/') :
    ∃ path ignored, text = path.getD []++ignored ∧ PathText path ignored ∧
      (if text = [] then [] else parsePath t text) = path.elim [] (decodeURLEscapeSequences t) := by
  cases text with
  | nil => exact ⟨none,[],rfl,⟨by simp,by simp⟩,rfl⟩
  | cons c rest =>
    obtain rfl := h c rfl
    refine ⟨some ((uchar '/'::rest).takeWhile isPathComponentCharacter),
      (uchar '/'::rest).dropWhile isPathComponentCharacter,
      (takeWhile_append_dropWhile (p := isPathComponentCharacter)).symm,⟨?_,?_⟩,rfl⟩
    · rintro p ⟨⟩
      exact ⟨rfl,fun c hc => mem_takeWhile_imp hc⟩
    · intro c hc
      exact ⟨head?_dropWhile_eq hc,Option.some_ne_none _⟩

theorem parseOptionalPort_sound {pathText : Chars} {n : ℤ}
    (hr : ∀ c ∈ rest.head?, c = uchar ':' ∨ c = uchar '/')
    (h : parseOptionalPort t rest = some (n,wildcard,pathText)) :
    ∃ port : PortPattern, port.WellFormed ∧ rest = port.text++pathText ∧
      (∀ c ∈ pathText.head?, c = uchar '/') ∧ n = port.value ∧ wildcard = port.hasWildcard := by
  unfold parseOptionalPort at h
  split at h
  next hcol =>
    obtain ⟨⟨m,w⟩,hp,⟨⟩⟩ := Option.map_eq_some_iff.mp h
    obtain ⟨port,hwf,ht,hn,hw⟩ := parsePort_sound t hp
    refine ⟨port,hwf,?_,?_,hn,hw⟩
    · rw [← ht,cons_append,takeWhile_append_dropWhile,cons_head?_tail hcol]
    · intro c hc
      simpa using head?_dropWhile_eq hc
  next hcol =>
    cases h
    refine ⟨.omitted,trivial,rfl,?_,rfl,rfl⟩
    intro c hc
    refine (hr c hc).resolve_left ?_
    rintro rfl
    exact hcol hc

theorem parseHostSource_sound (h : parseHostSource t scheme text = some source) :
    ∃ (host : HostPattern) (port : PortPattern) (path : Option Chars) (ignored : Chars),
      host.WellFormed ∧ port.WellFormed ∧ PathText path ignored ∧
      text = host.text++(port.text++(path.getD []++ignored)) ∧
      source = {hostSource t none host port path with scheme := scheme} := by
  obtain ⟨⟨name,nameWildcard⟩,hhost,h₁⟩ := Option.bind_eq_some_iff.mp h
  obtain ⟨⟨n,portWildcard,pathText⟩,hport,h₂⟩ := Option.bind_eq_some_iff.mp h₁
  obtain ⟨host,hwf,ht,rfl,rfl⟩ := parseHost_sound hhost
  have hr : ∀ c ∈ (text.dropWhile isNotColonOrSlash).head?, c = uchar ':' ∨ c = uchar '/' := by
    intro c hc
    simpa [isNotColonOrSlash,or_iff_not_imp_left] using head?_dropWhile_eq hc
  obtain ⟨port,hp,hportText,hs,rfl,rfl⟩ := parseOptionalPort_sound t hr hport
  obtain ⟨path,ignored,hpathText,hpath,hpathValue⟩ := parsePath_sound t hs
  refine ⟨host,port,path,ignored,hwf,hp,hpath,?_,?_⟩
  · rw [← hpathText,← hportText,← ht,takeWhile_append_dropWhile]
  · cases h₂
    rw [hpathValue]
    rfl

theorem parseScheme_sound (h : parseScheme text = some scheme) : text = scheme ∧ IsScheme text := by
  have heq : text = scheme := by
    cases text with
    | nil => cases h
    | cons c rest =>
      unfold parseScheme at h
      dsimp only at h
      split at h
      next => exact Option.some.inj h
      next => cases h
  subst heq
  exact ⟨rfl,h⟩

/-- The parser reads a word as the expression that it writes. -/
def Reads (word : Chars) (source : CSPSource) : Prop :=
  (∃ s, Writes t word (.scheme s) ∧ source = schemeSource s) ∨
    ∃ s host port path, Writes t word (.host s host port path) ∧
      source = hostSource t s host port path

section
variable {word : Chars} {source : CSPSource}

theorem parseHostSource_reads (h : parseHostSource t [] word = some source) :
    Reads t word source := by
  obtain ⟨host,port,path,ignored,h₁,h₂,h₃,rfl,rfl⟩ := parseHostSource_sound t h
  have hscheme : ∀ s ∈ (none : Option Chars), IsScheme s := by simp
  exact .inr ⟨none,host,port,path,.host hscheme h₁ h₂ h₃.component h₃.stops,rfl⟩

theorem parseAfterSlash_reads (hs : IsScheme scheme)
    (h : parseAfterSlash t scheme after = some source) :
    Reads t (scheme++uchar ':'::uchar '/'::after) source := by
  cases after with
  | nil => cases h
  | cons c text =>
    unfold parseAfterSlash at h
    dsimp only at h
    split at h
    next hslash =>
      subst hslash
      split at h
      next hn =>
        subst hn
        cases h
        exact .inl ⟨scheme,.schemeSlashes hs,rfl⟩
      next =>
        obtain ⟨host,port,path,ignored,h₁,h₂,h₃,rfl,rfl⟩ := parseHostSource_sound t h
        have hscheme : ∀ s ∈ some scheme, IsScheme s := by
          rintro s ⟨⟩
          exact hs
        have hw := Writes.host (t := t) hscheme h₁ h₂ h₃.component h₃.stops
        rw [Option.elim_some,append_assoc] at hw
        exact .inr ⟨some scheme,host,port,path,hw,rfl⟩
    next => cases h

theorem parseAfterColon_reads {start : Chars} (hw : word = start++uchar ':'::after)
    (h : parseAfterColon t start word after = some source) : Reads t word source := by
  cases after with
  | nil =>
    obtain ⟨s,hscheme,rfl⟩ := Option.map_eq_some_iff.mp h
    obtain ⟨rfl,hs⟩ := parseScheme_sound hscheme
    rw [hw]
    exact .inl ⟨_,.scheme hs,rfl⟩
  | cons c after =>
    unfold parseAfterColon at h
    dsimp only at h
    split at h
    next hslash =>
      obtain ⟨s,hscheme,ha⟩ := Option.bind_eq_some_iff.mp h
      obtain ⟨rfl,hs⟩ := parseScheme_sound hscheme
      rw [hw,hslash]
      exact parseAfterSlash_reads t hs ha
    next => exact parseHostSource_reads t h

theorem parseSourceExpression_reads (h : parseSourceExpression t word = some source) :
    Reads t word source := by
  have hs := takeWhile_append_dropWhile (p := isNotColonOrSlash) (l := word)
  unfold parseSourceExpression at h
  split at h
  next => exact parseHostSource_reads t h
  next c after hr =>
    split at h
    next hc =>
      rw [hr,hc] at hs
      exact parseAfterColon_reads t hs.symm h
    next => cases h

end

/-! ### Words are read in one way only -/

theorem isNotColonOrSlash_of (hcol : p (uchar ':') = false)
    (hs : p (uchar '/') = false) (h : p c) : isNotColonOrSlash c := by
  by_contra hn
  have hc : c = uchar ':' ∨ c = uchar '/' := by
    simpa [isNotColonOrSlash,or_iff_not_imp_left] using hn
  rcases hc with rfl | rfl
  · rw [hcol] at h
    cases h
  · rw [hs] at h
    cases h

theorem isNotColonOrSlash_of_isHostCharacter (h : isHostCharacter c) :
    isNotColonOrSlash c := isNotColonOrSlash_of (by decide) (by decide) h

theorem isNotColonOrSlash_of_hostLabels {atStart : Bool}
    (h : hostLabels atStart host) : ∀ c ∈ host, isNotColonOrSlash c := by
  induction host generalizing atStart with
  | nil => simp
  | cons d rest ih =>
    have hd : isNotColonOrSlash d ∧ ∃ next, hostLabels next rest := by
      cases atStart with
      | true =>
        rw [hostLabels,Bool.and_eq_true] at h
        exact ⟨isNotColonOrSlash_of_isHostCharacter h.1,false,h.2⟩
      | false =>
        rw [hostLabels] at h
        split at h
        next hc => exact ⟨isNotColonOrSlash_of_isHostCharacter hc,false,h⟩
        next =>
          rw [Bool.and_eq_true,decide_eq_true_iff] at h
          obtain ⟨rfl,hr⟩ := h
          exact ⟨by decide,true,hr⟩
    obtain ⟨hd,next,hr⟩ := hd
    exact forall_mem_cons.mpr ⟨hd,ih hr⟩

section Complete
variable {name : HostPattern} {port : PortPattern} {path : Option Chars} {ignored : Chars}

theorem HostPattern.text_ne_nil (h : name.WellFormed) : name.text ≠ [] := by
  cases name with
  | all => exact cons_ne_nil _ _
  | exact host => exact h.2
  | subdomains host => exact cons_ne_nil _ _

theorem HostPattern.isNotColonOrSlash_text (h : name.WellFormed) :
    ∀ c ∈ name.text, isNotColonOrSlash c := by
  cases name with
  | all => exact all_eq_true.mp (show (chars "*").all isNotColonOrSlash by decide)
  | exact host => exact isNotColonOrSlash_of_hostLabels h.1
  | subdomains host =>
    have hs : (chars "*.").all isNotColonOrSlash := by decide
    exact forall_mem_append.mpr ⟨all_eq_true.mp hs,isNotColonOrSlash_of_hostLabels h⟩

theorem parseHost_text (h : name.WellFormed) :
    parseHost name.text = some (name.host,name.hasWildcard) := by
  cases name with
  | all => rfl
  | exact host =>
    obtain ⟨hl,hne⟩ := h
    cases host with
    | nil => exact absurd rfl hne
    | cons c rest =>
      have hs : c ≠ uchar '*' := by
        rintro rfl
        rw [hostLabels] at hl
        revert hl
        rw [show isHostCharacter (uchar '*') = false from by decide]
        simp
      simp only [HostPattern.text,parseHost,if_neg hs,hl,if_true]
      rfl
  | subdomains host =>
    have hl : hostLabels true host := h
    show parseHost (uchar '*'::uchar '.'::host) = _
    simp only [parseHost,if_true,hl,decide_true,Bool.and_self]
    rfl

/-- What may follow the port. -/
def EndsHost (rest : Chars) : Prop := ∀ c ∈ rest.head?, c = uchar '/'

theorem PathText.endsHost (h : PathText path ignored) : EndsHost (path.getD []++ignored) := by
  cases path with
  | none =>
    intro c hc
    exact absurd rfl (h.stops c hc).2
  | some p =>
    obtain ⟨rest,rfl⟩ := head?_eq_some_iff.mp (h.component p rfl).1
    rintro _ ⟨⟩
    rfl

theorem parsePath_text (h : PathText path ignored) :
    (if path.getD []++ignored = [] then [] else parsePath t (path.getD []++ignored)) =
      path.elim [] (decodeURLEscapeSequences t) := by
  cases path with
  | none =>
    cases ignored with
    | nil => rfl
    | cons c rest => exact absurd rfl (h.stops c rfl).2
  | some p =>
    have ht : (p++ignored).takeWhile isPathComponentCharacter = p :=
      (takeWhile_dropWhile_append (h.component p rfl).2 fun c hc => (h.stops c hc).1).1
    have hne : p++ignored ≠ [] := by
      obtain ⟨rest,rfl⟩ := head?_eq_some_iff.mp (h.component p rfl).1
      exact cons_ne_nil _ _
    rw [Option.getD_some,if_neg hne,parsePath,ht]
    rfl

theorem takeWhile_ne_slash (ha : ∀ c ∈ a, c ≠ uchar '/') (hr : EndsHost rest) :
    (a++rest).takeWhile (· ≠ uchar '/') = a ∧ (a++rest).dropWhile (· ≠ uchar '/') = rest := by
  apply takeWhile_dropWhile_append
  · intro c hc
    exact decide_eq_true (ha c hc)
  · intro c hc
    rw [hr c hc]
    decide

theorem parsePort_digits {digits : Chars} (hne : digits ≠ []) (hd : ∀ c ∈ digits, isDigitChar c) :
    parsePort t digits =
      if digitsValue digits ≤ 2^31-1 then some ((digitsValue digits : ℤ),false) else none := by
  have hs : digits ≠ [uchar '*'] := by
    rintro rfl
    have hf := hd (uchar '*') (by simp)
    revert hf
    decide
  rw [parsePort,if_neg hne,if_neg hs,if_pos (all_eq_true.mpr hd),
    charactersToIntStrict,toIntegralType_of_digits t true _ hd hne]
  split
  next => rfl
  next => rfl

theorem parseOptionalPort_colon (ha : ∀ c ∈ a, c ≠ uchar '/') (hr : EndsHost rest) :
    parseOptionalPort t (uchar ':'::(a++rest)) =
      (parsePort t a).map fun (n,wildcard) => (n,wildcard,rest) := by
  obtain ⟨ht,hd⟩ := takeWhile_ne_slash ha hr
  rw [parseOptionalPort,head?_cons,if_pos rfl,tail_cons,ht,hd]

/-- A number that is too large is refused. -/
theorem parseOptionalPort_text (h : port.WellFormed) (hr : EndsHost rest) :
    parseOptionalPort t (port.text++rest) =
      if port.value.toNat ≤ 2^31-1 then some (port.value,port.hasWildcard,rest) else none := by
  cases port with
  | omitted =>
    have hcol : rest.head? ≠ some (uchar ':') := by
      intro heq
      have hs := hr _ heq
      revert hs
      decide
    exact if_neg hcol
  | number digits =>
    obtain ⟨hne,hd⟩ := h
    have hs : ∀ c ∈ digits, c ≠ uchar '/' := by
      rintro c hc rfl
      have hf := hd _ hc
      revert hf
      decide
    rw [PortPattern.text,cons_append,parseOptionalPort_colon t hs hr,parsePort_digits t hne hd]
    exact apply_ite _ _ _ _
  | all =>
    have hs : ∀ c ∈ [uchar '*'], c ≠ uchar '/' := by
      intro c hc
      rw [mem_singleton.mp hc]
      decide
    exact parseOptionalPort_colon t hs hr

theorem parseHostSource_text (hn : name.WellFormed) (hport : port.WellFormed)
    (hpath : PathText path ignored) :
    parseHostSource t scheme (name.text++(port.text++(path.getD []++ignored))) =
      if port.value.toNat ≤ 2^31-1 then some {hostSource t none name port path with scheme := scheme}
      else none := by
  have he := hpath.endsHost
  have hstop : ∀ c ∈ (port.text++(path.getD []++ignored)).head?, isNotColonOrSlash c = false := by
    intro c hc
    cases port with
    | omitted =>
      rw [he c hc]
      decide
    | number digits | all =>
      cases hc
      decide
  obtain ⟨ht,hd⟩ := takeWhile_dropWhile_append (HostPattern.isNotColonOrSlash_text hn) hstop
  rw [parseHostSource,ht,hd,parseHost_text hn,parseOptionalPort_text t hport he]
  split
  next =>
    simp only [Option.bind_eq_bind,Option.bind_some,parsePath_text t hpath]
    rfl
  next => rfl

theorem IsScheme.isNotColonOrSlash (h : IsScheme scheme) : ∀ c ∈ scheme, isNotColonOrSlash c := by
  cases scheme with
  | nil => cases h
  | cons c rest =>
    unfold IsScheme parseScheme at h
    dsimp only at h
    split at h
    next ha =>
      rw [Bool.and_eq_true,all_eq_true] at ha
      exact forall_mem_cons.mpr ⟨isNotColonOrSlash_of (by decide) (by decide) ha.1,
        fun d hd => isNotColonOrSlash_of (by decide) (by decide) (ha.2 d hd)⟩
    next => cases h

/-- Behind a scheme with its colon. -/
theorem parseSourceExpression_scheme (after : Chars) (hs : IsScheme s) :
    parseSourceExpression t (s++uchar ':'::after) =
      parseAfterColon t s (s++uchar ':'::after) after := by
  have hstop : ∀ c ∈ (uchar ':'::after).head?, isNotColonOrSlash c = false := by
    rintro _ ⟨⟩
    decide
  obtain ⟨ht,hd⟩ := takeWhile_dropWhile_append hs.isNotColonOrSlash hstop
  unfold parseSourceExpression
  rw [ht,hd]
  exact if_pos rfl

theorem parseSourceExpression_host (hn : name.WellFormed) (hport : port.WellFormed)
    (hp : port = .omitted → rest = []) :
    parseSourceExpression t (name.text++(port.text++rest)) =
      parseHostSource t [] (name.text++(port.text++rest)) := by
  have hcol : ∀ after, (∀ c ∈ after.head?, c ≠ uchar '/') → after ≠ [] →
      parseSourceExpression t (name.text++uchar ':'::after) =
        parseHostSource t [] (name.text++uchar ':'::after) := by
    intro after ha hne
    have hs : ∀ c ∈ (uchar ':'::after).head?, isNotColonOrSlash c = false := by
      rintro _ ⟨⟩
      decide
    obtain ⟨ht,hd⟩ := takeWhile_dropWhile_append (HostPattern.isNotColonOrSlash_text hn) hs
    unfold parseSourceExpression
    rw [ht,hd]
    cases after with
    | nil => exact absurd rfl hne
    | cons c after => exact (if_pos rfl).trans (if_neg (ha c rfl))
  cases port with
  | omitted =>
    have hd := dropWhile_eq_nil_iff.mpr (HostPattern.isNotColonOrSlash_text hn)
    unfold parseSourceExpression
    rw [hp rfl,PortPattern.text,append_nil,append_nil,hd]
  | number digits =>
    obtain ⟨hne,hdigs⟩ := hport
    apply hcol
    · cases digits with
      | nil => exact absurd rfl hne
      | cons d digits =>
        rintro c hc rfl
        have hf := hdigs d mem_cons_self
        rw [Option.some.inj hc] at hf
        revert hf
        decide
    · exact append_ne_nil_of_left_ne_nil hne _
  | all =>
    apply hcol
    · rintro _ ⟨⟩
      decide
    · exact cons_ne_nil _ _

theorem parseSourceExpression_schemeSlashes (rest : Chars) (hs : IsScheme s) :
    parseSourceExpression t (s++uchar ':'::uchar '/'::uchar '/'::rest) =
      if rest = [] then some (schemeSource s) else parseHostSource t s rest := by
  have hp : parseScheme s = some s := hs
  rw [parseSourceExpression_scheme t _ hs]
  simp [parseAfterColon,hp,parseAfterSlash]

theorem Writes.keyword (h : Writes t word .self) :
    equalIgnoringCase t (chars "'self'") word := by
  cases h with
  | self h => exact h

/-- A word is read as what it writes. -/
theorem Writes.parse_scheme (h : Writes t word (.scheme s)) :
    parseSourceExpression t word = some (schemeSource s) := by
  cases h with
  | scheme hs =>
    have hw := parseSourceExpression_scheme t [] hs
    rw [parseAfterColon, show parseScheme s = some s from hs] at hw
    exact hw
  | schemeSlashes hs => exact parseSourceExpression_schemeSlashes t [] hs

theorem Writes.parse_host {s : Option Chars} (h : Writes t word (.host s name port path))
    (hs : s = none → port = .omitted → path = none) :
    parseSourceExpression t word =
      if port.value.toNat ≤ 2^31-1 then some (hostSource t s name port path) else none := by
  cases h with
  | @host _ _ _ _ ignored hscheme hn hport hpath hignored =>
    have hp := PathText.mk hpath hignored
    cases s with
    | none =>
      rw [Option.elim_none,nil_append,parseSourceExpression_host t hn hport]
      · exact parseHostSource_text t hn hport hp
      · intro ho
        obtain rfl := hs rfl ho
        exact head?_eq_none_iff.mp (Option.eq_none_iff_forall_not_mem.mpr fun c hc =>
          (hignored c hc).2 rfl)
    | some s =>
      have hne : name.text++(port.text++(path.getD []++ignored)) ≠ [] :=
        append_ne_nil_of_left_ne_nil (HostPattern.text_ne_nil hn) _
      have hw := parseSourceExpression_schemeSlashes t
        (name.text++(port.text++(path.getD []++ignored))) (hscheme s rfl)
      rw [if_neg hne,parseHostSource_text t hn hport hp] at hw
      rw [Option.elim_some,append_assoc]
      exact hw

theorem Writes.parse_hostPath {p : Chars} (h : Writes t word (.host none name .omitted (some p))) :
    parseSourceExpression t word = none := by
  cases h with
  | @host _ _ _ _ ignored _ hn _ hpath _ =>
    obtain ⟨rest,rfl⟩ := head?_eq_some_iff.mp (hpath p rfl).1
    have hs : ∀ c ∈ (uchar '/'::(rest++ignored)).head?, isNotColonOrSlash c = false := by
      rintro _ ⟨⟩
      decide
    obtain ⟨-,hd⟩ := takeWhile_dropWhile_append (HostPattern.isNotColonOrSlash_text hn) hs
    unfold parseSourceExpression
    simp only [Option.elim_none,nil_append,PortPattern.text,Option.getD_some,cons_append,hd]
    exact if_neg (by decide)

/-- A path directly behind a host without a scheme is refused, and so is a number that is too large. -/
theorem Writes.parse_host_eq_some_iff {s : Option Chars}
    (h : Writes t word (.host s name port path)) :
    parseSourceExpression t word = some source ↔ source = hostSource t s name port path ∧
      port.value.toNat ≤ 2 ^ 31 - 1 ∧ (s = none → port = .omitted → path = none) := by
  by_cases hs : s = none → port = .omitted → path = none
  · rw [h.parse_host t hs]
    split
    next hle =>
      rw [Option.some.injEq, eq_comm]
      exact (and_iff_left ⟨hle, hs⟩).symm
    next hlt => exact iff_of_false nofun fun hk => hlt hk.2.1
  · obtain ⟨rfl, rfl, hne⟩ : s = none ∧ port = .omitted ∧ path ≠ none := by simpa using hs
    obtain ⟨p, rfl⟩ := Option.ne_none_iff_exists'.mp hne
    rw [h.parse_hostPath]
    exact iff_of_false nofun fun hk => hs hk.2.2

end Complete

end QPlusWeb.WebCore
