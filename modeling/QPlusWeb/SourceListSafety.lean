import QPlusWeb.SourceExpressions

/-!
# A source list allows only what it says

The matcher takes a URL for an expression of the list if the parts that it compares are met.  A wildcard
alone for the host is taken for a source without a host, and port and path are not looked at then; the
port 0 and numbers beyond 16 bits stand for others; and a word that is only the beginning of a keyword is
taken for the keyword.  Where nothing of this plays a part, the URL meets the expression in every part.
-/

namespace QPlusWeb.WebCore

open ListScans List CSPSource

variable (t : TextLibrary) {l : CSPSourceList} {name : HostPattern} {p : Option ℕ}

/-! ### What is compared -/

/-- Ports as they are compared: 0 stands for none, and a default port is compared in 16 bits. -/
def PortTaken (u : URL) (n : ℤ) : Prop :=
  u.port t = n ∨ (u.port t = 0 ∧ isDefaultPortForProtocol t n u.protocol = true) ∨
    (n = 0 ∧ isDefaultPortForProtocol t (u.port t) u.protocol = true)

/-- Paths as they are compared, a prefix without regard to case. -/
def PathTaken (u : URL) (path : Chars) : Prop :=
  if (decodeURLEscapeSequences t path).getLast? = some (uchar '/') then
    startsWithIgnoringCase t (decodeURLEscapeSequences t u.path)
      (decodeURLEscapeSequences t path) = true
  else decodeURLEscapeSequences t u.path = decodeURLEscapeSequences t path

namespace SourceExpression

/-- The URL is taken for one that meets the expression. -/
def Taken (page : SecurityOrigin) (u : URL) : SourceExpression → Prop
  | self =>
    equalIgnoringCase t u.protocol page.protocol = true ∧
      (page.host = [] ∨ equalIgnoringCase t (u.host t) page.host = true ∧ PortTaken t u page.port)
  | .scheme s => equalIgnoringCase t u.protocol s = true
  | .host s name port path =>
    equalIgnoringCase t u.protocol (s.getD page.protocol) = true ∧
      -- with a wildcard alone nothing else is compared
      (name.host = [] ∨ name.Matches t (u.host t) ∧ (port = .all ∨ PortTaken t u port.value) ∧
        ∀ p ∈ path, PathTaken t u p)

/-- The forms of which every part is compared as it is written. -/
def Clear (page : SecurityOrigin) (u : URL) : SourceExpression → Prop
  | self => page.host ≠ [] ∧ 0 ≤ page.port ∧ page.port < 0xFFFF
  | .scheme _ => True
  | .host _ name port path =>
    (name.host = [] → name = .all ∧ port = .all ∧ path = none) ∧
    (∀ digits, port = .number digits → 0 < digitsValue digits ∧ digitsValue digits < 0xFFFF) ∧
    ∀ p ∈ path, startsWithIgnoringCase t (decodeURLEscapeSequences t u.path)
        (decodeURLEscapeSequences t p) = true →
      decodeURLEscapeSequences t p <+: decodeURLEscapeSequences t u.path

/-- The source that stands for an expression. -/
def source (page : SecurityOrigin) : SourceExpression → CSPSource
  | self => ⟨page.protocol, page.host, page.port, [], false, false⟩
  | .scheme s => schemeSource s
  | .host s name port path => hostSource t s name port path

end SourceExpression

/-! ### Matching -/

section
variable {page : SecurityOrigin} {u : URL} {source : CSPSource}

theorem defaultPort_mem (protocol : Chars) : defaultPort t protocol ∈ [0,80,443,21,990] := by
  exact ite_mem (by simp) (ite_mem (by simp) (ite_mem (by simp) (ite_mem (by simp) (by simp))))

theorem defaultPort_of_isDefault {port : ℤ} {protocol : Chars}
    (h : isDefaultPortForProtocol t port protocol) : defaultPort t protocol = port % 2^16 := by
  rw [isDefaultPortForProtocol,Bool.and_eq_true] at h
  exact of_decide_eq_true h.2

/-- What the port of a source allows, with 0 for no port. -/
def PortAllows (u : URL) (n : ℤ) : Prop :=
  if n = 0 then PortPattern.omitted.Matches t u
  else u.writtenPort = some n.toNat ∨ (u.writtenPort = none ∧ n = defaultPort t u.protocol)

theorem portNumber_eq_zero (h : portNumber p = 0) (hz : p ≠ some 0) : p = none := by
  cases p with
  | none => rfl
  | some n =>
    unfold portNumber at h
    dsimp only at h
    split at h
    next =>
      have hn : n = 0 := by omega
      exact absurd (congrArg some hn) hz
    next => cases h

theorem portNumber_eq_of_lt {n : ℤ} (h : portNumber p = n) (hn : n ≠ 0)
    (hlt : n < 0xFFFF) : p = some n.toNat := by
  cases p with
  | none => exact absurd h.symm hn
  | some m =>
    unfold portNumber at h
    dsimp only at h
    split at h
    next =>
      have hm : m = n.toNat := by omega
      rw [hm]
    next => omega

theorem portMatches_iff (hwild : source.portHasWildcard = false) :
    source.portMatches t u ↔ PortTaken t u source.port := by
  unfold portMatches PortTaken
  rw [hwild, if_neg (by decide)]
  by_cases heq : u.port t = source.port
  · simp [heq]
  · by_cases hnone : u.port t = 0
    · have hne : source.port ≠ 0 := fun h => heq (hnone.trans h.symm)
      simp [hnone, hne, hne.symm]
    · by_cases hz : source.port = 0
      · simp [hz, hnone]
      · simp [heq, hnone, hz]

theorem PortTaken.allows {n : ℤ} (h : PortTaken t u n) (hu : HasPort u)
    (hz : u.writtenPort ≠ some 0) (hnonneg : 0 ≤ n) (hlt : n < 0xFFFF) : PortAllows t u n := by
  have hp := hu.port_eq t
  have hd := defaultPort_mem t u.protocol
  simp only [mem_cons, not_mem_nil, or_false] at hd
  unfold PortAllows
  by_cases hnone : u.port t = 0
  · have hw := portNumber_eq_zero (hp ▸ hnone) hz
    split
    next => simp [PortPattern.Matches, hw]
    next hne =>
      obtain heq | ⟨-, hv⟩ | ⟨hn, -⟩ := h
      · exact absurd (heq.symm.trans hnone) hne
      · have hv' := defaultPort_of_isDefault t hv
        exact .inr ⟨hw, by omega⟩
      · exact absurd hn hne
  · split
    next hs =>
      obtain heq | ⟨hn, -⟩ | ⟨-, hv⟩ := h
      · exact absurd (heq.trans hs) hnone
      · exact absurd hn hnone
      · have hv' := defaultPort_of_isDefault t hv
        intro m hm
        rw [hp, Option.mem_def.mp hm] at hv' hnone
        unfold portNumber at hv'
        dsimp only at hv'
        split at hv'
        next => omega
        next => omega
    next hne =>
      left
      obtain heq | ⟨hn, -⟩ | ⟨hn, -⟩ := h
      · exact portNumber_eq_of_lt (hp ▸ heq) hne hlt
      · exact absurd hn hnone
      · exact absurd hn hne

theorem exists_labels (s : Chars) : ∃ labels : List Chars, (∀ l ∈ labels, uchar '.' ∉ l) ∧
    labels.flatMap (· ++ [uchar '.']) = s++[uchar '.'] := by
  induction s with
  | nil => exact ⟨[[]],by simp,rfl⟩
  | cons c s ih =>
    obtain ⟨labels,hl,heq⟩ := ih
    by_cases hc : c = uchar '.'
    · refine ⟨[]::labels,forall_mem_cons.mpr ⟨by simp,hl⟩,?_⟩
      rw [flatMap_cons,heq,hc]
      rfl
    · cases labels with
      | nil => cases s <;> cases heq
      | cons l ls =>
        refine ⟨(c::l)::ls,?_,?_⟩
        · rw [forall_mem_cons] at hl ⊢
          exact ⟨by simp [hl.1,Ne.symm hc],hl.2⟩
        · rw [flatMap_cons] at heq ⊢
          rw [cons_append,cons_append,heq]
          rfl

theorem equalIgnoringCase_append {a a' b b' : Chars} (h : equalIgnoringCase t a a')
    (h' : equalIgnoringCase t b b') : equalIgnoringCase t (a++b) (a'++b') := by
  simp only [equalIgnoringCase,decide_eq_true_iff] at h h' ⊢
  rw [map_append,map_append,h,h']

theorem equalIgnoringCase_refl (a : Chars) : equalIgnoringCase t a a := decide_eq_true rfl

theorem endsWith_sound {name host : Chars} (h : endsWithIgnoringCase t name (uchar '.'::host)) :
    (HostPattern.subdomains host).Matches t name := by
  unfold endsWithIgnoringCase at h
  rw [Bool.and_eq_true] at h
  obtain ⟨labels,hl,hf⟩ := exists_labels (name.take (name.length-(uchar '.'::host).length))
  refine ⟨labels,hl,?_⟩
  have hb := equalIgnoringCase_append t (equalIgnoringCase_refl t
    (name.take (name.length-(uchar '.'::host).length))) h.2
  rw [take_append_drop] at hb
  rw [hf,append_assoc]
  exact hb

theorem endsWith_of_labels {host name : Chars} {labels : List Chars} (hne : labels ≠ [])
    (h : equalIgnoringCase t name (labels.flatMap (· ++ [uchar '.']) ++ host)) :
    endsWithIgnoringCase t name (uchar '.' :: host) := by
  obtain ⟨before, last, rfl⟩ : ∃ before last, labels = before ++ [last] :=
    ⟨_, _, (dropLast_append_getLast hne).symm⟩
  rw [flatMap_append, flatMap_singleton, append_assoc, append_assoc, singleton_append,
    ← append_assoc] at h
  generalize flatMap (· ++ [uchar '.']) before ++ last = start at h
  have hm : name.map t.foldCase = start.map t.foldCase ++ (uchar '.' :: host).map t.foldCase := by
    rw [← map_append]
    exact of_decide_eq_true h
  have hlen := congrArg length hm
  rw [length_append, length_map, length_map, length_map] at hlen
  rw [endsWithIgnoringCase, Bool.and_eq_true, decide_eq_true_iff]
  refine ⟨by omega, decide_eq_true ?_⟩
  rw [map_drop, hm, drop_left' (by rw [length_map]; omega)]

theorem hostMatches_iff {host : Chars} (hne : name.host ≠ []) :
    (equalIgnoringCase t host name.host ||
      (name.hasWildcard && endsWithIgnoringCase t host (uchar '.' :: name.host))) ↔
    name.Matches t host := by
  rw [Bool.or_eq_true, Bool.and_eq_true]
  cases name with
  | all => exact absurd rfl hne
  | exact name => simp [HostPattern.hasWildcard, HostPattern.Matches, HostPattern.host]
  | subdomains name =>
    constructor
    · rintro (heq | ⟨-, he⟩)
      · exact ⟨[], by simp, heq⟩
      · exact endsWith_sound t he
    · rintro ⟨labels, -, heq⟩
      cases labels with
      | nil => exact .inl heq
      | cons l labels => exact .inr ⟨rfl, endsWith_of_labels t (cons_ne_nil _ _) heq⟩

theorem pathMatches_iff {path : Option Chars} (hp : ∀ p ∈ path, p.head? = some (uchar '/'))
    (hpath : source.path = path.elim [] (decodeURLEscapeSequences t)) :
    source.pathMatches t u ↔ ∀ p ∈ path, PathTaken t u p := by
  cases path with
  | none => simp [pathMatches, hpath]
  | some p =>
    have hne : decodeURLEscapeSequences t p ≠ [] := by
      obtain ⟨rest, rfl⟩ := head?_eq_some_iff.mp (hp p rfl)
      exact cons_ne_nil _ _
    rw [Option.elim_some] at hpath
    unfold pathMatches
    rw [hpath, if_neg hne]
    by_cases hs : (decodeURLEscapeSequences t p).getLast? = some (uchar '/')
    · simp [PathTaken, hs]
    · simp [PathTaken, hs]

theorem PathTaken.pathMatches {p : Chars} (h : PathTaken t u p)
    (hc : startsWithIgnoringCase t (decodeURLEscapeSequences t u.path)
        (decodeURLEscapeSequences t p) = true →
      decodeURLEscapeSequences t p <+: decodeURLEscapeSequences t u.path) : PathMatches t u p := by
  unfold PathTaken at h
  unfold PathMatches
  split
  next hs => exact hc (by simpa [hs] using h)
  next hs => simpa [hs] using h

theorem matches_hostSource_iff {s path : Option Chars} {port : PortPattern}
    (hsch : ∀ x ∈ s, x ≠ []) (hpath : ∀ p ∈ path, p.head? = some (uchar '/')) :
    (hostSource t s name port path).matches t page u ↔
      (SourceExpression.host s name port path).Taken t page u := by
  unfold CSPSource.matches
  rw [Bool.and_eq_true, Bool.or_eq_true, Bool.and_eq_true, Bool.and_eq_true]
  refine and_congr ?_ ?_
  · unfold CSPSource.schemeMatches
    cases s with
    | none => exact Iff.rfl
    | some x => rw [if_neg (show (hostSource t (some x) name port path).scheme ≠ [] from hsch x rfl)]; rfl
  · by_cases he : name.host = []
    · exact iff_of_true (.inl (decide_eq_true he)) (.inl he)
    · have ho : (hostSource t s name port path).isSchemeOnly = false := decide_eq_false he
      rw [ho]
      simp only [Bool.false_eq_true, he, false_or, and_assoc]
      refine and_congr (hostMatches_iff t he) (and_congr ?_ (pathMatches_iff t hpath rfl))
      cases port with
      | all => exact iff_of_true rfl (.inl rfl)
      | omitted | number digits =>
        rw [portMatches_iff t rfl]
        simp [hostSource]

theorem matches_selfSource_iff :
    (SourceExpression.self.source t page).matches t page u ↔
      SourceExpression.self.Taken t page u := by
  unfold CSPSource.matches
  rw [Bool.and_eq_true, Bool.or_eq_true, Bool.and_eq_true, Bool.and_eq_true,
    portMatches_iff t rfl]
  have hs : CSPSource.schemeMatches t page (SourceExpression.self.source t page) u =
      equalIgnoringCase t u.protocol page.protocol := ite_self _
  rw [hs]
  refine and_congr_right fun _ => or_congr decide_eq_true_iff ?_
  simp [SourceExpression.source, hostMatches, pathMatches]

/-- Where every part is compared as it is written, the URL meets what it is taken for. -/
theorem SourceExpression.Taken.matches_of_clear {e : SourceExpression} (h : e.Taken t page u)
    (hu : HasPort u) (hz : u.writtenPort ≠ some 0) (hc : e.Clear t page u) :
    e.Matches t page u := by
  cases e with
  | self =>
    obtain ⟨hh, hn, hlt⟩ := hc
    obtain ⟨hname, hp⟩ := h.2.resolve_left hh
    exact ⟨h.1, hname, hp.allows t hu hz hn hlt⟩
  | scheme s => exact h
  | host s name port path =>
    obtain ⟨hw, hn, hcase⟩ := hc
    obtain ⟨hs, hr⟩ := h
    by_cases he : name.host = []
    · obtain ⟨rfl, rfl, rfl⟩ := hw he
      exact ⟨hs, trivial, trivial, by simp⟩
    · obtain ⟨hname, hport, hpath⟩ := hr.resolve_left he
      refine ⟨hs, hname, ?_, fun p hp => (hpath p hp).pathMatches t (hcase p hp)⟩
      cases port with
      | all => exact trivial
      | omitted => exact (hport.resolve_left nofun).allows t hu hz (Int.le_refl 0) (by decide)
      | number digits =>
        obtain ⟨hpos, hlt⟩ := hn digits rfl
        have ha := (hport.resolve_left nofun).allows t hu hz (Int.natCast_nonneg (digitsValue digits))
          (show ((digitsValue digits : ℕ) : ℤ) < 0xFFFF by omega)
        simp only [PortPattern.value] at ha
        rw [PortAllows, if_neg (by omega), Int.toNat_natCast] at ha
        exact ha

theorem IsScheme.ne_nil {s : Chars} (h : IsScheme s) : s ≠ [] := by
  rintro rfl
  cases h

theorem Writes.scheme_ne_nil {word s : Chars} (h : Writes t word (.scheme s)) : s ≠ [] := by
  cases h with
  | scheme hs | schemeSlashes hs => exact hs.ne_nil

theorem Writes.host_forms {word : Chars} {s path : Option Chars} {port : PortPattern}
    (h : Writes t word (.host s name port path)) :
    (∀ x ∈ s, x ≠ []) ∧ ∀ p ∈ path, p.head? = some (uchar '/') := by
  cases h with
  | host hscheme _ _ hpath _ =>
    exact ⟨fun x hx => (hscheme x hx).ne_nil, fun p hp => (hpath p hp).1⟩

end

/-! ### The list -/

namespace CSPSourceList

variable (page : SecurityOrigin)

/-- The expression that is kept for a word. -/
inductive Takes (word : Chars) : SourceExpression → Prop
  /-- also for a word that is the beginning of the keyword -/
  | self (hnone : equalsKeyword t (chars "'none'") word = false)
      (h : equalsKeyword t (chars "'self'") word = true) : Takes word .self
  | scheme {s : Chars}
      (hkeyword : ∀ k ∈ ["'none'", "'self'", "'unsafe-inline'", "'unsafe-eval'"],
        equalsKeyword t (chars k) word = false)
      (h : Writes t word (.scheme s)) : Takes word (.scheme s)
  /-- numbers beyond an `int`, a path directly behind a host, and a wildcard alone without a scheme are
  left out -/
  | host {s : Option Chars} {name : HostPattern} {port : PortPattern} {path : Option Chars}
      (hkeyword : ∀ k ∈ ["'none'", "'self'", "'unsafe-inline'", "'unsafe-eval'"],
        equalsKeyword t (chars k) word = false)
      (h : Writes t word (.host s name port path)) (hport : port.value.toNat ≤ 2 ^ 31 - 1)
      (hpath : s = none → port = .omitted → path = none) (hhost : s = none → name.host ≠ []) :
      Takes word (.host s name port path)

/-- The source that a word adds to the list. -/
def wordSource (word : Chars) : Option CSPSource :=
  if equalsKeyword t (chars "'none'") word || word = [uchar '*'] then none
  else if equalsKeyword t (chars "'self'") word then some (SourceExpression.self.source t page)
  else if equalsKeyword t (chars "'unsafe-inline'") word ||
    equalsKeyword t (chars "'unsafe-eval'") word then none
  else (parseSourceExpression t word).filter fun source => source.scheme ≠ [] || source.host ≠ []

theorem list_addSource (word : Chars) :
    (addSource t page l word).list = l.list ++ (wordSource t page word).toList := by
  unfold addSource wordSource
  cases equalsKeyword t (chars "'none'") word with
  | true => simp
  | false =>
    by_cases hstar : word = [uchar '*']
    · simp [hstar]
    · cases equalsKeyword t (chars "'self'") word with
      | true => simp [hstar, addSourceSelf, SourceExpression.source]
      | false =>
        cases equalsKeyword t (chars "'unsafe-inline'") word with
        | true => simp [hstar]
        | false =>
          cases equalsKeyword t (chars "'unsafe-eval'") word with
          | true => simp [hstar]
          | false =>
            cases parseSourceExpression t word with
            | none => simp [hstar]
            | some source =>
              by_cases hkeep : source.scheme = [] ∧ source.host = []
              · simp [hstar, hkeep, Option.filter]
              · simp [hstar, hkeep, Option.filter, not_and_or.mp hkeep]

theorem allowStar_addSource {word : Chars} (h : word ≠ [uchar '*']) :
    (addSource t page l word).allowStar = l.allowStar := by
  unfold addSource addSourceSelf
  split_ifs <;> first | rfl | skip
  split
  next => rfl
  next => split <;> rfl

theorem foldl_addSource (words : List Chars) :
    (words.foldl (addSource t page) l).list = l.list ++ words.filterMap (wordSource t page) ∧
      ([uchar '*'] ∉ words → (words.foldl (addSource t page) l).allowStar = l.allowStar) := by
  induction words generalizing l with
  | nil => simp
  | cons word words ih =>
    obtain ⟨hlist, hstar⟩ := @ih (addSource t page l word)
    constructor
    · rw [foldl_cons, hlist, list_addSource, append_assoc, filterMap_cons]
      cases wordSource t page word <;> rfl
    · intro hn
      rw [mem_cons, not_or] at hn
      rw [foldl_cons, hstar hn.2, allowStar_addSource t page (Ne.symm hn.1)]

theorem parse_list (value : Chars) :
    (parse t page value).list = (sourceWords value).filterMap (wordSource t page) ∧
      ([uchar '*'] ∉ sourceWords value → (parse t page value).allowStar = false) := by
  unfold parse
  split
  next hnone =>
    refine ⟨?_, fun _ => rfl⟩
    unfold isSourceListNone at hnone
    split at hnone
    next hw => simp [hw, empty]
    next word hw => simp [hw, empty, wordSource, hnone]
    next => cases hnone
  next => exact foldl_addSource t page (sourceWords value)

/-- A word of the list other than `*` adds the source of the expression that is kept for it. -/
theorem wordSource_eq_some_iff {word : Chars} {source : CSPSource} (h : word ≠ [uchar '*']) :
    wordSource t page word = some source ↔ ∃ e, Takes t word e ∧ source = e.source t page := by
  constructor
  · intro hw
    unfold wordSource at hw
    split at hw
    next => cases hw
    next hn =>
      simp only [h, decide_false, Bool.or_false, Bool.not_eq_true] at hn
      split at hw
      next hs => exact ⟨.self, .self hn hs, (Option.some.inj hw).symm⟩
      next hs =>
        split at hw
        next => cases hw
        next hu =>
          rw [Bool.or_eq_true, not_or, Bool.not_eq_true, Bool.not_eq_true] at hu
          have hk : ∀ k ∈ ["'none'", "'self'", "'unsafe-inline'", "'unsafe-eval'"],
              equalsKeyword t (chars k) word = false := by
            simpa [hn, hu] using hs
          obtain ⟨hparse, hkeep⟩ := Option.filter_eq_some_iff.mp hw
          obtain ⟨s, hwrites, rfl⟩ | ⟨s, name, port, path, hwrites, rfl⟩ :=
            parseSourceExpression_reads t hparse
          · exact ⟨_, .scheme hk hwrites, rfl⟩
          · obtain ⟨-, hport, hpath⟩ := (hwrites.parse_host_eq_some_iff t).mp hparse
            refine ⟨_, .host hk hwrites hport hpath ?_, rfl⟩
            rintro rfl
            rw [Bool.or_eq_true, decide_eq_true_iff, decide_eq_true_iff] at hkeep
            exact hkeep.resolve_left fun hne => hne rfl
  · rintro ⟨e, ht, rfl⟩
    cases ht with
    | self hnone hs => simp [wordSource, hnone, h, hs]
    | scheme hk hwrites =>
      have hne := hwrites.scheme_ne_nil t
      simp only [mem_cons, not_mem_nil, or_false, forall_eq_or_imp, forall_eq] at hk
      simp [wordSource, hk, h, hwrites.parse_scheme t, SourceExpression.source, schemeSource,
        Option.filter, hne]
    | @host s name port path hk hwrites hport hpath hhost =>
      simp only [mem_cons, not_mem_nil, or_false, forall_eq_or_imp, forall_eq] at hk
      have hparse := (hwrites.parse_host_eq_some_iff t).mpr ⟨rfl, hport, hpath⟩
      have hkeep : (hostSource t s name port path).scheme ≠ [] ∨
          (hostSource t s name port path).host ≠ [] := by
        cases s with
        | none => exact .inr (hhost rfl)
        | some s => exact .inl ((hwrites.host_forms t).1 s rfl)
      simp [wordSource, hk, h, hparse, SourceExpression.source, Option.filter, hkeep]

variable {page}

/-- A word that is no keyword is kept as what it writes. -/
theorem Takes.written {word : Chars} {e : SourceExpression} {source : CSPSource}
    (h : Takes t word e) (hself : equalsKeyword t (chars "'self'") word = false)
    (hp : parseSourceExpression t word = some source) :
    Writes t word e ∧ source = e.source t page := by
  cases h with
  | self _ hs => cases hs.symm.trans hself
  | scheme _ hw =>
    rw [hw.parse_scheme t] at hp
    exact ⟨hw, (Option.some.inj hp).symm⟩
  | host _ hw => exact ⟨hw, ((hw.parse_host_eq_some_iff t).mp hp).1⟩

theorem Takes.matches_iff {word : Chars} {e : SourceExpression} {u : URL} (h : Takes t word e) :
    (e.source t page).matches t page u ↔ e.Taken t page u := by
  cases h with
  | self => exact matches_selfSource_iff t
  | scheme _ hw =>
    show (schemeSource _).matches t page u ↔ _
    unfold CSPSource.matches CSPSource.schemeMatches
    rw [if_neg (show (schemeSource _).scheme ≠ [] from hw.scheme_ne_nil t)]
    simp [schemeSource, isSchemeOnly, SourceExpression.Taken]
  | host _ hw =>
    obtain ⟨hs, hp⟩ := hw.host_forms t
    exact matches_hostSource_iff t hs hp

end CSPSourceList

/-- A URL as the parser makes it; an invalid one has no components. -/
def IsURL (u : URL) : Prop := u = invalidURL ∨ ∃ string, parse string = some u

theorem IsURL.hasPort {u : URL} (h : IsURL u) : HasPort u := by
  rcases h with rfl | ⟨string,h⟩
  · exact hasPort_invalidURL
  · exact hasPort_of_parse h

/-- A word of the list writes an expression that the URL meets. -/
def CSPSourceList.Says (page : SecurityOrigin) (value : Chars) (u : URL) : Prop :=
  ∃ word ∈ sourceWords value, ∃ e, Writes t word e ∧ e.Matches t page u

/-- A list without `*` allows the URLs that are taken for an expression that is kept of it. -/
theorem matches_parse_iff (page : SecurityOrigin) (value : Chars) (u : URL)
    (hstar : [uchar '*'] ∉ CSPSourceList.sourceWords value) :
    (CSPSourceList.parse t page value).matches t page u = true ↔
      ∃ word ∈ CSPSourceList.sourceWords value, ∃ e, CSPSourceList.Takes t word e ∧
        e.Taken t page (CSPSourceList.effectiveURL t u) := by
  obtain ⟨hlist, hallow⟩ := CSPSourceList.parse_list t page value
  rw [CSPSourceList.matches, hallow hstar, Bool.false_or, any_eq_true, hlist]
  constructor
  · rintro ⟨source, hmem, hm⟩
    obtain ⟨word, hword, hs⟩ := mem_filterMap.mp hmem
    have hne : word ≠ [uchar '*'] := fun h => hstar (h ▸ hword)
    obtain ⟨e, ht, rfl⟩ := (CSPSourceList.wordSource_eq_some_iff t page hne).mp hs
    exact ⟨word, hword, e, ht, (ht.matches_iff t).mp hm⟩
  · rintro ⟨word, hword, e, ht, htaken⟩
    have hne : word ≠ [uchar '*'] := fun h => hstar (h ▸ hword)
    exact ⟨_, mem_filterMap.mpr ⟨word, hword,
      (CSPSourceList.wordSource_eq_some_iff t page hne).mpr ⟨e, ht, rfl⟩⟩, (ht.matches_iff t).mpr htaken⟩

/-- The page that the lists below belong to. -/
def examplePage : SecurityOrigin := ⟨chars "http", chars "page", 0⟩

/-- `http://a:8080/x/y` -/
def exampleURL : URL :=
  ⟨bytes "http://a:8080/x/y", true, 4, 7, 7, 7, 8, 13, 16, 17, 17, 17⟩

theorem exampleURL_parse : WebCore.parse (bytes "http://a:8080/x/y") = some exampleURL := by decide

/-- `http://a/` -/
def defaultPortURL : URL := ⟨bytes "http://a/", true, 4, 7, 7, 7, 8, 8, 9, 9, 9, 9⟩

end QPlusWeb.WebCore
