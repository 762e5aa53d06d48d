import QPlusWeb.URLParser

/-!
# The ranges of URL::parse

The ranges that the parser finds are in order, and between two of them there are only the delimiters,
so that the ranges and the delimiters make up the input.  The one exception are the schemes with an
authority: after them a slash may be missing, and then the parser goes back by two characters all the
same if it finds no authority, into the scheme.
-/

namespace QPlusWeb.WebCore

open ListScans List Nat Option

variable {url : Bytes} {i j k schemeEnd : ℕ} {a : Authority} {c : UInt8} {p : UInt8 → Bool}
  {r : Ranges} {delimiters : List Bytes}

/-! ### Gaps -/

/-- Between the positions there is one of the delimiters. -/
def Gap (url : Bytes) (i j : ℕ) (delimiters : List Bytes) : Prop :=
  i ≤ j ∧ slice url i j ∈ delimiters

theorem getElem?_of_charAt (h : charAt url i = c) (hc : c ≠ 0) : url[i]? = some c := by
  rw [charAt,getD_eq_getElem?_getD] at h
  cases hg : url[i]? with
  | none =>
    rw [hg] at h
    exact absurd h.symm hc
  | some c' =>
    rw [hg] at h
    exact congrArg some h

theorem lt_of_charAt (h : charAt url i = c) (hc : c ≠ 0) : i < url.length :=
  (List.getElem?_eq_some_iff.mp (getElem?_of_charAt h hc)).choose

theorem gap_self (h : [] ∈ delimiters) : Gap url i i delimiters := by
  refine ⟨Nat.le_refl _,?_⟩
  rwa [slice_self]

theorem gap_one (h : charAt url i = c) (hc : c ≠ 0)
    (hm : [c] ∈ delimiters) : Gap url i (i+1) delimiters := by
  refine ⟨le_succ _,?_⟩
  rwa [slice_one (getElem?_of_charAt h hc)]

/-! ### The authority -/

/-- The ranges of an authority, from where it starts. -/
structure AuthorityInOrder (url : Bytes) (a : Authority) : Prop where
  user : a.userStart ≤ a.userEnd
  afterUser : Gap url a.userEnd a.passwordStart [[], bytes ":"]
  password : a.passwordStart ≤ a.passwordEnd
  afterPassword : Gap url a.passwordEnd a.hostStart [[], bytes "@"]
  host : a.hostStart ≤ a.hostEnd
  afterHost : Gap url a.hostEnd a.portStart [[], bytes ":"]
  port : a.portStart ≤ a.portEnd
  inside : a.portEnd ≤ url.length

theorem authorityInOrder_none (h : i ≤ url.length) : AuthorityInOrder url (Authority.none i) where
  user := Nat.le_refl _
  afterUser := gap_self (.head _)
  password := Nat.le_refl _
  afterPassword := gap_self (.head _)
  host := Nat.le_refl _
  afterHost := gap_self (.head _)
  port := Nat.le_refl _
  inside := h

theorem colonPos_spec
    (h : scan (fun c => isUserInfoChar c && c ≠ byte ':') url i ≠ scan isUserInfoChar url i) :
    scan (fun c => isUserInfoChar c && c ≠ byte ':') url i < scan isUserInfoChar url i ∧
      charAt url (scan (fun c => isUserInfoChar c && c ≠ byte ':') url i) = byte ':' := by
  obtain ⟨c,hg,hc⟩ := exists_of_scan_and_ne h
  have hcolon : c = byte ':' := by simpa using hc
  constructor
  · exact lt_of_le_of_ne scan_and_le h
  · rw [charAt,getD_eq_getElem?_getD,hg,hcolon]
    rfl

theorem findUserInfo_spec (h : findUserInfo url i = some a) (hi : i ≤ url.length) :
    a.userStart = i ∧ AuthorityInOrder url a := by
  unfold findUserInfo at h
  dsimp only at h
  have hle : i ≤ scan isUserInfoChar url i := le_scan
  split at h
  next hat =>
    have hlt := lt_of_charAt hat (by decide)
    have ha : Gap url (scan isUserInfoChar url i) (scan isUserInfoChar url i + 1)
        [[], bytes "@"] := gap_one hat (by decide) (by decide)
    split at h
    next hne =>
      obtain ⟨hp, hcolon⟩ := colonPos_spec hne
      obtain rfl := Option.some.inj h
      exact ⟨rfl, le_scan, gap_one hcolon (by decide) (by decide), hp, ha, Nat.le_refl _,
        gap_self (.head _), Nat.le_refl _, hlt⟩
    next =>
      obtain rfl := Option.some.inj h
      exact ⟨rfl, hle, gap_self (.head _), Nat.le_refl _, ha, Nat.le_refl _, gap_self (.head _),
        Nat.le_refl _, hlt⟩
  next =>
    split at h
    next =>
      obtain rfl := Option.some.inj h
      exact ⟨rfl, authorityInOrder_none hi⟩
    next => cases h

theorem findHostEnd_spec (h : findHostEnd url i = some j) (hi : i ≤ url.length) :
    i ≤ j ∧ j ≤ url.length := by
  unfold findHostEnd at h
  dsimp only at h
  split at h
  next =>
    have hle : i + 1 ≤ scan isIPv6Char url (i + 1) := le_scan
    split at h
    next hc =>
      have hlt := lt_of_charAt hc (by decide)
      obtain rfl := Option.some.inj h
      exact ⟨le_succ_of_le (le_of_succ_le hle), hlt⟩
    next => cases h
  next =>
    obtain rfl := Option.some.inj h
    exact ⟨le_scan, scan_le hi⟩

theorem findPort_spec (hi : i ≤ url.length) :
    Gap url i (findPort url i).1 [[], bytes ":"] ∧ (findPort url i).1 ≤ (findPort url i).2 ∧
      (findPort url i).2 ≤ url.length ∧
      ∀ x ∈ slice url (findPort url i).1 (findPort url i).2, isASCIIDigit x := by
  unfold findPort
  split
  next hcolon =>
    have hlt := lt_of_charAt hcolon (by decide)
    exact ⟨gap_one hcolon (by decide) (by decide), le_scan, scan_le hlt,
      fun x hx => of_mem_slice_scan hx⟩
  next => exact ⟨gap_self (.head _), Nat.le_refl _, hi, by simp [slice_self]⟩

/-! ### No authority -/

theorem mem_of_isPathSegmentEndChar (h : isPathSegmentEndChar c) :
    c ∈ [0,byte '#',byte '/',byte '?'] := by
  simpa [isPathSegmentEndChar,bytes] using h

theorem end_not (h : isPathSegmentEndChar c)
    (hp : [0,byte '#',byte '/',byte '?'].all fun c => !p c) : p c = false := by
  simpa using all_eq_true.mp hp c (mem_of_isPathSegmentEndChar h)

theorem scan_of_end (h : isPathSegmentEndChar (charAt url i))
    (hp : [0,byte '#',byte '/',byte '?'].all fun c => !p c) : scan p url i = i := by
  apply scan_eq_self
  intro c hc
  have hchar : charAt url i = c := by
    rw [charAt,getD_eq_getElem?_getD,hc]
    rfl
  exact end_not (hchar ▸ h) hp

theorem ne_of_end {c d : UInt8} (h : isPathSegmentEndChar d)
    (hc : isPathSegmentEndChar c = false) : d ≠ c := by
  rintro rfl
  rw [hc] at h
  cases h

section
variable (h : isPathSegmentEndChar (charAt url i))
include h

theorem findUserInfo_of_end : findUserInfo url i = some (Authority.none i) := by
  have hs : scan isUserInfoChar url i = i := scan_of_end h (by decide)
  rw [findUserInfo,hs,if_neg (ne_of_end h (by decide)),h,Bool.or_true,if_pos rfl]

theorem findHostEnd_of_end : findHostEnd url i = some i := by
  rw [findHostEnd,if_neg (ne_of_end h (by decide)),scan_of_end h (by decide)]

theorem findPort_of_end : findPort url i = (i,i) := by
  rw [findPort,if_neg (ne_of_end h (by decide))]

end

/-- No authority is found, and the parser goes back by two characters. -/
def Rewinds (url : Bytes) (schemeEnd userStart : ℕ) : Prop :=
  isPathSegmentEndChar (charAt url userStart) ∧ !protocolIsInHTTPFamily url ∧ !isFile url schemeEnd

instance (schemeEnd userStart : ℕ) : Decidable (Rewinds url schemeEnd userStart) :=
  inferInstanceAs (Decidable (_ ∧ _ ∧ _))

theorem findAuthority_eq_of_rewinds (hb : Rewinds url schemeEnd i) :
    findAuthority url schemeEnd i = some (Authority.none (i-2)) := by
  obtain ⟨he,hh,hf⟩ := hb
  have hc : hostPortIsEmptyButCredentialsArePresent i i (charAt url i) = false := by
    simp [hostPortIsEmptyButCredentialsArePresent,ne_of_end he (c := byte '@') (by decide)]
  simp [findAuthority,findUserInfo_of_end he,Authority.none,findHostEnd_of_end he,
    findPort_of_end he,hh,hf,he,hc]

theorem findAuthority_of_rewinds
    (h : findAuthority url schemeEnd i = some a) (hb : Rewinds url schemeEnd i) :
    a = Authority.none (i-2) := by
  rw [findAuthority_eq_of_rewinds hb] at h
  exact (Option.some.inj h).symm

theorem AuthorityInOrder.hostStart_le (h : AuthorityInOrder url a) : a.hostStart ≤ url.length :=
  h.host.trans (h.afterHost.1.trans (h.port.trans h.inside))

/-- An authority with a port of digits. -/
structure FoundAuthority (url : Bytes) (a : Authority) : Prop extends AuthorityInOrder url a where
  portChars : ∀ x ∈ slice url a.portStart a.portEnd, isASCIIDigit x = true

theorem foundAuthority_none (h : i ≤ url.length) : FoundAuthority url (Authority.none i) where
  toAuthorityInOrder := authorityInOrder_none h
  portChars := by simp [Authority.none, slice_self]

/-- An authority that is found is in order from where it was looked for. -/
theorem findAuthority_spec (h : findAuthority url schemeEnd i = some a) (hi : i ≤ url.length)
    (hstay : ¬Rewinds url schemeEnd i) : a.userStart = i ∧ FoundAuthority url a := by
  obtain ⟨x, hinfo, h₁⟩ := bind_eq_some_iff.mp h
  obtain ⟨hostEnd, hh, h₂⟩ := bind_eq_some_iff.mp h₁
  obtain ⟨hs, hf⟩ := findUserInfo_spec hinfo hi
  obtain ⟨hle, hin⟩ := findHostEnd_spec hh hf.hostStart_le
  obtain ⟨ha, hp, hend, hd⟩ := findPort_spec hin
  dsimp only at h₂
  split at h₂
  next => cases h₂
  next hstop =>
    split at h₂
    next => cases h₂
    next =>
      split at h₂
      next he =>
        refine absurd ⟨?_, he.2⟩ hstay
        rw [← hs, he.1]
        simpa using hstop
      next =>
        obtain rfl := Option.some.inj h₂
        exact ⟨hs, ⟨hf.user, hf.afterUser, hf.password, hf.afterPassword, hle, ha, hp, hend⟩, hd⟩

/-! ### All ranges -/

/-- The ranges of a C string: in order, after the scheme, with a delimiter between two of them at most,
and up to the end. -/
structure Partitioned (url : Bytes) (r : Ranges) : Prop extends AuthorityInOrder url r.toAuthority where
  afterScheme : Gap url r.schemeEnd r.userStart [bytes ":", bytes "://"]
  path : r.portEnd ≤ r.pathEnd
  query : r.pathEnd ≤ r.queryEnd
  queryMark : r.pathEnd < r.queryEnd → charAt url r.pathEnd = byte '?'
  afterQuery : Gap url r.queryEnd r.fragmentStart [[], bytes "#"]
  fragment : r.fragmentStart ≤ r.fragmentEnd
  whole : r.fragmentEnd = url.length

/-- After a scheme that has an authority there is one slash only, or there are none and nothing that
the authority could be. -/
def MissingSlashesAfter (url : Bytes) (schemeEnd : ℕ) : Prop :=
  isNonFileHierarchicalScheme (url.take schemeEnd) ∧
    (slashes url schemeEnd = 1 ∨ slashes url schemeEnd = 0 ∧ Rewinds url schemeEnd (schemeEnd + 1))

instance (schemeEnd : ℕ) : Decidable (MissingSlashesAfter url schemeEnd) :=
  inferInstanceAs (Decidable (_ ∧ (_ ∨ _ ∧ _)))

def MissingSlashes (url : Bytes) : Prop := MissingSlashesAfter url (scan isSchemeChar url 0)

instance : Decidable (MissingSlashes url) :=
  inferInstanceAs (Decidable (MissingSlashesAfter url _))

theorem slashes_cases (url : Bytes) (schemeEnd : ℕ) : slashes url schemeEnd = 0 ∨
      (slashes url schemeEnd = 1 ∧ charAt url (schemeEnd+1) = byte '/') ∨
      (slashes url schemeEnd = 2 ∧ charAt url (schemeEnd+1) = byte '/' ∧
        charAt url (schemeEnd+2) = byte '/') := by
  unfold slashes
  split
  next h₁ =>
    split
    next h₂ => exact .inr (.inr ⟨rfl,h₁,h₂⟩)
    next => exact .inr (.inl ⟨rfl,h₁⟩)
  next => exact .inl rfl

theorem findRanges_spec (h : findRanges url = some r) :
    charAt url (scan isSchemeChar url 0) = byte ':' ∧
      ∃ a, authorityAfterScheme url (scan isSchemeChar url 0) = some a ∧
        r = rangesAfterAuthority url (scan isSchemeChar url 0) a := by
  unfold findRanges at h
  dsimp only at h
  split at h
  next => cases h
  next =>
    split at h
    next => cases h
    next hcolon =>
      obtain ⟨a,ha,hr⟩ := map_eq_some_iff.mp h
      exact ⟨not_not.mp hcolon,a,ha,hr.symm⟩

theorem charAt_scan (hi : i ≤ url.length) :
    p (charAt url (scan p url i)) = false ∨ scan p url i = url.length := by
  rcases (scan_le (p := p) hi).lt_or_eq with hlt | heq
  · left
    have hg := getElem?_eq_getElem hlt
    rw [charAt,getD_eq_getElem?_getD,hg]
    exact scan_stop hg
  · exact .inr heq

theorem findPathEnd_spec (hi : i ≤ url.length) :
    i ≤ findPathEnd url i ∧ findPathEnd url i ≤ url.length ∧
      (charAt url (findPathEnd url i) = byte '?' ∨ charAt url (findPathEnd url i) = byte '#' ∨
        findPathEnd url i = url.length) := by
  refine ⟨le_scan,scan_le hi,?_⟩
  rcases charAt_scan (p := fun c => c ≠ byte '?' && c ≠ byte '#') hi with hs | he
  · simp only [Bool.and_eq_false_iff,decide_eq_false_iff_not,not_not] at hs
    exact hs.imp_right .inl
  · exact .inr (.inr he)

theorem findQueryEnd_spec (hi : i ≤ url.length)
    (hs : charAt url i = byte '?' ∨ charAt url i = byte '#' ∨ i = url.length) :
    i ≤ findQueryEnd url i ∧ (i < findQueryEnd url i → charAt url i = byte '?') ∧
      (charAt url (findQueryEnd url i) = byte '#' ∨ findQueryEnd url i = url.length) := by
  unfold findQueryEnd
  split
  next hm =>
    refine ⟨le_scan,fun _ => hm,?_⟩
    rcases charAt_scan (p := fun c => c ≠ byte '#') hi with hs | he
    · exact .inl (not_not.mp (of_decide_eq_false hs))
    · exact .inr he
  next hne =>
    exact ⟨Nat.le_refl _,fun hlt => absurd hlt (lt_irrefl _),hs.resolve_left hne⟩

/-- Without a `#` the query ends where the text does. -/
theorem findFragment_spec (he : charAt url i = byte '#' ∨ i = url.length) :
    Gap url i (findFragment url i).1 [[],bytes "#"] ∧
      (findFragment url i).1 ≤ (findFragment url i).2 ∧ (findFragment url i).2 = url.length := by
  unfold findFragment
  split
  next hm => exact ⟨gap_one hm (by decide) (by decide),lt_of_charAt hm (by decide),rfl⟩
  next hne => exact ⟨gap_self (.head _),Nat.le_refl _,he.resolve_left hne⟩

theorem partitioned_rangesAfterAuthority
    (h : AuthorityInOrder url a) (hg : Gap url schemeEnd a.userStart [bytes ":",bytes "://"]) :
    Partitioned url (rangesAfterAuthority url schemeEnd a) := by
  obtain ⟨hp,hpathEnd,hs⟩ := findPathEnd_spec h.inside
  obtain ⟨hq,hm,hqueryEnd⟩ := findQueryEnd_spec hpathEnd hs
  obtain ⟨ha,hf,hw⟩ := findFragment_spec hqueryEnd
  exact ⟨h,hg,hp,hq,hm,ha,hf,hw⟩

/-! ### After the scheme -/

section
variable {schemeEnd : ℕ}

section
variable (h : charAt url schemeEnd = byte ':')
include h

theorem gap_colon :
    Gap url schemeEnd (schemeEnd+1) [bytes ":",bytes "://"] :=
  gap_one h (by decide) (by decide)

theorem gap_colon_slashes
    (h₁ : charAt url (schemeEnd+1) = byte '/') (h₂ : charAt url (schemeEnd+2) = byte '/') :
    Gap url schemeEnd (schemeEnd+3) [bytes ":",bytes "://"] := by
  refine ⟨by omega,?_⟩
  rw [← slice_append (le_succ schemeEnd) (by omega),
    ← slice_append (le_succ (schemeEnd+1)) (by omega),slice_one (getElem?_of_charAt h (by decide)),
    slice_one (getElem?_of_charAt h₁ (by decide)),slice_one (getElem?_of_charAt h₂ (by decide))]
  decide

theorem afterSlashes_le : schemeEnd+1+slashes url schemeEnd ≤ url.length := by
  have hlt := lt_of_charAt h (by decide)
  rcases slashes_cases url schemeEnd with h₀ | ⟨h₁,hs⟩ | ⟨h₂,-,hs⟩
  · omega
  · have := lt_of_charAt hs (by decide)
    omega
  · have := lt_of_charAt hs (by decide)
    omega

end

section
variable (hcolon : charAt url schemeEnd = byte ':')
include hcolon

theorem authorityAfterScheme_spec {a : Authority}
    (ha : authorityAfterScheme url schemeEnd = some a) (hs : ¬MissingSlashesAfter url schemeEnd) :
    AuthorityInOrder url a ∧ Gap url schemeEnd a.userStart [bytes ":",bytes "://"] := by
  have hi : schemeEnd+1 ≤ url.length := lt_of_charAt hcolon (by decide)
  unfold authorityAfterScheme at ha
  split at ha
  next hsearch =>
    rw [Bool.or_eq_true,decide_eq_true_iff] at hsearch
    by_cases hb : Rewinds url schemeEnd (schemeEnd+1+slashes url schemeEnd)
    · obtain rfl := findAuthority_of_rewinds ha hb
      have ht : slashes url schemeEnd = 2 := by
        by_contra hne
        have hspecial := hsearch.resolve_left hne
        rcases slashes_cases url schemeEnd with h₀ | ⟨h₁,-⟩ | ⟨h₂,-⟩
        · rw [h₀] at hb
          exact hs ⟨hspecial,.inr ⟨h₀,hb⟩⟩
        · exact hs ⟨hspecial,.inl h₁⟩
        · exact hne h₂
      rw [ht]
      exact ⟨authorityInOrder_none hi,gap_colon hcolon⟩
    · obtain ⟨hstart,hfound⟩ := findAuthority_spec ha (afterSlashes_le hcolon) hb
      refine ⟨hfound.toAuthorityInOrder,?_⟩
      rw [hstart]
      rcases slashes_cases url schemeEnd with h₀ | ⟨h₁,-⟩ | ⟨h₂,hf,hsnd⟩
      · rw [h₀]
        exact gap_colon hcolon
      · have hne : slashes url schemeEnd ≠ 2 := by omega
        exact absurd ⟨hsearch.resolve_left hne,.inl h₁⟩ hs
      · rw [h₂]
        exact gap_colon_slashes hcolon hf hsnd
  next =>
    obtain rfl := Option.some.inj ha
    exact ⟨authorityInOrder_none hi,gap_colon hcolon⟩

theorem authorityAfterScheme_found {a : Authority} (h : authorityAfterScheme url schemeEnd = some a) :
    FoundAuthority url a := by
  have hi : schemeEnd + 1 ≤ url.length := lt_of_charAt hcolon (by decide)
  have hle := afterSlashes_le hcolon
  unfold authorityAfterScheme at h
  split at h
  next =>
    by_cases hback : Rewinds url schemeEnd (schemeEnd + 1 + slashes url schemeEnd)
    · obtain rfl := findAuthority_of_rewinds h hback
      exact foundAuthority_none (by omega)
    · exact (findAuthority_spec h hle hback).2
  next =>
    obtain rfl := Option.some.inj h
    exact foundAuthority_none hi

end

end

theorem partitioned (h : findRanges url = some r) (hs : ¬MissingSlashes url) :
    Partitioned url r := by
  obtain ⟨hcolon,a,ha,rfl⟩ := findRanges_spec h
  obtain ⟨ho,hg⟩ := authorityAfterScheme_spec hcolon ha hs
  exact partitioned_rangesAfterAuthority ho hg

theorem Partitioned.schemeEnd_lt (h : Partitioned url r) : r.schemeEnd < r.userStart := by
  obtain ⟨hle,hm⟩ := h.afterScheme
  refine lt_of_le_of_ne hle fun heq => ?_
  rw [heq,slice_self] at hm
  revert hm
  decide

/-- With one slash the gap behind the scheme is no delimiter. -/
theorem not_gap_one_slash (hcolon : charAt url schemeEnd = byte ':')
    (hslash : charAt url (schemeEnd + 1) = byte '/') :
    ¬Gap url schemeEnd (schemeEnd + 2) [bytes ":", bytes "://"] := by
  rintro ⟨-, hm⟩
  rw [← slice_append (le_succ schemeEnd) (by omega), slice_one (getElem?_of_charAt hcolon (by decide)),
    slice_one (getElem?_of_charAt hslash (by decide))] at hm
  revert hm
  decide

theorem not_partitioned (h : findRanges url = some r) (hs : MissingSlashes url) :
    ¬Partitioned url r := by
  obtain ⟨hcolon, a, ha, rfl⟩ := findRanges_spec h
  obtain ⟨hspecial, hmissing⟩ := hs
  intro hp
  have hlt : scan isSchemeChar url 0 < a.userStart := hp.schemeEnd_lt
  rw [authorityAfterScheme, hspecial, Bool.or_true, if_pos rfl] at ha
  by_cases hb : Rewinds url (scan isSchemeChar url 0)
      (scan isSchemeChar url 0 + 1 + slashes url (scan isSchemeChar url 0))
  · -- the path starts in the scheme or at the colon
    obtain rfl := findAuthority_of_rewinds ha hb
    simp only [Authority.none] at hlt
    omega
  · obtain ⟨hstart, -⟩ := findAuthority_spec ha (afterSlashes_le hcolon) hb
    rcases slashes_cases url (scan isSchemeChar url 0) with h₀ | ⟨h₁, hslash⟩ | ⟨h₂, -⟩
    · rw [h₀] at hb
      exact hb (hmissing.resolve_left (by omega)).2
    · have hg : Gap url (scan isSchemeChar url 0) a.userStart _ := hp.afterScheme
      rw [hstart, h₁] at hg
      exact not_gap_one_slash hcolon hslash hg
    · omega

/-- The scheme, the ranges and what is between them are the text. -/
theorem Partitioned.cover (h : Partitioned url r) :
    slice url 0 r.schemeEnd++slice url r.schemeEnd r.userStart ++
        slice url r.userStart r.userEnd++slice url r.userEnd r.passwordStart ++
        slice url r.passwordStart r.passwordEnd++slice url r.passwordEnd r.hostStart ++
        slice url r.hostStart r.hostEnd++slice url r.hostEnd r.portStart ++
        slice url r.portStart r.portEnd++slice url r.portEnd r.pathEnd ++
        slice url r.pathEnd r.queryEnd++slice url r.queryEnd r.fragmentStart ++
        slice url r.fragmentStart r.fragmentEnd = url := by
  obtain ⟨⟨hu,⟨hu',-⟩,hp,⟨hp',-⟩,hh,⟨hh',-⟩,hport,-⟩,⟨hs,-⟩,hpath,hq,-,⟨hq',-⟩,hf,hw⟩ := h
  repeat rw [slice_append (by omega) (by omega)]
  rw [hw,slice_zero_length]

/-! ### The result -/

theorem assemble_hostStart (inHTTPFamily : Bool) (c : Components)
    (h : c.credentialsEnd = if c.user++c.password ≠ [] then [byte '@'] else []) :
    (assemble inHTTPFamily c).hostStart = (c.upToPassword++c.credentialsEnd).length := by
  have hl : c.upToPassword.length = c.upToSlashes.length+(c.user++c.password).length := by
    simp [Components.upToPassword,Components.upToUser]
  by_cases he : c.user++c.password = []
  · rw [h,if_neg (not_not.mpr he),append_nil]
    rw [he,length_nil,Nat.add_zero] at hl
    exact if_pos hl
  · rw [h,if_pos he,length_append]
    have hp := length_pos_iff.mpr he
    exact if_neg (fun heq => by simp only [assemble] at heq; omega)

/-- Every component of the result is made from its own range. -/
structure CopiedFrom (url : Bytes) (r : Ranges) (u : URL) : Prop where
  scheme : slice u.string 0 u.schemeEnd = (slice url 0 r.schemeEnd).map toASCIILower
  user : slice u.string u.userStart u.userEnd ∈ [[], slice url r.userStart r.userEnd]
  password :
    slice u.string u.userEnd u.passwordEnd ∈
      [[], byte ':' :: slice url r.passwordStart r.passwordEnd]
  host :
    slice u.string u.hostStart u.hostEnd ∈
      [[], (slice url r.hostStart r.hostEnd).map toASCIILower, slice url r.hostStart r.hostEnd]
  port : slice u.string u.hostEnd u.portEnd ∈ [[], byte ':' :: slice url r.portStart r.portEnd]
  path :
    ∃ lead ∈ [[], [byte '/']],
      slice u.string u.portEnd u.pathEnd =
        lead ++ canonicalPath url r.schemeEnd (slice url r.portEnd r.pathEnd)
  query :
    slice u.string u.pathEnd u.queryEnd = appendEscapingBadChars (slice url r.pathEnd r.queryEnd)
  fragment :
    slice u.string u.queryEnd u.fragmentEnd ∈
      [[], byte '#' ::
        escapeAndAppendNonHierarchicalPart (slice url r.fragmentStart r.fragmentEnd)]

theorem ite_mem {α : Type*} {b : Prop} [Decidable b] {x y : α} {l : List α} (hx : x ∈ l)
    (hy : y ∈ l) :
    (if b then x else y) ∈ l := by
  split
  next => exact hx
  next => exact hy

theorem copiedFrom_assemble (url : Bytes) (r : Ranges) (inHTTPFamily : Bool) :
    CopiedFrom url r (assemble inHTTPFamily (components url r)) := by
  let c := components url r
  have hq : c.upToQuery <+: c.string := prefix_append ..
  have hpath : c.upToPath <+: c.string := (prefix_append ..).trans hq
  have hport : c.upToPort <+: c.string := (prefix_append ..).trans hpath
  have hh : c.upToHost <+: c.string := (prefix_append ..).trans hport
  have hp : c.upToPassword <+: c.string := ((prefix_append ..).trans (prefix_append ..)).trans hh
  have hu : c.upToUser <+: c.string := (prefix_append ..).trans hp
  have hs : c.scheme <+: c.string :=
    ((prefix_append ..).trans ((prefix_append ..).trans (prefix_append ..))).trans hu
  have hhostStart := assemble_hostStart inHTTPFamily c rfl
  exact
    { scheme := slice_of_prefix (a := []) hs
      user := slice_of_prefix hu ▸ ite_mem (by simp) (by simp)
      password := slice_of_prefix hp ▸ ite_mem (by simp) (by simp)
      host := by
        rw [hhostStart]
        exact slice_of_prefix hh ▸ ite_mem (by simp) (ite_mem (by simp) (by simp))
      port := slice_of_prefix hport ▸ ite_mem (by simp) (by simp)
      path := ⟨_,ite_mem (by simp) (by simp), slice_of_prefix hpath⟩
      query := slice_of_prefix hq
      fragment := slice_of_prefix prefix_rfl ▸ ite_mem (by simp) (by simp)}

/-- The ranges make up the C string of an accepted URL exactly if no slash is missing. -/
theorem parse_ranges_partition_iff (string : Bytes) (u : URL) (h : parse string = some u) :
    (∃ r, findRanges (cString string) = some r ∧ Partitioned (cString string) r ∧
      r.schemeEnd < r.userStart ∧
      slice (cString string) 0 r.schemeEnd ++ slice (cString string) r.schemeEnd r.userStart ++
        slice (cString string) r.userStart r.userEnd ++
        slice (cString string) r.userEnd r.passwordStart ++
        slice (cString string) r.passwordStart r.passwordEnd ++
        slice (cString string) r.passwordEnd r.hostStart ++
        slice (cString string) r.hostStart r.hostEnd ++
        slice (cString string) r.hostEnd r.portStart ++
        slice (cString string) r.portStart r.portEnd ++
        slice (cString string) r.portEnd r.pathEnd ++
        slice (cString string) r.pathEnd r.queryEnd ++
        slice (cString string) r.queryEnd r.fragmentStart ++
        slice (cString string) r.fragmentStart r.fragmentEnd = cString string ∧
      CopiedFrom (cString string) r u) ↔ ¬MissingSlashes (cString string) := by
  obtain ⟨r, hr, rfl⟩ := map_eq_some_iff.mp h
  constructor
  · rintro ⟨r', hr', hp, -⟩ hslashes
    exact not_partitioned hr' hslashes hp
  · intro hslashes
    have hp := partitioned hr hslashes
    exact ⟨r, hr, hp, hp.schemeEnd_lt, hp.cover, copiedFrom_assemble _ _ _⟩

theorem parse_ranges_partition_full :
    ∃ u r, parse (bytes "http://u:p@h:81/p?q#f") = some u ∧
      findRanges (cString (bytes "http://u:p@h:81/p?q#f")) = some r ∧
      Partitioned (cString (bytes "http://u:p@h:81/p?q#f")) r := by
  obtain ⟨r, hr, hp, -⟩ :=
    (parse_ranges_partition_iff (bytes "http://u:p@h:81/p?q#f") _ rfl).mpr (by decide)
  exact ⟨_,r,rfl,hr,hp⟩

/-- Two characters are taken back although there were no slashes, and the end of the scheme becomes the
path of the result. -/
theorem ftp_scheme_in_path :
    ∃ u r, parse (bytes "ftp:") = some u ∧ findRanges (cString (bytes "ftp:")) = some r ∧
      r.portEnd < r.schemeEnd ∧ ¬ Partitioned (cString (bytes "ftp:")) r ∧
      u.string = bytes "ftp:p:" ∧ slice u.string u.portEnd u.pathEnd = bytes "p:" := by
  refine ⟨_,_,rfl,rfl,by decide,?_,by decide,by decide⟩
  intro hp
  have hlt := hp.schemeEnd_lt
  revert hlt
  decide

end QPlusWeb.WebCore
