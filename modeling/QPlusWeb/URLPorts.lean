import QPlusWeb.URLAccessors
import QPlusWeb.URLRanges
import Mathlib.Data.FinEnum

/-!
# The port of a parsed URL

A port that is written consists of digits, and its number is what they stand for unless that is out of
range.
-/

namespace QPlusWeb.WebCore

open ListScans List

variable (t : TextLibrary) {c : Components} {port : Bytes} (inHTTPFamily : Bool)

/-! ### Digits -/

section
variable {c : UInt16} {data : Chars}

theorem isDigitChar_iff : isDigitChar c ↔ 0x30 ≤ c ∧ c ≤ 0x39 := by
  rw [isDigitChar,Bool.and_eq_true,decide_eq_true_iff,decide_eq_true_iff]
  exact Iff.rfl

theorem isSpaceOrNewline_of_isDigitChar (h : isDigitChar c) : isSpaceOrNewline t c = false := by
  obtain ⟨hle,hge⟩ := isDigitChar_iff.mp h
  have ha : c ≤ 0x7F := UInt16.le_trans hge (by decide)
  rw [isSpaceOrNewline,if_pos ha]
  simp only [isASCIISpaceChar,Bool.or_eq_false_iff,Bool.and_eq_false_iff,decide_eq_false_iff_not,
    UInt16.le_iff_toNat_le,← UInt16.toNat_inj] at hle hge ⊢
  simp only [UInt16.reduceToNat] at hle hge ⊢
  omega

theorem dropWhile_isSpaceOrNewline (h : ∀ c ∈ data, isDigitChar c) :
    data.dropWhile (isSpaceOrNewline t) = data := by
  cases data with
  | nil => rfl
  | cons c rest =>
    have hs := isSpaceOrNewline_of_isDigitChar t (h c mem_cons_self)
    rw [dropWhile_cons_of_neg (by rw [hs]; decide)]

theorem head?_ne_of_digits (h : ∀ c ∈ data, isDigitChar c) (hc : isDigitChar c = false) :
    data.head? ≠ some c := by
  intro hh
  have ht := h c (mem_of_head? hh)
  rw [hc] at ht
  cases ht

theorem toIntegralType_of_digits (isSigned : Bool) (integralMax : ℕ)
    (h : ∀ c ∈ data, isDigitChar c) (hne : data ≠ []) :
    toIntegralType t isSigned integralMax data =
      if digitsValue data ≤ integralMax then some (digitsValue data : ℤ) else none := by
  have hm : data.head? ≠ some (uchar '-') := head?_ne_of_digits h (by decide)
  have hp : data.head? ≠ some (uchar '+') := head?_ne_of_digits h (by decide)
  have ht : data.takeWhile isDigitChar = data := takeWhile_eq_self_iff.mpr h
  have hd : data.dropWhile isDigitChar = [] := dropWhile_eq_nil_iff.mpr h
  simp [toIntegralType,dropWhile_isSpaceOrNewline t h,hm,hp,ht,hd,hne]

end

/-! ### The port -/

theorem findRanges_port {url : Bytes} {r : Ranges} (h : findRanges url = some r) :
    ∀ c ∈ slice url r.portStart r.portEnd, isASCIIDigit c := by
  obtain ⟨hc,a,ha,rfl⟩ := findRanges_spec h
  exact (authorityAfterScheme_found hc ha).portChars

theorem slice_of_length_le {α : Type*} {s : List α} {i j : ℕ} (h : j ≤ i) : slice s i j = [] := by
  rw [slice,Nat.sub_eq_zero_of_le h,take_zero]

/-- The number that is written, if there is one. -/
def URL.writtenPort (u : URL) : Option ℕ :=
  if u.portText = [] then none else some (digitsValue u.portText)

/-- `port()` in terms of what is written. -/
def portNumber : Option ℕ → ℤ
  | none => 0
  | some n => if n ≤ 0xFFFE then n else 0xFFFF

/-- The port of a URL is written in digits, or not at all. -/
structure HasPort (u : URL) : Prop where
  digits : ∀ c ∈ u.portText, isDigitChar c = true
  none_iff : u.portText = [] ↔ u.hostEnd = u.portEnd ∨ u.hostEnd + 1 = u.portEnd

theorem HasPort.port_eq {u : URL} (h : HasPort u) : u.port t = portNumber u.writtenPort := by
  unfold URL.port URL.writtenPort
  by_cases hn : u.portText = []
  · have he := h.none_iff.mp hn
    rw [if_pos hn,if_pos (by simpa using he)]
    rfl
  · have he := fun hor => hn (h.none_iff.mpr hor)
    rw [if_neg hn,if_neg (by simpa using he),charactersToUIntStrict,
      toIntegralType_of_digits t false _ h.digits hn]
    have hl : URL.maximumValidPortNumber = 0xFFFE := rfl
    by_cases hm : digitsValue u.portText ≤ 2^32-1
    · rw [if_pos hm]
      dsimp only [portNumber]
      by_cases hv : digitsValue u.portText ≤ 0xFFFE
      · rw [if_pos hv,if_neg (by omega)]
      · rw [if_neg hv,if_pos (by omega)]
        rfl
    · rw [if_neg hm]
      dsimp only [portNumber]
      rw [if_neg (by omega)]
      rfl

theorem isDigitChar_toUInt16 : ∀ c : UInt8, isASCIIDigit c → isDigitChar c.toUInt16 := by
  decide +kernel

theorem hasPort_assemble_none (h : c.port = []) : HasPort (assemble inHTTPFamily c) := by
  have he : (assemble inHTTPFamily c).hostEnd = (assemble inHTTPFamily c).portEnd := by
    simp [assemble,Components.upToPort,h]
  have hn : (assemble inHTTPFamily c).portText = [] := by
    rw [URL.portText,he,slice_of_length_le (Nat.le_succ _)]
    rfl
  constructor
  · intro d hd
    rw [hn] at hd
    cases hd
  · exact iff_of_true hn (.inl he)

theorem assemble_portText
    (h : c.port = byte ':'::port) : (assemble inHTTPFamily c).portText = widen port := by
  refine congrArg widen (slice_of_eq_append (a := c.upToHost++[byte ':']) (r := c.path++c.query ++
    c.fragment) ?_ ?_ ?_)
  all_goals simp [assemble,Components.string,Components.upToQuery,Components.upToPath,
    Components.upToPort,h]

theorem hasPort_assemble_some (h : c.port = byte ':'::port) (hdigs : ∀ b ∈ port, isASCIIDigit b) :
    HasPort (assemble inHTTPFamily c) := by
  have ht := assemble_portText inHTTPFamily h
  have he : (assemble inHTTPFamily c).portEnd =
      (assemble inHTTPFamily c).hostEnd+1+port.length := by
    simp [assemble,Components.upToPort,h]
    omega
  constructor
  · intro d hd
    rw [ht] at hd
    obtain ⟨b,hb,rfl⟩ := mem_map.mp hd
    exact isDigitChar_toUInt16 b (hdigs b hb)
  · rw [ht,he,widen,map_eq_nil_iff,← length_eq_zero_iff]
    omega

theorem hasPort_of_parse {string : Bytes} {u : URL} (h : parse string = some u) : HasPort u := by
  obtain ⟨r,hr,rfl⟩ := Option.map_eq_some_iff.mp h
  have hp : (components (cString string) r).port ∈
      [[],byte ':'::slice (cString string) r.portStart r.portEnd] := ite_mem (by simp) (by simp)
  rcases mem_pair.mp hp with hn | hs
  · exact hasPort_assemble_none _ hn
  · exact hasPort_assemble_some _ hs (findRanges_port hr)

theorem hasPort_invalidURL : HasPort invalidURL := by
  constructor
  · intro c hc
    cases hc
  · decide

end QPlusWeb.WebCore
