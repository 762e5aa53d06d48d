import QPlusWeb.JSONGrammar
import QPlusWeb.ListScans
import Mathlib.Tactic.NormNum
import Mathlib.Tactic.Linarith

/-!
# The numbers that the lexer reads

`lexNumber` reads the numbers of the grammar.  Integers of less than ten characters are computed in an
`int` if another character follows; this gives the number that the text denotes except for `-0`, which
becomes 0.
-/

namespace QPlusWeb.JSC

open JSON List

variable {ν : Type}

variable {c : UInt16} {rest digits ptr integer sign text fraction exponent : UString}
  (d : Doubles ν)

/-- A computation that returns has gone through its first part. -/
theorem bind_eq_ok {ε α β : Type} {x : Except ε α} {f : α → Except ε β} {b : β} :
    x >>= f = .ok b ↔ ∃ a, x = .ok a ∧ f a = .ok b := by
  cases x with
  | error e | ok a => simp [bind,Except.bind]

theorem isASCIIDigit_iff : isASCIIDigit c ↔ Digit c := by
  simp [isASCIIDigit,Digit]

/-- The text does not start with a digit. -/
def NoDigit (rest : UString) : Prop := ∀ c, rest.head? = some c → isASCIIDigit c = false

/-- The text does not start with a character that could be a part of a number. -/
def EndsNumber (rest : UString) : Prop :=
  ∀ c, rest.head? = some c → isASCIIDigit c = false ∧ c ≠ ch '.' ∧ c ≠ ch 'e' ∧ c ≠ ch 'E'

theorem EndsNumber.noDigit (h : EndsNumber rest) : NoDigit rest := fun c hc => (h c hc).1

theorem noDigit_of_head (h : isASCIIDigit c = false) (rest : UString) : NoDigit (c::rest) := by
  rintro c' ⟨⟩
  exact h

/-! ### Digits -/

theorem dropWhile_digits (hd : ∀ c ∈ digits, Digit c)
    (hr : NoDigit rest) : (digits++rest).dropWhile isASCIIDigit = rest := by
  have ha : ∀ c ∈ digits, isASCIIDigit c := fun c hc => isASCIIDigit_iff.mpr (hd c hc)
  exact (ListScans.takeWhile_dropWhile_append ha hr).2

theorem exists_digits (ptr : UString) :
    ∃ digits, ptr = digits++ptr.dropWhile isASCIIDigit ∧ ∀ c ∈ digits, Digit c :=
  ⟨ptr.takeWhile isASCIIDigit,takeWhile_append_dropWhile.symm,
    fun _ hc => isASCIIDigit_iff.mp (mem_takeWhile_imp hc)⟩

theorem lexDigits_sound {message : String}
    (h : lexDigits message ptr = .ok rest) : ∃ digits, ptr = digits++rest ∧ DigitsText digits := by
  cases ptr with
  | nil => cases h
  | cons c ptr =>
    simp only [lexDigits] at h
    split at h
    next hc =>
      cases h
      obtain ⟨digits,hp,hd⟩ := exists_digits ptr
      exact ⟨c::digits,congrArg (c::·) hp,by simp,forall_mem_cons.mpr ⟨isASCIIDigit_iff.mp hc,hd⟩⟩
    next => cases h

theorem lexDigits_complete (hd : DigitsText digits)
    (hr : NoDigit rest) (message : String) : lexDigits message (digits++rest) = .ok rest := by
  obtain ⟨hne,ha⟩ := hd
  obtain ⟨c,digits,rfl⟩ := exists_cons_of_ne_nil hne
  have hc := isASCIIDigit_iff.mpr (ha c (.head _))
  rw [cons_append,lexDigits,if_pos hc,dropWhile_digits (fun x hx => ha x (.tail _ hx)) hr]

/-! ### The parts of a number -/

theorem lexInteger_sound (h : lexInteger ptr = .ok rest) :
    ∃ integer, ptr = integer++rest ∧ IntegerText integer := by
  cases ptr with
  | nil => cases h
  | cons c ptr =>
    simp only [lexInteger] at h
    split at h
    next hc =>
      cases h
      exact ⟨[ch '0'],by rw [hc,singleton_append],.zero⟩
    next =>
      split at h
      next hc =>
        cases h
        obtain ⟨digits,hp,hd⟩ := exists_digits ptr
        simp only [Bool.and_eq_true,decide_eq_true_eq] at hc
        exact ⟨c::digits,congrArg (c::·) hp,.digits hc.1 hc.2 hd⟩
      next => cases h

theorem lexInteger_complete (hi : IntegerText integer)
    (hr : NoDigit rest) : lexInteger (integer++rest) = .ok rest := by
  cases hi with
  | zero => rfl
  | @digits c digits hge hle hd =>
    have hne : c ≠ ch '0' := by
      rintro rfl
      exact absurd hge (by decide)
    rw [cons_append,lexInteger,if_neg hne,if_pos (by simp [hge,hle]),dropWhile_digits hd hr]

theorem lexFraction_sound (h : lexFraction ptr = .ok rest) :
    ∃ fraction, ptr = fraction ++ rest ∧ FractionText fraction ∧
      (fraction = [] → ptr.head? ≠ some (ch '.')) := by
  unfold lexFraction at h
  split at h
  next hdot =>
    obtain ⟨digits,ht,hd⟩ := lexDigits_sound h
    refine ⟨ch '.'::digits,?_,.fraction hd,nofun⟩
    rw [cons_append,← ht]
    exact eq_cons_of_mem_head? hdot
  next hdot =>
    cases h
    exact ⟨[],rfl,.none,fun _ => hdot⟩

theorem lexFraction_complete (hf : FractionText fraction)
    (hr : NoDigit rest) (hdot : rest.head? ≠ some (ch '.')) :
    lexFraction (fraction++rest) = .ok rest := by
  cases hf with
  | none => rw [nil_append,lexFraction,if_neg hdot]
  | fraction hd =>
    exact lexDigits_complete hd hr _

theorem lexExponent_sound (h : lexExponent ptr = .ok rest) :
    ∃ exponent, ptr = exponent ++ rest ∧ ExponentText exponent ∧
      (exponent = [] → ptr.head? ≠ some (ch 'e') ∧ ptr.head? ≠ some (ch 'E')) := by
  cases ptr with
  | nil =>
    cases h
    exact ⟨[],rfl,.none,fun _ => ⟨nofun,nofun⟩⟩
  | cons c ptr =>
    simp only [lexExponent] at h
    split at h
    next hc =>
      simp only [Bool.or_eq_true,decide_eq_true_eq] at hc
      obtain ⟨digits,hp,hd⟩ := lexDigits_sound h
      split at hp
      next hsign =>
        obtain ⟨s,hs⟩ : ∃ s, ptr = s::ptr.tail ∧ SignText [s] := by
          rcases hsign with hsign | hsign
          · exact ⟨ch '-',eq_cons_of_mem_head? hsign,.inr (.inl rfl)⟩
          · exact ⟨ch '+',eq_cons_of_mem_head? hsign,.inr (.inr rfl)⟩
        refine ⟨c::([s]++digits),?_,.exponent hc hs.2 hd,nofun⟩
        rw [hs.1,hp]
        simp
      next =>
        refine ⟨c::([]++digits),?_,.exponent hc (.inl rfl) hd,nofun⟩
        rw [hp]
        simp
    next hc =>
      cases h
      exact ⟨[],rfl,.none,fun _ => by simpa [not_or] using hc⟩

theorem digit_ne_sign (h : Digit c) : c ≠ ch '-' ∧ c ≠ ch '+' := by
  constructor <;>
  · rintro rfl
    exact absurd h.1 (by decide)

theorem lexExponent_complete (hexpo : ExponentText exponent)
    (hr : EndsNumber rest) : lexExponent (exponent++rest) = .ok rest := by
  cases hexpo with
  | none =>
    cases rest with
    | nil => rfl
    | cons c rest =>
      obtain ⟨-,-,he,hE⟩ := hr c rfl
      simp [lexExponent,he,hE]
  | @exponent e sign digits he hsign hd =>
    have hcond : (decide (e = ch 'e') || decide (e = ch 'E')) := by simpa using he
    rw [cons_append,lexExponent,if_pos hcond,append_assoc]
    obtain ⟨c,digits',hc⟩ := exists_cons_of_ne_nil hd.1
    have hne := digit_ne_sign (hd.2 c (by rw [hc]; exact .head _))
    rcases hsign with rfl | rfl | rfl
    · rw [nil_append,if_neg (by simp [hc,hne.1,hne.2])]
      exact lexDigits_complete hd hr.noDigit _
    · exact lexDigits_complete hd hr.noDigit _
    · exact lexDigits_complete hd hr.noDigit _

/-! ### The value -/

def minusZero : UString := [ch '-', ch '0']

theorem digitValue_nonneg (h : Digit c) : 0 ≤ digitValue c := by
  have hge := UInt16.le_iff_toNat_le.mp h.1
  rw [digitValue]
  omega

theorem foldl_digits_ge (hd : ∀ c ∈ digits, Digit c) {n : ℤ} (hn : 0 ≤ n) :
    n ≤ digits.foldl (fun n c => n*10+digitValue c) n := by
  induction digits generalizing n with
  | nil => exact le_rfl
  | cons c digits ih =>
    have hc := digitValue_nonneg (hd c (.head _))
    have hr := ih (fun x hx => hd x (.tail _ hx)) (n := n*10+digitValue c) (by omega)
    rw [foldl_cons]
    omega

theorem integerText_digits (h : IntegerText integer) : ∀ c ∈ integer, Digit c := by
  cases h with
  | zero => simpa using show Digit (ch '0') from ⟨by decide,by decide⟩
  | @digits c digits hge hle hd =>
    refine forall_mem_cons.mpr ⟨⟨?_,hle⟩,hd⟩
    exact Nat.le_trans (by decide) hge

theorem integerText_value (h : IntegerText integer) :
    integer = [ch '0'] ∧ digitsValue integer = 0 ∨ 0 < digitsValue integer := by
  cases h with
  | zero => exact .inl ⟨rfl,rfl⟩
  | @digits c digits hge hle hd =>
    right
    have hc : 1 ≤ digitValue c := by
      have hge' : (ch '1').toNat ≤ c.toNat := UInt16.le_iff_toNat_le.mp hge
      have ho : (ch '1').toNat = (ch '0').toNat+1 := rfl
      rw [digitValue]
      omega
    have hr := foldl_digits_ge hd (n := 0*10+digitValue c) (by omega)
    rw [digitsValue,foldl_cons]
    omega

theorem head?_integer (h : IntegerText integer) : integer.head? ≠ some (ch '-') := by
  intro hh
  have hd := integerText_digits h (ch '-') (mem_of_mem_head? hh)
  exact absurd hd.1 (by decide)

section
variable (d : Doubles ν) (hsign : sign = [] ∨ sign = [ch '-']) (h : IntegerText integer)
include hsign h

theorem parseDouble_integer :
    parseDouble d (sign++integer) = d.round (sign = [ch '-']) (digitsValue integer) := by
  have ha : ∀ c ∈ integer, isASCIIDigit c :=
    fun c hc => isASCIIDigit_iff.mpr (integerText_digits h c hc)
  have ht : integer.takeWhile isASCIIDigit = integer := takeWhile_eq_self_iff.mpr ha
  have hd : integer.dropWhile isASCIIDigit = [] := dropWhile_eq_nil_iff.mpr ha
  rcases hsign with rfl | rfl
  · have hh := head?_integer h
    simp [parseDouble,decimalValue,hh,ht,hd,splitFraction,exponentValue,digitsValue]
  · simp [parseDouble,decimalValue,ht,hd,splitFraction,exponentValue,digitsValue]

theorem ofInt_shortInteger (hne : sign++integer ≠ minusZero) :
    d.ofInt (shortInteger (sign++integer)) = parseDouble d (sign++integer) := by
  rw [parseDouble_integer d hsign h]
  rcases hsign with rfl | rfl
  · have hn : 0 ≤ digitsValue integer := by
      rcases integerText_value h with ⟨-,hz⟩ | hp
      · exact hz.ge
      · exact hp.le
    have hc : |(digitsValue integer : ℚ)| = digitsValue integer :=
      abs_of_nonneg (by exact_mod_cast hn)
    simp [shortInteger,head?_integer h,Doubles.ofInt,hc,not_lt.mpr hn]
  · rcases integerText_value h with ⟨rfl,-⟩ | hp
    · exact absurd rfl hne
    · have hc : |(digitsValue integer : ℚ)| = digitsValue integer :=
        abs_of_nonneg (by exact_mod_cast hp.le)
      simp [shortInteger,Doubles.ofInt,hc,hp]

end

theorem ofInt_minusZero : d.ofInt (shortInteger minusZero) = d.round false 0 := by
  simp [shortInteger,minusZero,digitsValue,digitValue,Doubles.ofInt]

/-! ### Numbers -/

theorem readBetween_append (text rest : UString) : readBetween (text++rest) rest = text := by
  simp [readBetween]

/-- The number that the lexer takes a text for, if `rest` follows. -/
def NumberValue (d : Doubles ν) (text rest : UString) (x : ν) : Prop :=
  x = if text = minusZero ∧ rest ≠ [] then d.round false 0 else parseDouble d text

theorem numberText_integer (hsign : sign = [] ∨ sign = [ch '-'])
    (h : IntegerText integer) : NumberText (sign++integer) := by
  have hn := NumberText.number hsign h .none .none
  rwa [append_nil,append_nil] at hn

theorem numberValue_shortInteger
    (hsign : sign = [] ∨ sign = [ch '-']) (h : IntegerText integer) (hr : rest ≠ []) :
    NumberValue d (sign++integer) rest (d.ofInt (shortInteger (sign++integer))) := by
  unfold NumberValue
  by_cases hz : sign++integer = minusZero
  · rw [if_pos ⟨hz,hr⟩,hz]
    exact ofInt_minusZero d
  · rw [if_neg fun hmz => hz hmz.1]
    exact ofInt_shortInteger d hsign h hz

/-- The text `-0` has no fraction and no exponent. -/
theorem parts_of_minusZero (hsign : sign = [] ∨ sign = [ch '-']) (h : IntegerText integer)
    (hz : sign ++ integer ++ fraction ++ exponent = minusZero) :
    sign ++ integer = minusZero ∧ fraction = [] ∧ exponent = [] := by
  have hne : integer ≠ [] := by
    cases h <;> simp
  obtain ⟨c, integer, rfl⟩ := exists_cons_of_ne_nil hne
  rcases hsign with rfl | rfl
  · exact absurd (congrArg head? hz) (head?_integer h :)
  · simp only [minusZero, cons_append, nil_append, cons.injEq, append_eq_nil_iff] at hz
    obtain ⟨-, rfl, ⟨rfl, rfl⟩, rfl⟩ := hz
    exact ⟨rfl, rfl, rfl⟩

/-- A `-0` that something follows is a short integer. -/
theorem isShortInteger_minusZero (hne : ptr ≠ []) (he : ptr.head? ≠ some (ch 'e'))
    (hE : ptr.head? ≠ some (ch 'E')) : isShortInteger (minusZero ++ ptr) ptr = true := by
  have hlength : (readBetween (minusZero ++ ptr) ptr).length < 10 := by
    rw [readBetween_append]
    decide
  simp [isShortInteger, hne, he, hE, hlength]

theorem exists_sign (start : UString) : ∃ sign, (sign = [] ∨ sign = [ch '-']) ∧
      start = sign++if start.head? = some (ch '-') then start.tail else start := by
  by_cases h : start.head? = some (ch '-')
  · refine ⟨[ch '-'],.inr rfl,?_⟩
    rw [if_pos h]
    exact eq_cons_of_mem_head? h
  · exact ⟨[],.inl rfl,by rw [if_neg h]; rfl⟩

theorem lexNumber_sound {d : Doubles ν} {start : UString} {x : ν}
    (h : lexNumber d start = .ok (x,rest)) :
    ∃ text, start = text++rest ∧ NumberText text ∧ NumberValue d text rest x := by
  obtain ⟨sign,hsign,hs⟩ := exists_sign start
  obtain ⟨ptr,hint,h⟩ := bind_eq_ok.mp h
  obtain ⟨integer,hp,hi⟩ := lexInteger_sound hint
  rw [hp] at hs
  split at h
  next hshort =>
    obtain ⟨rfl,rfl⟩ : d.ofInt (shortInteger (readBetween start ptr)) = x ∧ ptr = rest := by
      simpa [pure,Except.pure] using h
    have hne : ptr ≠ [] := by
      have hshort' := hshort.2
      simp only [isShortInteger,Bool.and_eq_true,decide_eq_true_eq] at hshort'
      tauto
    refine ⟨sign++integer,by rw [hs,append_assoc],numberText_integer hsign hi,?_⟩
    rw [hs,← append_assoc,readBetween_append]
    exact numberValue_shortInteger d hsign hi hne
  next hlong =>
    obtain ⟨ptr₁,hfrac,h₁⟩ := bind_eq_ok.mp h
    obtain ⟨ptr₂,hexp,h₂⟩ := bind_eq_ok.mp h₁
    obtain ⟨fraction,rfl,hf,hdot⟩ := lexFraction_sound hfrac
    obtain ⟨exponent,rfl,he,hhead⟩ := lexExponent_sound hexp
    obtain ⟨rfl,rfl⟩ : parseDouble d (readBetween start ptr₂) = x ∧ ptr₂ = rest := by
      simpa [pure,Except.pure] using h₂
    have hsplit : start = sign++integer++fraction++exponent++ptr₂ := by
      rw [hs]
      simp
    refine ⟨_,hsplit,.number hsign hi hf he,?_⟩
    rw [NumberValue,if_neg,hsplit,readBetween_append]
    rintro ⟨hz,hne⟩
    obtain ⟨heq,rfl,rfl⟩ := parts_of_minusZero hsign hi hz
    rw [← append_assoc,heq] at hs
    rw [hs] at hlong
    exact hlong ⟨hdot rfl,isShortInteger_minusZero hne (hhead rfl).1 (hhead rfl).2⟩

/-- What follows the integer of a number does not continue it. -/
theorem noDigit_after_integer (hf : FractionText fraction)
    (hexpo : ExponentText exponent) (hr : NoDigit rest) :
    NoDigit (fraction++(exponent++rest)) := by
  cases hf with
  | none =>
    cases hexpo with
    | none => exact hr
    | exponent he _ _ =>
      rcases he with rfl | rfl
      · exact noDigit_of_head (by decide) _
      · exact noDigit_of_head (by decide) _
  | fraction _ => exact noDigit_of_head (by decide) _

theorem numberText_head (h : NumberText text) :
    ∃ c rest, text = c::rest ∧ (c = ch '-' ∨ isASCIIDigit c) := by
  cases h with
  | @number sign integer fraction exponent hsign hi _ _ =>
    rcases hsign with rfl | rfl
    · have hne : integer ≠ [] := by
        cases hi <;> simp
      obtain ⟨c,integer,rfl⟩ := exists_cons_of_ne_nil hne
      exact ⟨c,integer++fraction++exponent,by simp,
        .inr (isASCIIDigit_iff.mpr (integerText_digits hi c (.head _)))⟩
    · exact ⟨ch '-',integer++fraction++exponent,by simp,.inl rfl⟩

theorem numberText_ne_nil (h : NumberText text) : text ≠ [] := by
  obtain ⟨c,rest,rfl,-⟩ := numberText_head h
  simp

theorem skip_sign (hsign : sign = [] ∨ sign = [ch '-']) (hi : IntegerText integer)
    (rest : UString) :
    (if (sign++integer++rest).head? = some (ch '-') then (sign++integer++rest).tail
      else sign++integer++rest) = integer++rest := by
  rcases hsign with rfl | rfl
  · have hh := head?_integer hi
    have hne : integer ≠ [] := by
      cases hi <;> simp
    obtain ⟨c,integer,rfl⟩ := exists_cons_of_ne_nil hne
    rw [nil_append,if_neg (by simpa using hh)]
  · rfl

/-- The lexer reads every number up to a character that is not a part of it. -/
theorem lexNumber_complete (ht : NumberText text) (hr : EndsNumber rest) :
    ∃ x, lexNumber d (text++rest) = .ok (x,rest) ∧ NumberValue d text rest x := by
  cases ht with
  | @number sign integer fraction exponent hsign hi hf hexpo =>
    have hstart : sign++integer++fraction++exponent++rest =
        sign++integer++(fraction++(exponent++rest)) := by simp
    have hint : lexInteger (integer++(fraction++(exponent++rest))) =
        .ok (fraction++(exponent++rest)) :=
      lexInteger_complete hi (noDigit_after_integer hf hexpo hr.noDigit)
    unfold lexNumber
    rw [hstart,skip_sign hsign hi,hint]
    simp only [bind,Except.bind]
    split
    next hs =>
      -- neither a fraction nor an exponent follows a short integer
      obtain ⟨hd,hs⟩ := hs
      simp only [isShortInteger,Bool.and_eq_true,decide_eq_true_eq,ne_eq] at hs
      cases hf with
      | fraction _ => exact absurd rfl hd
      | none =>
        cases hexpo with
        | exponent he _ _ =>
          rcases he with rfl | rfl
          · exact absurd rfl hs.1.1.2
          · exact absurd rfl hs.1.2
        | none =>
          refine ⟨_,rfl,?_⟩
          simp only [nil_append,append_nil,readBetween_append] at hs ⊢
          exact numberValue_shortInteger d hsign hi hs.1.1.1
    next hlong =>
      have hexp := lexExponent_complete hexpo hr
      have hd : (exponent++rest).head? ≠ some (ch '.') := by
        cases hexpo with
        | none => exact fun hh => (hr _ hh).2.1 rfl
        | exponent he _ _ =>
          rw [cons_append,head?_cons]
          rcases he with rfl | rfl
          · decide
          · decide
      have hfrac : lexFraction (fraction++(exponent++rest)) = .ok (exponent++rest) :=
        lexFraction_complete hf (noDigit_after_integer .none hexpo hr.noDigit) hd
      rw [hfrac]
      simp only
      rw [hexp]
      refine ⟨_,rfl,?_⟩
      rw [NumberValue,if_neg,← hstart,readBetween_append]
      rintro ⟨hz,hne⟩
      obtain ⟨heq,rfl,rfl⟩ := parts_of_minusZero hsign hi hz
      rw [heq] at hlong
      refine hlong ⟨hd,isShortInteger_minusZero hne ?_ ?_⟩
      · exact fun hh => (hr _ hh).2.2.1 rfl
      · exact fun hh => (hr _ hh).2.2.2 rfl

/-! ### Numbers in a JSON text -/

/-- What may follow a number in a JSON text. -/
def FollowsNumber (rest : UString) : Prop :=
  ∀ c, rest.head? = some c → isJSONWhiteSpace c = true ∨ c = ch ',' ∨ c = ch ']' ∨ c = 0x7D

theorem FollowsNumber.endsNumber (h : FollowsNumber rest) : EndsNumber rest := by
  intro c hc
  have hcases := h c hc
  simp only [isJSONWhiteSpace,Bool.or_eq_true,decide_eq_true_eq,or_assoc] at hcases
  rcases hcases with rfl | rfl | rfl | rfl | rfl | rfl | rfl <;> decide

/-- The two ways to compute a number agree, whatever follows it, except for `-0`. -/
theorem lexNumber_eq_parseDouble (htext : NumberText text) (hzero : text ≠ minusZero)
    (hrest : FollowsNumber rest) : lexNumber d (text ++ rest) = .ok (parseDouble d text, rest) := by
  obtain ⟨x,hx,hv⟩ := lexNumber_complete d htext hrest.endsNumber
  rw [hx,hv,if_neg fun hz => hzero hz.1]

/-- Numbers of which only the sign is kept. -/
def signs : Doubles Bool := ⟨fun negative _ => negative, fun _ => none⟩

theorem lexNumber_minus_seven :
    lexNumber signs [ch '-', ch '7', ch ','] = .ok (parseDouble signs [ch '-', ch '7'], [ch ',']) := by
  have hs : IntegerText [ch '7'] := .digits (by decide) (by decide) (by simp)
  refine lexNumber_eq_parseDouble signs (numberText_integer (.inr rfl) hs) (by decide) ?_
  rintro _ ⟨⟩
  exact .inr (.inl rfl)

/-- The sign of `-0` is kept at the end of the input and lost in front of a `]`. -/
theorem lexNumber_minusZero_contexts :
    lexNumber signs minusZero = .ok (true, []) ∧
      lexNumber signs (minusZero ++ [ch ']']) = .ok (false, [ch ']']) := by
  constructor <;> rfl

end QPlusWeb.JSC
