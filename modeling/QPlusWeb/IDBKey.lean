import QPlusWeb.FirstDifference

/-!
# IndexedDB keys and their order

Keys are numbers, dates, strings of UTF-16 code units and arrays of keys. A
double is its bit pattern, compared as IEEE 754 prescribes: not at all when
either side is a NaN, and otherwise by sign and magnitude, so that the two
zeros are equal. `compare` follows the source. Every key has a word over the
integers whose first differences are exactly what `compare` reports.
-/
namespace QPlusWeb.IDB
open FirstDifference List

structure Double where
  bits : UInt64
  deriving DecidableEq, Repr

namespace Double

def magnitude (d : Double) : ℕ := d.bits.toNat % 2 ^ 63

def isNaN (d : Double) : Bool := decide (0x7ff0000000000000 < d.magnitude)

/-- The position of a double that is not a NaN on the number line. -/
def order (d : Double) : ℤ :=
  if d.bits.toNat < 2 ^ 63 then (d.magnitude : ℤ) else -(d.magnitude : ℤ)

def lt (d e : Double) : Bool := !d.isNaN && !e.isNaN && decide (d.order < e.order)

end Double

/-- The idiom `d < e ? -1 : d > e ? 1 : 0`. -/
def compareDoubles (d e : Double) : ℤ :=
  if d.lt e then -1 else if e.lt d then 1 else 0

theorem compareDoubles_reports {d e : Double} (hd : d.isNaN = false) (he : e.isNaN = false) :
    Reports (compareDoubles d e) [d.order] [e.order] := by
  have hlt : ∀ a b : Double, a.isNaN = false → b.isNaN = false →
      (a.lt b ↔ a.order < b.order) := fun a b ha hb => by simp [Double.lt,ha,hb]
  simp only [compareDoubles,hlt d e hd he,hlt e d he hd]
  apply Reports.singleton
  · split_ifs <;> omega
  · split_ifs <;> omega

abbrev UChar := UInt16

/-- `codePointCompare` of the string library: code units, then lengths. -/
def codePointCompare : List UChar → List UChar → ℤ
  | [], [] => 0
  | [], _ :: _ => -1
  | _ :: _, [] => 1
  | a :: as, b :: bs => if a = b then codePointCompare as bs else if b < a then 1 else -1

/-- Code units shifted by one, closed by a zero. -/
def stringWord (s : List UChar) : List ℤ := s.map (fun c => (c.toNat : ℤ) + 1) ++ [0]

theorem stringWord_cons (c : UChar) (s : List UChar) :
    stringWord (c::s) = ((c.toNat : ℤ)+1)::stringWord s := rfl

theorem codePointCompare_reports (s t : List UChar) :
    Reports (codePointCompare s t) (stringWord s) (stringWord t) := by
  induction s generalizing t with
  | nil =>
    cases t with
    | nil => exact Reports.zero _
    | cons b bs =>
      rw [stringWord_cons,codePointCompare]
      exact Reports.of_neg (by decide) (below_of_lt (by omega) _ _)
  | cons a as ih =>
    cases t with
    | nil =>
      rw [stringWord_cons,codePointCompare]
      exact Reports.of_pos (by decide) (below_of_lt (by omega) _ _)
    | cons b bs =>
      rw [stringWord_cons,stringWord_cons,codePointCompare]
      split_ifs with hab hba
      · rw [hab]
        exact (ih bs).prepend [_]
      · have hlt : b.toNat < a.toNat := UInt16.lt_iff_toNat_lt.mp hba
        exact Reports.of_pos (by decide) (below_of_lt (by omega) _ _)
      · have hne : a.toNat ≠ b.toNat := fun h => hab (UInt16.toNat_inj.mp h)
        have hle : ¬b.toNat < a.toNat := fun h => hba (UInt16.lt_iff_toNat_lt.mpr h)
        exact Reports.of_neg (by decide) (below_of_lt (by omega) _ _)

theorem stringWord_injective {s t : List UChar} (h : stringWord s = stringWord t) : s = t := by
  refine map_injective_iff.mpr (fun a b hab => ?_) (append_cancel_right h)
  exact UInt16.toNat_inj.mp (by omega)

inductive IDBKey where
  | invalid
  | array (keys : List IDBKey)
  | string (value : List UChar)
  | date (value : Double)
  | number (value : Double)
  deriving Repr

/-- In order of the least to the highest precedent in terms of sort order. -/
inductive KeyType where
  | invalid | array | string | date | number | min
  deriving DecidableEq, Repr

def KeyType.value : KeyType → ℕ
  | .invalid => 0
  | .array => 1
  | .string => 2
  | .date => 3
  | .number => 4
  | .min => 5

def compareTypes (a b : KeyType) : ℤ := (b.value : ℤ) - a.value

namespace IDBKey

/-- Induction over nested arrays: every element satisfies the property first. -/
@[induction_eliminator] theorem induct {P : IDBKey → Prop} (invalid : P .invalid)
    (array : ∀ ks, (∀ k ∈ ks, P k) → P (.array ks)) (string : ∀ s, P (.string s))
    (date : ∀ d, P (.date d)) (number : ∀ d, P (.number d)) (k : IDBKey) : P k :=
  @IDBKey.rec P (fun ks => ∀ k ∈ ks, P k) invalid array string date number (by simp)
    (fun _ _ hk hks => by simpa using ⟨hk,hks⟩) k

def type : IDBKey → KeyType
  | .invalid => .invalid
  | .array _ => .array
  | .string _ => .string
  | .date _ => .date
  | .number _ => .number

mutual

def isValid : IDBKey → Bool
  | .invalid => false
  | .array ks => allValid ks
  | _ => true

def allValid : List IDBKey → Bool
  | [] => true
  | k :: ks => k.isValid && allValid ks

end

mutual

/-- The sizes `String` and `Vector` can hold: their lengths are 32-bit. -/
def Fits : IDBKey → Prop
  | .string s => s.length < 2 ^ 32
  | .array ks => ks.length < 2 ^ 32 ∧ AllFit ks
  | _ => True

def AllFit : List IDBKey → Prop
  | [] => True
  | k :: ks => k.Fits ∧ AllFit ks

end

mutual

def NoNaN : IDBKey → Prop
  | .date d => d.isNaN = false
  | .number d => d.isNaN = false
  | .array ks => AllNoNaN ks
  | _ => True

def AllNoNaN : List IDBKey → Prop
  | [] => True
  | k :: ks => k.NoNaN ∧ AllNoNaN ks

end

theorem AllFit.of_mem {k : IDBKey} {ks : List IDBKey} (h : AllFit ks) (hk : k ∈ ks) : k.Fits := by
  induction ks with
  | nil => simp at hk
  | cons x ks ih =>
    rcases mem_cons.mp hk with rfl | hk
    · exact h.1
    · exact ih h.2 hk

theorem AllNoNaN.of_mem {k : IDBKey} {ks : List IDBKey} (h : AllNoNaN ks)
    (hk : k ∈ ks) : k.NoNaN := by
  induction ks with
  | nil => simp at hk
  | cons x ks ih =>
    rcases mem_cons.mp hk with rfl | hk
    · exact h.1
    · exact ih h.2 hk

mutual

def compare (a b : IDBKey) : ℤ :=
  if a.type ≠ b.type then
    if b.type.value < a.type.value then -1 else 1
  else
    match a, b with
    | .array as, .array bs => compareArrays as bs
    | .string s, .string t => -codePointCompare t s
    | .date d, .date e => compareDoubles d e
    | .number d, .number e => compareDoubles d e
    | _, _ => 0

/-- The element loop, then the comparison of the sizes. -/
def compareArrays : List IDBKey → List IDBKey → ℤ
  | [], [] => 0
  | [], _ :: _ => -1
  | _ :: _, [] => 1
  | a :: as, b :: bs => if a.compare b ≠ 0 then a.compare b else compareArrays as bs

end

def isEqual (a b : IDBKey) : Bool := decide (a.compare b = 0)

/-- Higher types sort first; zero is kept for the end of an array. -/
def rank (t : KeyType) : ℤ := 6 - t.value

theorem rank_pos (t : KeyType) : 0 < rank t := by cases t <;> decide

mutual

def word : IDBKey → List ℤ
  | .invalid => [rank .invalid]
  | .array ks => rank .array :: wordArray ks
  | .string s => rank .string :: stringWord s
  | .date d => [rank .date, d.order]
  | .number d => [rank .number, d.order]

def wordArray : List IDBKey → List ℤ
  | [] => [0]
  | k :: ks => k.word ++ wordArray ks

end

theorem word_eq_cons (k : IDBKey) : ∃ w, k.word = rank k.type::w := by
  cases k <;> exact ⟨_,by rw [word]; rfl⟩

theorem type_value_injective {a b : KeyType} (h : a.value = b.value) : a = b := by
  cases a <;> cases b <;> simp_all [KeyType.value]

/-- Keys of different types are told apart by their first letters. -/
theorem compare_reports_of_type_ne {a b : IDBKey} (h : a.type ≠ b.type) :
    Reports (a.compare b) a.word b.word := by
  have hv : a.type.value ≠ b.type.value := fun hv => h (type_value_injective hv)
  obtain ⟨v,hv⟩ := word_eq_cons a
  obtain ⟨w,hw⟩ := word_eq_cons b
  unfold compare
  rw [if_pos h,hv,hw]
  unfold rank
  split_ifs <;> exact .cons_of_ne (by omega) (by omega) (by omega) _ _

theorem compareArrays_reports {as : List IDBKey}
    (ih : ∀ a ∈ as, ∀ b : IDBKey, a.NoNaN → b.NoNaN → Reports (a.compare b) a.word b.word)
    (bs : List IDBKey) (ha : AllNoNaN as) (hb : AllNoNaN bs) :
    Reports (compareArrays as bs) (wordArray as) (wordArray bs) := by
  induction as generalizing bs with
  | nil =>
    cases bs with
    | nil =>
      exact Reports.zero _
    | cons b bs =>
      obtain ⟨w,hw⟩ := word_eq_cons b
      simp only [compareArrays,wordArray,hw,cons_append]
      exact Reports.of_neg (by decide) (below_of_lt (rank_pos _) _ _)
  | cons a as iha =>
    cases bs with
    | nil =>
      obtain ⟨w,hw⟩ := word_eq_cons a
      simp only [compareArrays,wordArray,hw,cons_append]
      exact Reports.of_pos (by decide) (below_of_lt (rank_pos _) _ _)
    | cons b bs =>
      have hh := ih a mem_cons_self b ha.1 hb.1
      have ht := iha (fun x hx => ih x (mem_cons_of_mem a hx)) bs ha.2 hb.2
      exact hh.then_append fun _ => ht

/-- Two keys are of different types, or both go by the same constructor. -/
theorem pair_induct {P : IDBKey → IDBKey → Prop} (ne : ∀ a b, a.type ≠ b.type → P a b)
    (invalid : P .invalid .invalid)
    (array : ∀ as bs, (∀ a ∈ as, ∀ b, P a b) → P (.array as) (.array bs))
    (string : ∀ s t, P (.string s) (.string t)) (date : ∀ d e, P (.date d) (.date e))
    (number : ∀ d e, P (.number d) (.number e)) (a b : IDBKey) : P a b := by
  induction a generalizing b with
  | invalid =>
    cases b with
    | invalid => exact invalid
    | _ => exact ne _ _ (by simp [type])
  | array as ih =>
    cases b with
    | array bs => exact array as bs ih
    | _ => exact ne _ _ (by simp [type])
  | string s =>
    cases b with
    | string t => exact string s t
    | _ => exact ne _ _ (by simp [type])
  | date d =>
    cases b with
    | date e => exact date d e
    | _ => exact ne _ _ (by simp [type])
  | number d =>
    cases b with
    | number e => exact number d e
    | _ => exact ne _ _ (by simp [type])

/-- Without NaNs, `compare` reports the first difference of the words. -/
theorem compare_reports (a b : IDBKey) (ha : a.NoNaN) (hb : b.NoNaN) :
    Reports (a.compare b) a.word b.word := by
  induction a, b using pair_induct with
  | ne a b h => exact compare_reports_of_type_ne h
  | invalid =>
    exact Reports.zero _
  | array as bs ih =>
    exact (compareArrays_reports ih bs ha hb).prepend [_]
  | string s t =>
    exact (codePointCompare_reports t s).symm.prepend [_]
  | date d e | number d e =>
    exact (compareDoubles_reports ha hb).prepend [_]

end IDBKey

end QPlusWeb.IDB
