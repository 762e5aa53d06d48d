import Mathlib.Data.Int.ConditionallyCompleteOrder
import Mathlib.Tactic.Linarith

/-!
# Lengths in 64ths of a pixel

`LayoutUnit.h` as it is built with subpixel layout and without saturated arithmetic.  A raw value is an
`int`; the operators are given on integers, so that what overflows is left out, and rounding as it
is computed.
-/

namespace QPlusWeb.WebCore

/-- A length, held as a number of 64ths of a pixel. -/
@[ext] structure LayoutUnit where
  rawValue : ℤ
deriving DecidableEq

namespace LayoutUnit

def kFixedPointDenominator : ℤ := 64

/-- The constructor from a number of whole pixels. -/
def ofInt (value : ℤ) : LayoutUnit := ⟨value*kFixedPointDenominator⟩

def toInt (a : LayoutUnit) : ℤ := a.rawValue.tdiv kFixedPointDenominator

/-- What an `int` keeps of a value. -/
def int32 (value : ℤ) : ℤ := value.bmod (2 ^ 32)

def round (a : LayoutUnit) : ℤ :=
  if a.rawValue > 0 then
    (int32 (a.rawValue + kFixedPointDenominator / 2)).tdiv kFixedPointDenominator
  else (int32 (a.rawValue - (kFixedPointDenominator / 2 - 1))).tdiv kFixedPointDenominator

def fraction (a : LayoutUnit) : LayoutUnit := ⟨a.rawValue.tmod kFixedPointDenominator⟩

instance : Add LayoutUnit := ⟨fun a b => ⟨a.rawValue+b.rawValue⟩⟩

instance : Mul LayoutUnit := ⟨fun a b => ⟨(a.rawValue*b.rawValue).tdiv kFixedPointDenominator⟩⟩

instance : Div LayoutUnit := ⟨fun a b => ⟨(kFixedPointDenominator*a.rawValue).tdiv b.rawValue⟩⟩

/-- The remainder at an integral quotient. -/
def intMod (a b : LayoutUnit) : LayoutUnit := ⟨a.rawValue.tmod b.rawValue⟩

instance : Mod LayoutUnit :=
  ⟨fun a b => ⟨((kFixedPointDenominator*a.rawValue).tmod b.rawValue).tdiv kFixedPointDenominator⟩⟩

def snapSizeToPixel (size location : LayoutUnit) : ℤ :=
  (location.fraction+size).round-location.fraction.round

/-- The snapped sizes of boxes that stand side by side from a location on. -/
def snappedSizes : LayoutUnit → List LayoutUnit → List ℤ
  | _,[] => []
  | location,size::sizes => snapSizeToPixel size location::snappedSizes (location+size) sizes

@[simp] theorem rawValue_add (a b : LayoutUnit) : (a+b).rawValue = a.rawValue+b.rawValue := rfl

/-- The lengths that can be rounded in an `int`: half a pixel less than it holds. -/
def Roundable (a : LayoutUnit) : Prop := -2 ^ 31 + 31 ≤ a.rawValue ∧ a.rawValue ≤ 2 ^ 31 - 1 - 32

instance (a : LayoutUnit) : Decidable a.Roundable := inferInstanceAs (Decidable (_ ∧ _))

theorem int32_of_fits {value : ℤ} (h : -2 ^ 31 ≤ value ∧ value < 2 ^ 31) : int32 value = value := by
  exact Int.bmod_eq_of_le (by omega) (by omega)

/-- Rounding adds half a pixel and takes the floor, below zero as above it. -/
theorem round_eq {a : LayoutUnit} (h : a.Roundable) : a.round = (a.rawValue + 32) / 64 := by
  obtain ⟨hlo, hhi⟩ := h
  have hs : Int.sign 64 = 1 := rfl
  simp only [round, kFixedPointDenominator]
  split_ifs
  · rw [int32_of_fits (by omega), Int.tdiv_eq_ediv]
    split_ifs <;> omega
  · rw [int32_of_fits (by omega), Int.tdiv_eq_ediv]
    split_ifs <;> omega

theorem tmod_between (a b : ℤ) : 0 ≤ a.tmod b ∧ a.tmod b ≤ a ∨ a ≤ a.tmod b ∧ a.tmod b ≤ 0 := by
  have hl := Nat.mod_le a.natAbs b.natAbs
  rw [←Int.natAbs_tmod] at hl
  obtain ha | ha := le_total 0 a
  · have hn := Int.tmod_nonneg b ha
    omega
  · have hn := Int.tmod_nonneg b (neg_nonneg.mpr ha)
    rw [Int.neg_tmod] at hn
    omega

/-- What is rounded is the size, moved towards the end of the box. -/
theorem snapSizeToPixel_eq {size location : LayoutUnit} (hsize : size.Roundable)
    (hlocation : location.Roundable) (hsum : (location + size).Roundable) :
    snapSizeToPixel size location = (location + size).round - location.round := by
  have hf := Int.mul_tdiv_add_tmod location.rawValue 64
  have hbetween := tmod_between location.rawValue 64
  have hlt := Int.tmod_lt_of_pos location.rawValue (b := 64) (by decide)
  have hgt := Int.lt_tmod_of_pos location.rawValue (b := 64) (by decide)
  have hfraction : location.fraction.Roundable := by
    simp only [Roundable, fraction, kFixedPointDenominator]
    omega
  have hboth : (location.fraction + size).Roundable := by
    simp only [Roundable, fraction, kFixedPointDenominator, rawValue_add] at hsize hsum ⊢
    omega
  rw [snapSizeToPixel, round_eq hboth, round_eq hfraction, round_eq hsum, round_eq hlocation]
  simp only [fraction, kFixedPointDenominator, rawValue_add]
  omega

/-- Boxes side by side from a location on whose sizes and ends can be rounded. -/
def BoxesFit (location : LayoutUnit) (sizes : List LayoutUnit) : Prop :=
  (∀ size ∈ sizes, size.Roundable) ∧
    ∀ k ≤ sizes.length, (location + ⟨((sizes.take k).map rawValue).sum⟩).Roundable

theorem BoxesFit.tail {location size : LayoutUnit} {sizes : List LayoutUnit}
    (h : BoxesFit location (size :: sizes)) : BoxesFit (location + size) sizes := by
  refine ⟨fun s hs => h.1 s (.tail _ hs), fun k hk => ?_⟩
  simpa [Roundable, add_assoc] using h.2 (k + 1) (Nat.succ_le_succ hk)

theorem sum_snappedSizes {location : LayoutUnit} {sizes : List LayoutUnit}
    (h : BoxesFit location sizes) :
    (snappedSizes location sizes).sum =
      (location + ⟨(sizes.map rawValue).sum⟩).round - location.round := by
  induction sizes generalizing location with
  | nil => simp [snappedSizes, round]
  | cons size sizes ih =>
    have hlocation : location.Roundable := by simpa [Roundable] using h.2 0 (Nat.zero_le _)
    have hsum : (location + size).Roundable := by simpa [Roundable] using h.2 1 (by simp)
    rw [snappedSizes, List.sum_cons, ih h.tail, snapSizeToPixel_eq (h.1 size (.head _)) hlocation hsum]
    have heq : location + size + ⟨(sizes.map rawValue).sum⟩ =
        location + ⟨((size :: sizes).map rawValue).sum⟩ := by
      ext
      simp [add_assoc]
    rw [heq]
    omega

/-- Snapping tiles, and rounding is monotone and commutes with whole pixels, for lengths half a pixel
within the range of an `int`. -/
theorem snapSizeToPixel_tiles :
    (∀ size location : LayoutUnit, size.Roundable → location.Roundable →
      (location + size).Roundable →
      snapSizeToPixel size location = (location + size).round - location.round) ∧
    (∀ location sizes, BoxesFit location sizes →
      Roundable ⟨(sizes.map rawValue).sum⟩ →
      (snappedSizes location sizes).sum = snapSizeToPixel ⟨(sizes.map rawValue).sum⟩ location) ∧
    (∀ a b : LayoutUnit, a.Roundable → b.Roundable → a.rawValue ≤ b.rawValue → a.round ≤ b.round) ∧
    ∀ a n, a.Roundable → (ofInt n).Roundable → (a + ofInt n).Roundable →
      (a + ofInt n).round = a.round + n := by
  refine ⟨fun size location => snapSizeToPixel_eq, fun location sizes h hunion => ?_,
    fun a b ha hb hle => ?_, fun a n ha _ hn => ?_⟩
  · have hlocation : location.Roundable := by simpa [Roundable] using h.2 0 (Nat.zero_le _)
    have hend := h.2 sizes.length le_rfl
    rw [List.take_length] at hend
    rw [sum_snappedSizes h, snapSizeToPixel_eq hunion hlocation hend]
  · rw [round_eq ha, round_eq hb]
    omega
  · rw [round_eq ha, round_eq hn]
    simp only [rawValue_add, ofInt, kFixedPointDenominator]
    omega

/-- Two boxes of a pixel and a half, the first one from half a pixel left of the origin. -/
theorem snapSizeToPixel_tiles_twoBoxes :
    snappedSizes ⟨-32⟩ [⟨96⟩, ⟨96⟩] = [1, 2] ∧
      (snappedSizes ⟨-32⟩ [⟨96⟩, ⟨96⟩]).sum = snapSizeToPixel ⟨192⟩ ⟨-32⟩ :=
  ⟨by decide, snapSizeToPixel_tiles.2.1 ⟨-32⟩ [⟨96⟩, ⟨96⟩] ⟨by decide, by decide⟩ (by decide)⟩

/-- The end of the box fits, but it is too large to be rounded. -/
theorem snapSizeToPixel_near_maximum :
    ((⟨2147483614⟩ : LayoutUnit) + ⟨2⟩).rawValue < 2 ^ 31 ∧ snapSizeToPixel ⟨2⟩ ⟨2147483614⟩ = 1 ∧
      ((⟨2147483614⟩ : LayoutUnit) + ⟨2⟩).round - round ⟨2147483614⟩ = -67108863 := by
  decide

theorem tdiv_tdiv_mul (a b : ℤ) : ((64*a).tdiv b).tdiv 64 = a.tdiv b := by
  have h (m n : ℕ) : ((64*(m : ℤ)).tdiv n).tdiv 64 = (m : ℤ).tdiv n := by
    have hn : 64*m/n/64 = m/n := by
      rw [Nat.div_div_eq_div_mul,Nat.mul_comm n,Nat.mul_div_mul_left _ _ (by decide)]
    exact congrArg Int.ofNat hn
  obtain ⟨m,rfl | rfl⟩ := a.eq_nat_or_neg <;> obtain ⟨n,rfl | rfl⟩ := b.eq_nat_or_neg <;>
    simp [h]

theorem tdiv_add_tdiv_iff {x r a : ℤ} (h : x+r = 64*a)
    (hr : 0 ≤ r ∧ r ≤ 64*a ∨ 64*a ≤ r ∧ r ≤ 0) : x.tdiv 64+r.tdiv 64 = a ↔ 64 ∣ r := by
  have hs : Int.sign 64 = 1 := rfl
  simp only [Int.tdiv_eq_ediv]
  split_ifs <;> omega

/-- A remainder of `a` by `b`: smaller in magnitude than `b` and of the sign of `a`. -/
def IsRemainder (a b r : LayoutUnit) : Prop :=
  r.rawValue.natAbs < b.rawValue.natAbs ∧ (0 ≤ a.rawValue → 0 ≤ r.rawValue) ∧
    (a.rawValue ≤ 0 → r.rawValue ≤ 0)

/-- The law of the integral quotient always holds. Both factors of the other one are rounded
towards zero, so it holds just when nothing is cut off. -/
theorem division_laws (a b : LayoutUnit) (hb : b.rawValue ≠ 0) :
    (a/b*b+a%b = a ↔ 64 ∣ (64*a.rawValue).tmod b.rawValue) ∧
    ofInt (a/b).toInt*b+intMod a b = a ∧
    IsRemainder a b (a%b) ∧ IsRemainder a b (intMod a b) := by
  have hs : Int.sign 64 = 1 := rfl
  have hm (c : ℤ) : (c.tmod b.rawValue).natAbs < b.rawValue.natAbs := by
    rw [Int.natAbs_tmod]
    exact Nat.mod_lt _ (Int.natAbs_pos.mpr hb)
  have hr := tmod_between (64*a.rawValue) b.rawValue
  refine ⟨?_,?_,?_,?_⟩
  · rw [LayoutUnit.ext_iff]
    exact tdiv_add_tdiv_iff (Int.tdiv_mul_add_tmod (64*a.rawValue) b.rawValue) hr
  · ext
    change ((((64*a.rawValue).tdiv b.rawValue).tdiv 64*64)*b.rawValue).tdiv 64+
      a.rawValue.tmod b.rawValue = a.rawValue
    rw [tdiv_tdiv_mul,mul_right_comm,Int.mul_tdiv_cancel _ (by decide),Int.tdiv_mul_add_tmod]
  · have h := hm (64*a.rawValue)
    change IsRemainder a b ⟨((64*a.rawValue).tmod b.rawValue).tdiv 64⟩
    simp only [IsRemainder,Int.tdiv_eq_ediv]
    split_ifs <;> omega
  · have h := hm a.rawValue
    have hr := tmod_between a.rawValue b.rawValue
    simp only [IsRemainder,intMod]
    omega

theorem division_laws_half : (⟨32⟩ : LayoutUnit)/⟨64⟩*⟨64⟩+⟨32⟩%⟨64⟩ = ⟨32⟩ :=
  (division_laws ⟨32⟩ ⟨64⟩ (by decide)).1.mpr (by decide)

/-- A 64th of a pixel divided by three of them. -/
theorem division_law_fails : (⟨1⟩ : LayoutUnit)/⟨3⟩*⟨3⟩+⟨1⟩%⟨3⟩ ≠ ⟨1⟩ := by
  decide

end LayoutUnit

end QPlusWeb.WebCore
