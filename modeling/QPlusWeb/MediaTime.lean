import Mathlib

/-!
# Comparing media times

`MediaTime::compare` orders special times by their flags.  Finite times are compared by their truncated
quotients and then by their remainders, brought to a common scale.
-/

namespace QPlusWeb.WTF

structure MediaTime where
  timeValue : Int64
  timeScale : Int32
  timeFlags : UInt32

namespace MediaTime

def isInvalid (t : MediaTime) : Bool := t.timeFlags &&& 1 == 0

def isPositiveInfinite (t : MediaTime) : Bool := t.timeFlags &&& 4 != 0

def isNegativeInfinite (t : MediaTime) : Bool := t.timeFlags &&& 8 != 0

def isIndefinite (t : MediaTime) : Bool := t.timeFlags &&& 16 != 0

/-- The end of `compare`, for times that are not special. -/
def compareFinite (lhs rhs : MediaTime) : Ordering :=
  let rhsWhole := rhs.timeValue / rhs.timeScale.toInt64
  let lhsWhole := lhs.timeValue / lhs.timeScale.toInt64
  if lhsWhole > rhsWhole then .gt
  else if lhsWhole < rhsWhole then .lt
  else
    let rhsRemain := rhs.timeValue % rhs.timeScale.toInt64
    let lhsRemain := lhs.timeValue % lhs.timeScale.toInt64
    let lhsFactor := lhsRemain * rhs.timeScale.toInt64
    let rhsFactor := rhsRemain * lhs.timeScale.toInt64
    if lhsFactor = rhsFactor then .eq else if lhsFactor > rhsFactor then .gt else .lt

def compare (lhs rhs : MediaTime) : Ordering :=
  if lhs.isPositiveInfinite && rhs.isPositiveInfinite
      || lhs.isNegativeInfinite && rhs.isNegativeInfinite
      || lhs.isInvalid && rhs.isInvalid || lhs.isIndefinite && rhs.isIndefinite then .eq
  else if lhs.isInvalid then .gt
  else if rhs.isInvalid then .lt
  else if rhs.isNegativeInfinite || lhs.isPositiveInfinite then .gt
  else if rhs.isPositiveInfinite || lhs.isNegativeInfinite then .lt
  else if lhs.isIndefinite then .gt
  else if rhs.isIndefinite then .lt
  else lhs.compareFinite rhs

/-- The place of a time: the special times have places of their own, and a finite time is a rational
number. -/
def rank (t : MediaTime) : ℕ ×ₗ ℚ :=
  if t.isInvalid then toLex (4, 0)
  else if t.isPositiveInfinite then toLex (3, 0)
  else if t.isIndefinite then toLex (2, 0)
  else if t.isNegativeInfinite then toLex (0, 0)
  else toLex (1, t.timeValue.toInt / t.timeScale.toInt)

/-- The scale is positive, and the flags do not contradict each other. -/
structure Proper (t : MediaTime) : Prop where
  scale_pos : 0 < t.timeScale.toInt
  single : [t.isInvalid, t.isPositiveInfinite, t.isNegativeInfinite, t.isIndefinite].count true ≤ 1

section
variable {v : Int64} {s t : Int32} (hs : 0 < s.toInt) (ht : 0 < t.toInt)
include hs ht

theorem toInt_whole : (v / s.toInt64).toInt = (t.toInt*v.toInt).tdiv (t.toInt*s.toInt) := by
  have hne : s.toInt64 ≠ -1 := by
    intro h
    rw [← Int32.toInt_toInt64,h] at hs
    exact absurd hs (by decide)
  rw [Int64.toInt_div_of_ne_right _ _ hne,Int32.toInt_toInt64,Int.mul_tdiv_mul_of_pos _ _ ht]

theorem toInt_factor :
    (v % s.toInt64*t.toInt64).toInt = (t.toInt*v.toInt).tmod (t.toInt*s.toInt) := by
  have hlt := Int.tmod_lt_of_pos v.toInt hs
  have hgt := Int.lt_tmod_of_pos v.toInt hs
  have hs' := s.toInt_lt
  have ht' := t.toInt_lt
  rw [Int64.toInt_mul,Int64.toInt_mod,Int32.toInt_toInt64,Int32.toInt_toInt64,
    Int.mul_tmod_mul_of_pos _ _ ht,Int.mul_comm]
  exact Int.bmod_eq_of_le_mul_two (by push_cast; nlinarith) (by push_cast; nlinarith)

end

theorem compares_div_iff {x y s t : ℤ} (hs : 0 < s) (ht : 0 < t) (o : Ordering) :
    o.Compares (x / s : ℚ) (y / t) ↔ o.Compares (t*x) (s*y) := by
  have hs' : (0 : ℚ) < s := Int.cast_pos.mpr hs
  have ht' : (0 : ℚ) < t := Int.cast_pos.mpr ht
  rw [Int.mul_comm t,Int.mul_comm s]
  cases o <;> simp only [Ordering.Compares,gt_iff_lt,div_lt_div_iff₀ hs' ht',
    div_lt_div_iff₀ ht' hs',div_eq_div_iff hs'.ne' ht'.ne'] <;> norm_cast

variable {a b c : MediaTime}

theorem compareFinite_compares (ha : 0 < a.timeScale.toInt) (hb : 0 < b.timeScale.toInt) :
    (a.compareFinite b).Compares (a.timeValue.toInt / a.timeScale.toInt : ℚ)
      (b.timeValue.toInt / b.timeScale.toInt) := by
  rw [compares_div_iff ha hb]
  have hp := Int.mul_pos ha hb
  simp only [compareFinite,gt_iff_lt,Int64.lt_iff_toInt_lt,← Int64.toInt_inj,
    toInt_whole ha hb,toInt_whole hb ha,toInt_factor ha hb,toInt_factor hb ha,
    Int.mul_comm b.timeScale.toInt a.timeScale.toInt]
  generalize b.timeScale.toInt*a.timeValue.toInt = x, a.timeScale.toInt*b.timeValue.toInt = y,
    a.timeScale.toInt*b.timeScale.toInt = n at *
  have hx := Int.mul_tdiv_add_tmod x n
  have hy := Int.mul_tdiv_add_tmod y n
  split_ifs with hgt hlt heq hf
  · exact Int.not_le.mp fun hle => hgt.not_ge (Int.tdiv_le_tdiv hp hle)
  · exact Int.not_le.mp fun hle => hlt.not_ge (Int.tdiv_le_tdiv hp hle)
  all_goals rw [Int.le_antisymm (Int.not_lt.mp hgt) (Int.not_lt.mp hlt)] at hx
  · exact hx.symm.trans (heq ▸ hy)
  · change y < x
    omega
  · change x < y
    omega

theorem compare_compares (ha : a.Proper) (hb : b.Proper) : (a.compare b).Compares a.rank b.rank :=
    by
  obtain ⟨hs,hsingle⟩ := ha
  obtain ⟨ht,hsingle'⟩ := hb
  have hm : StrictMono fun q : ℚ => (toLex (1,q) : ℕ ×ₗ ℚ) := fun _ _ => .right _
  have hf := hm.compares.mpr (compareFinite_compares hs ht)
  unfold compare rank
  generalize a.isInvalid = i, a.isPositiveInfinite = p, a.isNegativeInfinite = n,
    a.isIndefinite = d at *
  generalize b.isInvalid = i', b.isPositiveInfinite = p', b.isNegativeInfinite = n',
    b.isIndefinite = d' at *
  cases i <;> cases p <;> cases n <;> cases d <;> first
    | exact absurd hsingle (by decide)
    | cases i' <;> cases p' <;> cases n' <;> cases d' <;> first
      | exact absurd hsingle' (by decide)
      | rfl
      | exact Prod.Lex.left _ _ (by decide)
      | simpa only [Bool.and_self,Bool.or_self,Bool.false_eq_true,if_false] using hf

/-- A total preorder: the order of the places. -/
theorem compare_eq_cmp_rank (ha : a.Proper) (hb : b.Proper) (hc : c.Proper) :
    a.compare b = cmp a.rank b.rank ∧ b.compare a = (a.compare b).swap ∧
      (a.compare b ≠ .gt → b.compare c ≠ .gt → a.compare c ≠ .gt) := by
  have hcmp : ∀ {a b : MediaTime}, a.Proper → b.Proper → a.compare b = cmp a.rank b.rank :=
    fun ha hb => (compare_compares ha hb).cmp_eq.symm
  rw [hcmp ha hb,hcmp hb ha,hcmp hb hc,hcmp ha hc]
  refine ⟨rfl,(cmp_swap _ _).symm,?_⟩
  simp only [ne_eq,cmp_eq_gt_iff,not_lt]
  exact le_trans

theorem compare_eq_cmp_rank_half :
    (⟨1, 2, 1⟩ : MediaTime).compare ⟨0, 1, 9⟩ = cmp (rank ⟨1, 2, 1⟩) (rank ⟨0, 1, 9⟩) :=
  (compare_eq_cmp_rank (c := ⟨0,1,1⟩) ⟨by decide,by decide⟩ ⟨by decide,by decide⟩
    ⟨by decide,by decide⟩).1

/-- A time with the flags of both infinities is above and below a finite one. -/
theorem compare_contradictory_flags : ∃ a b : MediaTime, 0 < a.timeScale ∧ 0 < b.timeScale ∧
    a.compare b = .gt ∧ b.compare a = .gt := ⟨⟨0,1,13⟩,⟨0,1,1⟩,by decide⟩

end MediaTime

end QPlusWeb.WTF
