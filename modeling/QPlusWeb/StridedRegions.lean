import QPlusWeb.Ranges

/-!
# Regions of a linear memory

A box of rows and slices lies in a linear memory at fixed distances.  All its indices are below a length
if and only if its last one is.  Two ranges of one size meet if and only if each starts before the other
ends.
-/

namespace QPlusWeb.StridedRegions

open Ranges

/-- `width` units a row, `height` rows a slice, `depth` slices. -/
structure Box where
  originX : ℕ
  originY : ℕ
  originZ : ℕ
  width : ℕ
  height : ℕ
  depth : ℕ
  rowPitch : ℕ
  slicePitch : ℕ
  deriving DecidableEq, Repr

namespace Box

def offset (b : Box) : ℕ := b.originZ * b.slicePitch + b.originY * b.rowPitch + b.originX

def area (b : Box) : ℕ := b.width * b.height * b.depth

def index (b : Box) (x y z : ℕ) : ℕ := b.offset + z * b.slicePitch + y * b.rowPitch + x

/-- Every index of the box is below `length`. -/
def Within (b : Box) (length : ℕ) : Prop :=
  ∀ x y z, x < b.width → y < b.height → z < b.depth → b.index x y z < length

theorem ne_zero_of_area {b : Box} (h : b.area ≠ 0) : b.width ≠ 0 ∧ b.height ≠ 0 ∧ b.depth ≠ 0 := by
  have hd := mul_ne_zero_iff.mp h
  have hw := mul_ne_zero_iff.mp hd.1
  exact ⟨hw.1, hw.2, hd.2⟩

/-- The greatest index of a box that is not empty. -/
def last (b : Box) : ℕ := b.index (b.width - 1) (b.height - 1) (b.depth - 1)

theorem within_iff {b : Box} {length : ℕ} (h : b.area ≠ 0) : b.Within length ↔ b.last < length := by
  obtain ⟨hw, hh, hd⟩ := ne_zero_of_area h
  constructor
  · intro hin
    exact hin _ _ _ (Nat.sub_one_lt hw) (Nat.sub_one_lt hh) (Nat.sub_one_lt hd)
  · intro hl x y z hx hy hz
    refine lt_of_le_of_lt ?_ hl
    unfold last index
    exact Nat.add_le_add (Nat.add_le_add (Nat.add_le_add_left
      (Nat.mul_le_mul_right _ (Nat.le_sub_one_of_lt hz)) _)
      (Nat.mul_le_mul_right _ (Nat.le_sub_one_of_lt hy))) (Nat.le_sub_one_of_lt hx)

end Box

/-- Some address is in both ranges. -/
def Meets (r q : Range) : Prop := ∃ a, a ∈ r ∧ a ∈ q

theorem meets_iff {s d n : ℕ} : Meets ⟨s,n⟩ ⟨d,n⟩ ↔ s < d+n ∧ d < s+n := by
  simp only [Meets,Range.mem_iff,Range.stop]
  constructor
  · rintro ⟨a,hs,hd⟩
    omega
  · rintro ⟨hs,hd⟩
    exact ⟨max s d,by omega,by omega⟩

/-- The first of two ranges of one size ends where the other starts. -/
def Touches (r q : Range) : Prop := min r.start q.start + r.size = max r.start q.start

/-- There is a gap between the two. -/
def Apart (r q : Range) : Prop := min r.start q.start + r.size < max r.start q.start

instance (r q : Range) : Decidable (Touches r q) := inferInstanceAs (Decidable (_ = _))

instance (r q : Range) : Decidable (Apart r q) := inferInstanceAs (Decidable (_ < _))

theorem meets_iff_not_apart {r q : Range} (h : r.size = q.size) :
    Meets r q ↔ ¬ Touches r q ∧ ¬ Apart r q := by
  obtain ⟨s, n⟩ := r
  obtain ⟨d, m⟩ := q
  obtain rfl : n = m := h
  rw [meets_iff]
  simp only [Touches, Apart]
  omega

end QPlusWeb.StridedRegions
