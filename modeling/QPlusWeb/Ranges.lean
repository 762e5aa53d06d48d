import Mathlib.Algebra.BigOperators.Group.List.Basic
import Mathlib.Algebra.BigOperators.Group.Finset.Basic
import Mathlib.Algebra.Order.BigOperators.Group.Finset
import Mathlib.Algebra.Order.BigOperators.Group.List
import Mathlib.Tactic.Linarith

/-!
# Ranges of addresses

A family of ranges is described by how many of its members cover an address. The
members are disjoint if no address is covered twice, and cutting a range in two
does not change what is covered.
-/
namespace QPlusWeb.Ranges

structure Range where
  start : ℕ
  size : ℕ
  deriving DecidableEq, Repr

namespace Range

def stop (r : Range) : ℕ := r.start + r.size

instance : Membership ℕ Range where
  mem r a := r.start ≤ a ∧ a < r.stop

variable {r : Range} {a : ℕ}

theorem mem_iff : a ∈ r ↔ r.start ≤ a ∧ a < r.stop := Iff.rfl

instance (r : Range) (a : ℕ) : Decidable (a ∈ r) :=
  inferInstanceAs (Decidable (r.start ≤ a ∧ a < r.stop))

theorem start_mem (h : 0 < r.size) : r.start ∈ r := ⟨le_rfl,Nat.lt_add_of_pos_right h⟩

theorem last_mem (h : 0 < r.size) : r.stop-1 ∈ r := by
  simp only [mem_iff,stop]
  omega

/-- How often a range covers an address. -/
def covers (r : Range) (a : ℕ) : ℕ := if a ∈ r then 1 else 0

theorem covers_of_mem (h : a ∈ r) : r.covers a = 1 := if_pos h

theorem covers_of_notMem (h : a ∉ r) : r.covers a = 0 := if_neg h

theorem covers_pos : 0 < r.covers a ↔ a ∈ r := by
  unfold covers
  split <;> simp_all

theorem covers_cut (start m n a : ℕ) :
    covers ⟨start,m+n⟩ a = covers ⟨start,m⟩ a+covers ⟨start+m,n⟩ a := by
  simp only [covers,mem_iff,stop]
  split_ifs <;> omega

def Disjoint (r q : Range) : Prop := ∀ a ∈ r, a ∉ q

theorem disjoint_of_covers {r q : Range} (h : ∀ a, r.covers a+q.covers a ≤ 1) : r.Disjoint q := by
  intro a hr hq
  have hle := h a
  rw [covers_of_mem hr,covers_of_mem hq] at hle
  omega

end Range

/-- How often a list of ranges covers an address. -/
def cover (l : List Range) (a : ℕ) : ℕ := (l.map fun r => r.covers a).sum

def totalSize (l : List Range) : ℕ := (l.map Range.size).sum

@[simp] theorem cover_nil (a : ℕ) : cover [] a = 0 := rfl

@[simp] theorem cover_cons (r : Range) (l : List Range) (a : ℕ) :
    cover (r::l) a = r.covers a+cover l a := by
  simp [cover]

@[simp] theorem totalSize_cons (r : Range) (l : List Range) :
    totalSize (r::l) = r.size+totalSize l := by
  simp [totalSize]

variable {l : List Range}

theorem cover_erase {r : Range} (h : r ∈ l) (a : ℕ) :
    cover l a = r.covers a+cover (l.erase r) a := by
  exact ((List.perm_cons_erase h).map _).sum_eq

theorem covers_le_cover {r : Range} (h : r ∈ l) (a : ℕ) : r.covers a ≤ cover l a := by
  rw [cover_erase h]
  exact Nat.le_add_right _ _

theorem cover_pos {a : ℕ} : 0 < cover l a ↔ ∃ r ∈ l, a ∈ r := by
  induction l with
  | nil => simp
  | cons r l ih =>
    rw [cover_cons,Nat.add_pos_iff_pos_or_pos,ih,Range.covers_pos]
    simp

theorem pairwise_disjoint (h : ∀ a, cover l a ≤ 1) : l.Pairwise Range.Disjoint := by
  induction l with
  | nil => exact .nil
  | cons r l ih =>
    refine .cons (fun q hq => Range.disjoint_of_covers fun a => ?_) (ih fun a => ?_)
    · exact (Nat.add_le_add_left (covers_le_cover hq a) _).trans (h a)
    · exact (Nat.le_add_left ..).trans (h a)

end QPlusWeb.Ranges
