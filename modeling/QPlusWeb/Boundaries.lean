import QPlusWeb.StepFunctions
import Mathlib.Algebra.Group.Nat.Even

/-!
# Sets given by their boundaries

A set of positions that changes at finitely many places is a step function with
the values in and out. The values alternate, so that the positions alone determine
it: an increasing list of even length, in which every first position
enters the set and every second one leaves it.
-/
namespace QPlusWeb.StepFunctions

variable {P : Type*} {l : List P} {b : Bool}

/-- The steps of a list of positions. -/
def toggles : Bool → List P → List (P × Bool)
  | _, [] => []
  | b, x :: l => (x, !b) :: toggles (!b) l

theorem map_fst_toggles (b : Bool) (l : List P) : (toggles b l).map Prod.fst = l := by
  induction l generalizing b with
  | nil => rfl
  | cons x l ih => rw [toggles,List.map_cons,ih]

/-- Truth values that change in every step alternate. -/
theorem toggles_map_fst {l : List (P × Bool)} (h : Reduced b l) :
    toggles b (l.map Prod.fst) = l := by
  induction l generalizing b with
  | nil => rfl
  | cons u l ih =>
    obtain ⟨x,c⟩ := u
    have hc : c = !b := Bool.eq_not_of_ne h.1
    rw [List.map_cons,toggles,← hc,ih h.2]

theorem reduced_toggles (b : Bool) (l : List P) : Reduced b (toggles b l) := by
  induction l generalizing b with
  | nil => trivial
  | cons x l ih => exact ⟨by simp,ih _⟩

theorem finalValue_toggles_cons_cons (b : Bool) (x y : P) (l : List P) :
    finalValue b (toggles b (x::y::l)) = finalValue b (toggles b l) := by
  simp [toggles,finalValue]

theorem even_of_finalValue : ∀ {l : List P}, finalValue b (toggles b l) = b → Even l.length
  | [], _ => .zero
  | [_], h => absurd h (by simp [toggles,finalValue])
  | x::y::l, h => by
    rw [finalValue_toggles_cons_cons] at h
    exact (even_of_finalValue h).add ⟨1,rfl⟩

theorem even_of_even_cons_cons {x y : P} (h : Even (x::y::l).length) : Even l.length := by
  simp only [List.length_cons,Nat.even_add_one,not_not] at h
  exact h

theorem finalValue_of_even : ∀ {l : List P}, Even l.length → finalValue b (toggles b l) = b
  | [], _ => rfl
  | [_], h => absurd h (by simp)
  | x::y::l, h => by
    rw [finalValue_toggles_cons_cons,finalValue_of_even (even_of_even_cons_cons h)]

variable [LinearOrder P]

theorem increasing_toggles (b : Bool) (h : l.Pairwise (· < ·)) : Increasing (toggles b l) := by
  refine (List.pairwise_map (f := Prod.fst)).mp ?_
  rwa [map_fst_toggles]

/-- Whether a position lies in the set with the given boundaries. -/
def inside (l : List P) (x : P) : Bool := valueAt false (toggles false l) x

@[simp] theorem inside_nil (x : P) : inside [] x = false := rfl

theorem inside_cons_cons (p q : P) (l : List P) (x : P) :
    inside (p::q::l) x = if x < p then false else if x < q then true else inside l x :=
  rfl

theorem inside_of_lt {x : P} (h : ∀ p ∈ l, x < p) : inside l x = false := by
  refine valueAt_of_lt fun u hu => h u.1 ?_
  rw [← map_fst_toggles false l]
  exact List.mem_map_of_mem hu

/-- A set that is empty in front of and behind all boundaries. -/
abbrev Segments (P : Type*) [LinearOrder P] := Steps P false

namespace Segments
variable {s t : Segments P} {x : P}

abbrev empty : Segments P := Steps.const false

def positions (s : Segments P) : List P := s.steps.map Prod.fst

theorem toggles_positions (s : Segments P) : toggles false s.positions = s.steps :=
  toggles_map_fst s.reduced

theorem positions_inj : s.positions = t.positions ↔ s = t := by
  refine ⟨fun h => Steps.ext ?_,congrArg _⟩
  rw [← s.toggles_positions,← t.toggles_positions,h]

theorem positions_pairwise (s : Segments P) : s.positions.Pairwise (· < ·) :=
  List.pairwise_map.mpr s.increasing

theorem even_positions (s : Segments P) : Even s.positions.length := by
  refine even_of_finalValue (b := false) ?_
  rw [s.toggles_positions,s.closed]

theorem value_eq_inside (s : Segments P) (x : P) : s.value x = inside s.positions x := by
  rw [inside,toggles_positions]
  rfl

theorem positions_eq_nil : s.positions = [] ↔ s = empty := by
  rw [← positions_inj]
  rfl

/-- The set with the given boundaries. -/
def ofPositions (l : List P) (h : l.Pairwise (· < ·)) (heven : Even l.length) : Segments P :=
  ⟨toggles false l, increasing_toggles false h, reduced_toggles false l, finalValue_of_even heven⟩

@[simp] theorem positions_ofPositions (h : l.Pairwise (· < ·))
    (he : Even l.length) : (ofPositions l h he).positions = l :=
  map_fst_toggles false l

end Segments

end QPlusWeb.StepFunctions
