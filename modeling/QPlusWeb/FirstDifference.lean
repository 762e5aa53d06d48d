import Mathlib.Data.List.Lex
import Mathlib.Order.Basic
import Mathlib.Data.Int.Order.Basic
import Mathlib.Tactic.Tauto
import Mathlib.Tactic.Linarith

/-!
# Comparison results read as first differences

A three-way comparison returns an integer of which only the sign counts. Here
it is related to two words over a linear order: the result reports the first
place at which the words differ, and that place must lie inside both words.
Reports compose under concatenation, which is how a comparator that works
field by field is analysed, and they embed into the lexicographic order, from
which antisymmetry and transitivity follow at once.
-/
namespace QPlusWeb.FirstDifference

section
variable {α : Type*} [LinearOrder α]

/-- After a common beginning both words go on and `r` goes on lower. -/
def Below (r s : List α) : Prop :=
  ∃ p a b t u, r = p ++ a :: t ∧ s = p ++ b :: u ∧ a < b

/-- The sign of `x` tells equality or the direction of the first difference. -/
def Reports (x : ℤ) (r s : List α) : Prop :=
  (x = 0 ∧ r = s) ∨ (x < 0 ∧ Below r s) ∨ (0 < x ∧ Below s r)

theorem Below.lt {r s : List α} (h : Below r s) : r < s := by
  obtain ⟨p,a,b,t,u,rfl,rfl,hab⟩ := h
  induction p with
  | nil => exact List.Lex.rel hab
  | cons c p ih => exact List.Lex.cons ih

theorem Below.append {r s : List α} (h : Below r s) (t u : List α) : Below (r++t) (s++u) := by
  obtain ⟨p,a,b,v,w,rfl,rfl,hab⟩ := h
  exact ⟨p,a,b,v++t,w++u,by simp,by simp,hab⟩

theorem Below.prepend (p : List α) {r s : List α} (h : Below r s) : Below (p++r) (p++s) := by
  obtain ⟨q,a,b,v,w,rfl,rfl,hab⟩ := h
  exact ⟨p++q,a,b,v,w,by simp,by simp,hab⟩

theorem below_of_lt {a b : α} (h : a < b) (t u : List α) : Below (a::t) (b::u) :=
  ⟨[],a,b,t,u,rfl,rfl,h⟩

namespace Reports

theorem zero (r : List α) : Reports 0 r r := Or.inl ⟨rfl,rfl⟩

variable {r s : List α} {x : ℤ}

theorem of_neg (hx : x < 0) (h : Below r s) : Reports x r s := Or.inr (Or.inl ⟨hx,h⟩)

theorem of_pos (hx : 0 < x) (h : Below s r) : Reports x r s := Or.inr (Or.inr ⟨hx,h⟩)

theorem eq_of_zero (h : Reports 0 r s) : r = s := by
  rcases h with ⟨-,h⟩ | ⟨h,-⟩ | ⟨h,-⟩
  · exact h
  · omega
  · omega

theorem symm (h : Reports x r s) : Reports (-x) s r := by
  rcases h with ⟨hx,h⟩ | ⟨hx,h⟩ | ⟨hx,h⟩
  · exact Or.inl ⟨by omega,h.symm⟩
  · exact of_pos (by omega) h
  · exact of_neg (by omega) h

/-- A nonzero result decides whatever follows the words. -/
theorem append_of_ne (h : Reports x r s) (hx : x ≠ 0) (t u : List α) : Reports x (r++t) (s++u) := by
  rcases h with ⟨h0,-⟩ | ⟨hn,h⟩ | ⟨hp,h⟩
  · exact absurd h0 hx
  · exact of_neg hn (h.append t u)
  · exact of_pos hp (h.append u t)

theorem prepend (p : List α) (h : Reports x r s) : Reports x (p++r) (p++s) := by
  rcases h with ⟨h0,h⟩ | ⟨hn,h⟩ | ⟨hp,h⟩
  · exact Or.inl ⟨h0,by rw [h]⟩
  · exact of_neg hn (h.prepend p)
  · exact of_pos hp (h.prepend p)

/-- `if (int x = first) return x; return second;` -/
theorem then_append {x y : ℤ} {r s t u : List α} (h : Reports x r s)
    (h' : x = 0 → Reports y t u) : Reports (if x ≠ 0 then x else y) (r++t) (s++u) := by
  by_cases hx : x = 0
  · subst hx
    rw [if_neg (by simp),h.eq_of_zero]
    exact (h' rfl).prepend s
  · rw [if_pos hx]
    exact h.append_of_ne hx t u

section
variable (h : Reports x r s)
include h

theorem neg_iff : x < 0 ↔ r < s := by
  rcases h with ⟨h0,rfl⟩ | ⟨hn,h⟩ | ⟨hp,h⟩
  · exact ⟨fun hx => by omega,fun hr => absurd hr (lt_irrefl r)⟩
  · exact ⟨fun _ => h.lt,fun _ => hn⟩
  · exact ⟨fun hx => by omega,fun hr => absurd hr (lt_asymm h.lt)⟩

theorem pos_iff : 0 < x ↔ s < r := by
  rw [← h.symm.neg_iff]
  omega

theorem zero_iff : x = 0 ↔ r = s := by
  have hn := h.neg_iff
  have hp := h.pos_iff
  constructor
  · intro hx
    subst hx
    exact h.eq_of_zero
  · intro he
    subst he
    have h₁ : ¬x < 0 := fun hx => lt_irrefl r (hn.mp hx)
    have h₂ : ¬0 < x := fun hx => lt_irrefl r (hp.mp hx)
    omega

theorem nonpos_iff : x ≤ 0 ↔ r ≤ s := by
  rw [← not_lt,← not_lt,h.pos_iff]

end

/-- Words that can be reported on delimit themselves. -/
theorem append_inj {r s t u : List α} (h : Reports x r s) (he : r++t = s++u) : r = s ∧ t = u := by
  rcases h with ⟨-,h⟩ | ⟨-,h⟩ | ⟨-,h⟩
  · subst h
    exact ⟨rfl,List.append_cancel_left he⟩
  · exact absurd he (h.append t u).lt.ne
  · exact absurd he.symm (h.append u t).lt.ne

/-- Two results that report the same words have the same sign. -/
theorem sign_eq {x y : ℤ} (h : Reports x r s) (h' : Reports y r s) : x.sign = y.sign := by
  rcases lt_trichotomy x 0 with hx | hx | hx
  · rw [Int.sign_eq_neg_one_of_neg hx,Int.sign_eq_neg_one_of_neg (h'.neg_iff.mpr (h.neg_iff.mp hx))]
  · rw [hx,h'.zero_iff.mpr (h.zero_iff.mp hx)]
  · rw [Int.sign_eq_one_of_pos hx,Int.sign_eq_one_of_pos (h'.pos_iff.mpr (h.pos_iff.mp hx))]

/-- Any integer with the sign of the difference of two numbers reports them. -/
theorem singleton {a b : α} (hn : x < 0 ↔ a < b) (hp : 0 < x ↔ b < a) : Reports x [a] [b] := by
  rcases lt_trichotomy a b with h | h | h
  · exact of_neg (hn.mpr h) (below_of_lt h [] [])
  · refine Or.inl ⟨?_,by rw [h]⟩
    have h₁ : ¬x < 0 := fun hx => (hn.mp hx).ne h
    have h₂ : ¬0 < x := fun hx => (hp.mp hx).ne h.symm
    omega
  · exact of_pos (hp.mpr h) (below_of_lt h [] [])

/-- First letters that differ decide. -/
theorem cons_of_ne {a b : α} (hx : x ≠ 0) (hn : x < 0 ↔ a < b) (hp : 0 < x ↔ b < a)
    (t u : List α) : Reports x (a::t) (b::u) :=
  (singleton hn hp).append_of_ne hx t u

end Reports

end

end QPlusWeb.FirstDifference
