import Mathlib.Data.List.Chain
import Mathlib.Order.Defs.LinearOrder
import Mathlib.Data.Int.Order.Basic
import Mathlib.Tactic.Linarith

/-!
# Step functions

A step function is given by a list of positions, each with the value that holds
from there on, and by the value in front of the first one. Two step functions are
combined by walking both lists at once, and steps that do not change the value can
be left out. A list is reduced if it has no such steps; the steps of a
reduced list are then exactly the places where the function changes.
-/
namespace QPlusWeb.StepFunctions
open List

variable {P α β γ : Type*}

/-- The steps are in the order of their positions. -/
def Increasing [LT P] (l : List (P × α)) : Prop := l.Pairwise fun u v => u.1 < v.1

theorem increasing_nil [LT P] : Increasing ([] : List (P × α)) := .nil

/-- Every step changes the value. -/
def Reduced : α → List (P × α) → Prop
  | _, [] => True
  | a, (_, b) :: l => b ≠ a ∧ Reduced b l

/-- The value behind all steps. -/
def finalValue : α → List (P × α) → α
  | a, [] => a
  | _, (_, b) :: l => finalValue b l

/-- Leaves out the steps that do not change the value. -/
def reduce [DecidableEq α] : α → List (P × α) → List (P × α)
  | _, [] => []
  | a, (p, b) :: l => if b = a then reduce a l else (p, b) :: reduce b l

section
variable [DecidableEq α] {a : α} {l : List (P × α)}

theorem reduce_of_reduced (h : Reduced a l) : reduce a l = l := by
  induction l generalizing a with
  | nil => rfl
  | cons u l ih => rw [reduce,if_neg h.1,ih h.2]

variable (a l)

theorem reduce_sublist : (reduce a l).Sublist l := by
  induction l generalizing a with
  | nil => exact .slnil
  | cons u l ih =>
    unfold reduce
    split
    · exact (ih a).cons u
    · exact (ih u.2).cons_cons u

theorem reduced_reduce : Reduced a (reduce a l) := by
  induction l generalizing a with
  | nil => trivial
  | cons u l ih =>
    unfold reduce
    split
    · exact ih a
    · next hne => exact ⟨hne,ih u.2⟩

theorem finalValue_reduce : finalValue a (reduce a l) = finalValue a l := by
  induction l generalizing a with
  | nil => rfl
  | cons u l ih =>
    unfold reduce
    split
    · next heq => rw [ih,finalValue,heq]
    · exact ih u.2

/-- Steps that all keep the value disappear. -/
theorem reduce_constant {m : List (P × β)} : reduce a (m.map fun u => (u.1,a)) = [] := by
  induction m with
  | nil => rfl
  | cons u m ih => simpa [reduce] using ih

theorem reduce_cons (u : P × α) : reduce a (u::l) = reduce a [u]++reduce u.2 l := by
  simp only [reduce]
  split
  · next heq => rw [heq,nil_append]
  · rfl

end

theorem reduced_append {a : α} {l m : List (P × α)} :
    Reduced a (l++m) ↔ Reduced a l ∧ Reduced (finalValue a l) m := by
  induction l generalizing a with
  | nil => simp [Reduced,finalValue]
  | cons u l ih => simp [Reduced,finalValue,ih,and_assoc]

theorem finalValue_append (a : α) (l m : List (P × α)) :
    finalValue a (l++m) = finalValue (finalValue a l) m := by
  induction l generalizing a with
  | nil => rfl
  | cons u l ih => exact ih u.2

theorem finalValue_map {Q : Type*} (g : P → Q) (f : α → β) (a : α) (l : List (P × α)) :
    finalValue (f a) (l.map fun u => (g u.1,f u.2)) = f (finalValue a l) := by
  induction l generalizing a with
  | nil => rfl
  | cons u l ih => exact ih u.2

variable [LinearOrder P] {u : P × α}

/-- The value at a position. -/
def valueAt : α → List (P × α) → P → α
  | a, [], _ => a
  | a, (p, b) :: l, x => if x < p then a else valueAt b l x

section Values
variable {a : α} {l : List (P × α)} {x : P}

theorem Increasing.head_le (h : Increasing l) {v : P × α} (hu : u ∈ l.head?) (hv : v ∈ l) :
    u.1 ≤ v.1 := by
  cases l with
  | nil => cases hv
  | cons w l =>
    cases hu
    rcases mem_cons.mp hv with rfl | hv
    · exact le_rfl
    · exact ((pairwise_cons.mp h).1 v hv).le

theorem valueAt_of_lt (h : ∀ u ∈ l, x < u.1) : valueAt a l x = a := by
  cases l with
  | nil => rfl
  | cons u l => exact if_pos (h u mem_cons_self)

theorem valueAt_of_le (h : ∀ u ∈ l, u.1 ≤ x) : valueAt a l x = finalValue a l := by
  induction l generalizing a with
  | nil => rfl
  | cons u l ih =>
    rw [valueAt,if_neg (not_lt.mpr (h u mem_cons_self)),finalValue]
    exact ih (forall_mem_cons.mp h).2

theorem valueAt_map {Q : Type*} [LinearOrder Q] {g : P → Q} (hg : ∀ p, g x < g p ↔ x < p)
    (f : α → β) (a : α) (l : List (P × α)) :
    valueAt (f a) (l.map fun u => (g u.1,f u.2)) (g x) = f (valueAt a l x) := by
  induction l generalizing a with
  | nil => rfl
  | cons u l ih =>
    simp only [map_cons,valueAt,hg]
    split
    · rfl
    · exact ih u.2

theorem valueAt_reduce [DecidableEq α] (h : Increasing l) (a : α) (x : P) :
    valueAt a (reduce a l) x = valueAt a l x := by
  induction l generalizing a with
  | nil => rfl
  | cons u l ih =>
    obtain ⟨hh,ht⟩ := pairwise_cons.mp h
    unfold reduce
    split
    · next heq =>
        rw [ih ht,valueAt]
        split
        · next hlt => exact valueAt_of_lt fun v hv => hlt.trans (hh v hv)
        · rw [heq]
    · simp [valueAt,ih ht]

theorem valueAt_of_mem (h : Increasing l) (hu : u ∈ l) : valueAt a l u.1 = u.2 := by
  induction l generalizing a with
  | nil => cases hu
  | cons v l ih =>
    obtain ⟨hh,ht⟩ := pairwise_cons.mp h
    rcases mem_cons.mp hu with rfl | hu
    · rw [valueAt,if_neg (lt_irrefl _)]
      exact valueAt_of_lt hh
    · rw [valueAt,if_neg (not_lt.mpr (hh u hu).le)]
      exact ih ht hu

theorem valueAt_eq_or_mem (a : α) (l : List (P × α)) (x : P) :
    valueAt a l x = a ∨ ∃ u ∈ l, valueAt a l x = u.2 := by
  induction l generalizing a with
  | nil => exact .inl rfl
  | cons u l ih =>
    rw [valueAt]
    split
    · exact .inl rfl
    · rcases ih u.2 with heq | ⟨v,hv,heq⟩
      · exact .inr ⟨u,mem_cons_self,heq⟩
      · exact .inr ⟨v,mem_cons_of_mem _ hv,heq⟩

theorem valueAt_head (h : Increasing (u::l)) : valueAt a (u::l) u.1 = u.2 :=
  valueAt_of_mem h mem_cons_self

/-- A reduced list is determined by its values. -/
theorem eq_of_valueAt {m : List (P × α)} (hl : Increasing l) (hm : Increasing m)
    (hrl : Reduced a l) (hrm : Reduced a m) (h : ∀ x, valueAt a l x = valueAt a m x) : l = m := by
  induction l generalizing a m with
  | nil =>
    cases m with
    | nil => rfl
    | cons v m => exact absurd ((valueAt_head hm).symm.trans (h v.1).symm) hrm.1
  | cons u l ih =>
    cases m with
    | nil => exact absurd ((valueAt_head hl).symm.trans (h u.1)) hrl.1
    | cons v m =>
      have hu : valueAt a (v::m) u.1 = u.2 := (h u.1).symm.trans (valueAt_head hl)
      have hv : valueAt a (u::l) v.1 = v.2 := (h v.1).trans (valueAt_head hm)
      -- Neither list can have its first step in front of the other one's.
      have hp : u.1 = v.1 := by
        rcases lt_trichotomy u.1 v.1 with hlt | heq | hlt
        · rw [valueAt,if_pos hlt] at hu
          exact absurd hu.symm hrl.1
        · exact heq
        · rw [valueAt,if_pos hlt] at hv
          exact absurd hv.symm hrm.1
      have hval : u.2 = v.2 := by rw [← hv,← hp,valueAt_head hl]
      have huv : u = v := Prod.ext hp hval
      subst huv
      obtain ⟨hhead,htail⟩ := pairwise_cons.mp hl
      obtain ⟨hhead',htail'⟩ := pairwise_cons.mp hm
      rw [ih htail htail' hrl.2 hrm.2 fun x => ?_]
      by_cases hx : x < u.1
      · rw [valueAt_of_lt fun w hw => hx.trans (hhead w hw),
          valueAt_of_lt fun w hw => hx.trans (hhead' w hw)]
      · have hx' := h x
        rwa [valueAt,valueAt,if_neg hx,if_neg hx] at hx'

end Values

/-! ### Combining two step functions -/

/-- The steps of both lists, each with the value of `f` from there on. -/
def combine (f : α → β → γ) : α → β → List (P × α) → List (P × β) → List (P × γ)
  | a, b, (p, a') :: l, (q, b') :: m =>
    if p < q then (p, f a' b) :: combine f a' b l ((q, b') :: m)
    else if p = q then (p, f a' b') :: combine f a' b' l m
    else (q, f a b') :: combine f a b' ((p, a') :: l) m
  | _, b, l, [] => l.map fun u => (u.1, f u.2 b)
  | a, _, [], m => m.map fun u => (u.1, f a u.2)
termination_by _ _ l m => l.length + m.length

section
variable {f : α → β → γ} {a : α} {b : β} {l : List (P × α)} {m : List (P × β)} {x : P}

theorem forall_lt_combine (hl : ∀ u ∈ l, x < u.1) (hm : ∀ v ∈ m, x < v.1) :
    ∀ w ∈ combine f a b l m, x < w.1 := by
  fun_induction combine f a b l m with
  | case1 a b p a' l q b' m hlt ih =>
    rw [forall_mem_cons] at hl ⊢
    exact ⟨hl.1,ih hl.2 hm⟩
  | case2 a b a' l p b' m hlt ih =>
    rw [forall_mem_cons] at hl hm ⊢
    exact ⟨hl.1,ih hl.2 hm.2⟩
  | case3 a b p a' l q b' m hlt hne ih =>
    rw [forall_mem_cons] at hm ⊢
    exact ⟨hm.1,ih hl hm.2⟩
  | case4 a b l => exact forall_mem_map.mpr hl
  | case5 a b m => exact forall_mem_map.mpr hm

theorem increasing_combine (hl : Increasing l) (hm : Increasing m) :
    Increasing (combine f a b l m) := by
  fun_induction combine f a b l m with
  | case1 a b p a' l q b' m hlt ih =>
    obtain ⟨hp,hl'⟩ := pairwise_cons.mp hl
    obtain ⟨hq,-⟩ := pairwise_cons.mp hm
    refine .cons (forall_lt_combine hp (forall_mem_cons.mpr ⟨hlt,?_⟩)) (ih hl' hm)
    exact fun v hv => hlt.trans (hq v hv)
  | case2 a b a' l p b' m hlt ih =>
    obtain ⟨hp,hl'⟩ := pairwise_cons.mp hl
    obtain ⟨hq,hm'⟩ := pairwise_cons.mp hm
    exact .cons (forall_lt_combine hp hq) (ih hl' hm')
  | case3 a b p a' l q b' m hlt hne ih =>
    obtain ⟨hp,-⟩ := pairwise_cons.mp hl
    obtain ⟨hq,hm'⟩ := pairwise_cons.mp hm
    have hqp : q < p := lt_of_le_of_ne (not_lt.mp hlt) (Ne.symm hne)
    refine .cons (forall_lt_combine (forall_mem_cons.mpr ⟨hqp,?_⟩) hq) (ih hl hm')
    exact fun u hu => hqp.trans (hp u hu)
  | case4 a b l => exact pairwise_map.mpr hl
  | case5 a b m => exact pairwise_map.mpr hm

/-- The combined list is the step function of the combined values. -/
theorem valueAt_combine (hl : Increasing l) (hm : Increasing m) :
    valueAt (f a b) (combine f a b l m) x = f (valueAt a l x) (valueAt b m x) := by
  fun_induction combine f a b l m with
  | case1 a b p a' l q b' m hlt ih =>
    simp only [valueAt]
    by_cases hx : x < p
    · rw [if_pos hx,if_pos hx,if_pos (hx.trans hlt)]
    · rw [if_neg hx,if_neg hx]
      exact ih hl.of_cons hm
  | case2 a b a' l p b' m hlt ih =>
    simp only [valueAt]
    by_cases hx : x < p
    · rw [if_pos hx,if_pos hx,if_pos hx]
    · rw [if_neg hx,if_neg hx,if_neg hx]
      exact ih hl.of_cons hm.of_cons
  | case3 a b p a' l q b' m hlt hne ih =>
    have hqp : q < p := lt_of_le_of_ne (not_lt.mp hlt) (Ne.symm hne)
    simp only [valueAt]
    by_cases hx : x < q
    · rw [if_pos hx,if_pos hx,if_pos (hx.trans hqp)]
    · rw [if_neg hx,if_neg hx]
      exact ih hl hm.of_cons
  | case4 a b l => exact valueAt_map (g := id) (fun _ => .rfl) (f · b) a l
  | case5 a b m => exact valueAt_map (g := id) (fun _ => .rfl) (f a) b m

variable (f a b l m)

theorem combine_nil_left : combine f a b [] m = m.map fun u => (u.1,f a u.2) := by
  cases m <;> simp [combine]

theorem combine_nil_right : combine f a b l [] = l.map fun u => (u.1,f u.2 b) := by
  cases l <;> simp [combine]

theorem finalValue_combine :
    finalValue (f a b) (combine f a b l m) = f (finalValue a l) (finalValue b m) := by
  fun_induction combine f a b l m with
  | case1 a b p a' l q b' m hlt ih | case2 a b a' l p b' m hlt ih
  | case3 a b p a' l q b' m hlt hne ih => exact ih
  | case4 a b l => exact finalValue_map id (f · b) a l
  | case5 a b m => exact finalValue_map id (f a) b m

end

/-! ### Closed step functions -/

/-- A reduced list of steps that begins and ends with the value `e`. -/
structure Steps (P : Type*) [LinearOrder P] {α : Type*} (e : α) where
  steps : List (P × α)
  increasing : Increasing steps
  reduced : Reduced e steps
  closed : finalValue e steps = e

namespace Steps
variable {e : α} {s t : Steps P e} {d : β} {c : γ} {x : P}

@[ext] theorem ext (h : s.steps = t.steps) : s = t := by
  cases s
  cases t
  congr

def value (s : Steps P e) (x : P) : α := valueAt e s.steps x

/-- Step functions with the same values are the same. -/
theorem ext_value (h : ∀ x, s.value x = t.value x) : s = t :=
  Steps.ext (eq_of_valueAt s.increasing t.increasing s.reduced t.reduced h)

instance [DecidableEq α] : DecidableEq (Steps P e) := fun s t =>
  decidable_of_iff (s.steps = t.steps) ⟨Steps.ext, congrArg steps⟩

/-- The constant step function. -/
def const (e : α) : Steps P e := ⟨[], increasing_nil, trivial, rfl⟩

@[simp] theorem value_const (x : P) : (const e : Steps P e).value x = e := rfl

variable [DecidableEq γ] (f : α → β → γ) (hf : f e d = c)

/-- Two functions combined by an operation. -/
def combine (s : Steps P e) (t : Steps P d) : Steps P c where
  steps := reduce c (StepFunctions.combine f e d s.steps t.steps)
  increasing := (increasing_combine s.increasing t.increasing).sublist (reduce_sublist _ _)
  reduced := reduced_reduce _ _
  closed := by
    subst hf
    rw [finalValue_reduce, finalValue_combine, s.closed, t.closed]

theorem value_combine (s : Steps P e) (t : Steps P d) (x : P) :
    (s.combine f hf t).value x = f (s.value x) (t.value x) := by
  subst hf
  rw [value,combine,valueAt_reduce (increasing_combine s.increasing t.increasing),
    valueAt_combine s.increasing t.increasing]
  rfl

theorem combine_const : (const e : Steps P e).combine f hf (const d) = const c := by
  ext1
  simp [combine,const,combine_nil_left,reduce]

theorem value_of_mem (hu : u ∈ s.steps) : s.value u.1 = u.2 := valueAt_of_mem s.increasing hu

theorem value_of_lt (h : ∀ u ∈ s.steps, x < u.1) : s.value x = e := valueAt_of_lt h

theorem value_of_le (h : ∀ u ∈ s.steps, u.1 ≤ x) : s.value x = e := (valueAt_of_le h).trans s.closed

theorem exists_steps_of_value_ne (h : s.value x ≠ e) :
    (∃ u ∈ s.steps, u.1 ≤ x) ∧ ∃ u ∈ s.steps, x < u.1 := by
  constructor
  · by_contra hn
    push Not at hn
    exact h (value_of_lt hn)
  · by_contra hn
    push Not at hn
    exact h (value_of_le hn)

theorem exists_value_ne (h : s ≠ const e) : ∃ x, s.value x ≠ e := by
  by_contra hn
  push Not at hn
  exact h (ext_value hn)

end Steps

/-! ### Steps at integers -/

theorem valueAt_sub_one_ne {a : α} {l : List (ℤ × α)} (h : Increasing l) (hl : Reduced a l)
    {u : ℤ × α} (hu : u ∈ l) : valueAt a l (u.1-1) ≠ u.2 := by
  induction l generalizing a with
  | nil => cases hu
  | cons v l ih =>
    obtain ⟨hh,ht⟩ := pairwise_cons.mp h
    rcases mem_cons.mp hu with rfl | hu
    · rw [valueAt,if_pos (by omega)]
      exact hl.1.symm
    · have hlt := hh u hu
      rw [valueAt,if_neg (by omega)]
      exact ih ht hl.2 hu

namespace Steps
variable {e : α} {s : Steps ℤ e} {u : ℤ × α}

/-- The function changes at each of its steps. -/
theorem value_sub_one_ne (hu : u ∈ s.steps) : s.value (u.1-1) ≠ s.value u.1 := by
  rw [s.value_of_mem hu]
  exact valueAt_sub_one_ne s.increasing s.reduced hu

/-- In front of or behind each of its steps the function has another value than `e`. -/
theorem exists_value_ne_of_mem (hu : u ∈ s.steps) : ∃ x, s.value x ≠ e ∧ (x = u.1 ∨ x = u.1-1) := by
  by_cases h : s.value u.1 = e
  · exact ⟨_,fun heq => value_sub_one_ne hu (heq.trans h.symm),.inr rfl⟩
  · exact ⟨_,h,.inl rfl⟩

/-- The function moved by `d`, with other values. -/
def move (s : Steps ℤ e) (d : ℤ) (g : α → β) (hg : Function.Injective g) : Steps ℤ (g e) where
  steps := s.steps.map fun u => (u.1 + d, g u.2)
  increasing := pairwise_map.mpr (s.increasing.imp fun h => by simpa using h)
  reduced := by
    have hreduced : ∀ {a : α} {l : List (ℤ × α)}, Reduced a l →
        Reduced (g a) (l.map fun u => (u.1 + d, g u.2)) := by
      intro a l h
      induction l generalizing a with
      | nil => trivial
      | cons u l ih => exact ⟨hg.ne h.1, ih h.2⟩
    exact hreduced s.reduced
  closed := by rw [finalValue_map (· + d), s.closed]

theorem value_move (s : Steps ℤ e) (d : ℤ) (g : α → β) (hg : Function.Injective g) (x : ℤ) :
    (s.move d g hg).value x = g (s.value (x-d)) := by
  have hv := valueAt_map (g := (· + d)) (x := x-d) (fun _ => by omega) g e s.steps
  rwa [Int.sub_add_cancel] at hv

theorem value_ne_of_least (hu : u ∈ s.steps) (h : ∀ v ∈ s.steps, u.1 ≤ v.1) : s.value u.1 ≠ e := by
  have hb : s.value (u.1-1) = e := value_of_lt fun v hv => by
    have := h v hv
    omega
  exact fun heq => value_sub_one_ne hu (hb.trans heq.symm)

theorem value_ne_of_greatest (hu : u ∈ s.steps) (h : ∀ v ∈ s.steps, v.1 ≤ u.1) :
    s.value (u.1-1) ≠ e := by
  have hb : s.value u.1 = e := value_of_le h
  exact fun heq => value_sub_one_ne hu (heq.trans hb.symm)

end Steps

end QPlusWeb.StepFunctions
