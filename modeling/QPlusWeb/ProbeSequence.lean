import Mathlib.Data.Nat.ModEq
import Mathlib.Data.Fintype.EquivFin
import Mathlib.Data.Nat.Find
import Mathlib.Data.Nat.Prime.Basic
import Mathlib.Tactic.Ring

/-!
# Probe sequences and searches that end

A `while (1)` loop is a step function run on fuel; running out of fuel is the
loop that does not end. A search that follows a sequence of places stops at the
first place that satisfies its condition.

Stepping through a table whose size is a power of two by an odd distance
visits every place once before it repeats, so a search for a property that some
place has ends within one round.
-/
namespace QPlusWeb.ProbeSequence

section Loops
variable {σ ρ : Type*} {fuel : ℕ} {r : ρ}

/-- Runs `step` until it returns. -/
def loop (step : σ → σ ⊕ ρ) : ℕ → σ → Option ρ
  | 0, _ => none
  | fuel + 1, s =>
    match step s with
    | .inl s' => loop step fuel s'
    | .inr r => some r

/-- A loop is known from the states it goes through. -/
theorem loop_of_trace {step : σ → σ ⊕ ρ} (state : ℕ → σ) {n : ℕ}
    (hs : ∀ j < n, step (state j) = .inl (state (j+1))) (hstop : step (state n) = .inr r)
    (hf : n < fuel) : loop step fuel (state 0) = some r := by
  induction n generalizing state fuel with
  | zero =>
    obtain ⟨fuel,rfl⟩ : ∃ m, fuel = m+1 := ⟨fuel-1,by omega⟩
    simp [loop,hstop]
  | succ n ih =>
    obtain ⟨fuel,rfl⟩ : ∃ m, fuel = m+1 := ⟨fuel-1,by omega⟩
    simp only [loop,hs 0 (by omega)]
    exact ih (fun j => state (j+1)) (fun j hj => hs (j+1) (by omega)) hstop (by omega)

/-- The loop ends with a result. -/
def Ends (step : σ → σ ⊕ ρ) (s : σ) (r : ρ) : Prop := ∃ fuel, loop step fuel s = some r

/-- What is left to do after a round ends with a result. -/
def Yields (step : σ → σ ⊕ ρ) : σ ⊕ ρ → ρ → Prop
  | .inl s, r => Ends step s r
  | .inr r', r => r' = r

variable {step : σ → σ ⊕ ρ} {s : σ} {P : σ → Prop}

theorem ends_of_yields (h : Yields step (step s) r) : Ends step s r := by
  cases hs : step s with
  | inl s' =>
    rw [hs] at h
    obtain ⟨fuel,hf⟩ := h
    exact ⟨fuel+1,by simp [loop,hs,hf]⟩
  | inr r' =>
    rw [hs] at h
    exact ⟨1,by simp only [loop,hs]; exact congrArg some h⟩

theorem loop_add (h : loop step fuel s = some r) (more : ℕ) : loop step (fuel+more) s = some r := by
  induction fuel generalizing s with
  | zero => cases h
  | succ fuel ih =>
    rw [Nat.succ_add]
    cases hs : step s with
    | inl s' =>
      simp only [loop,hs] at h ⊢
      exact ih h
    | inr r' => simpa only [loop,hs] using h

theorem Ends.eq_of_loop {r' : ρ} (h : Ends step s r) (hl : loop step fuel s = some r') :
    r' = r := by
  obtain ⟨fuel',hf'⟩ := h
  have h1 := loop_add hl fuel'
  have h2 := loop_add hf' fuel
  rw [Nat.add_comm,h2,Option.some.injEq] at h1
  exact h1.symm

/-- After `n` rounds the loop is in another state. -/
def Passes (step : σ → σ ⊕ ρ) (n : ℕ) (s s' : σ) : Prop :=
  ∀ fuel, loop step (fuel + n) s = loop step fuel s'

theorem passes_zero (s : σ) : Passes step 0 s s := fun _ => rfl

theorem passes_one {s' : σ} (h : step s = .inl s') : Passes step 1 s s' := by
  intro fuel
  simp [loop,h]

theorem Passes.trans {m n : ℕ} {s' s'' : σ} (h : Passes step m s s') (h' : Passes step n s' s'') :
    Passes step (m+n) s s'' := by
  intro fuel
  rw [Nat.add_comm m n,← Nat.add_assoc,h,h']

/-- A loop ends if every round makes a measure smaller, as long as an invariant holds. -/
theorem exists_loop_of_measure (measure : σ → ℕ)
    (hstep : ∀ s s', P s → step s = .inl s' → P s' ∧ measure s' < measure s)
    (hP : P s) (hf : measure s < fuel) : ∃ r, loop step fuel s = some r := by
  induction fuel generalizing s with
  | zero => omega
  | succ fuel ih =>
    cases hs : step s with
    | inl s' =>
      obtain ⟨hP',hlt⟩ := hstep s s' hP hs
      obtain ⟨r,hr⟩ := ih hP' (by omega)
      exact ⟨r,by simp [loop,hs,hr]⟩
    | inr r => exact ⟨r,by simp [loop,hs]⟩

/-- What every round keeps, or establishes when it is the last one, holds of the result. -/
theorem loop_induction {Q : ρ → Prop}
    (hn : ∀ s s', P s → step s = .inl s' → P s') (hlast : ∀ s r, P s → step s = .inr r → Q r)
    (hP : P s) (hl : loop step fuel s = some r) : Q r := by
  induction fuel generalizing s with
  | zero => cases hl
  | succ fuel ih =>
    cases hr : step s with
    | inl s' =>
      simp only [loop,hr] at hl
      exact ih (hn s s' hP hr) hl
    | inr r' =>
      simp only [loop,hr,Option.some.injEq] at hl
      rw [← hl]
      exact hlast s r' hP hr

end Loops

/-- The `n`-th place of a walk around a table. -/
def probe (start distance size n : ℕ) : ℕ := (start + n * distance) % size

theorem probe_lt {start distance size : ℕ} (h : 0 < size) (n : ℕ) :
    probe start distance size n < size := Nat.mod_lt _ h

theorem probe_zero {start size : ℕ} (distance : ℕ) (h : start < size) :
    probe start distance size 0 = start := by
  simp [probe,Nat.mod_eq_of_lt h]

theorem probe_succ (start distance size n : ℕ) :
    probe start distance size (n+1) = (probe start distance size n+distance) % size := by
  unfold probe
  rw [Nat.mod_add_mod]
  ring_nf

theorem coprime_of_odd {distance : ℕ} (h : distance % 2 = 1) (m : ℕ) :
    Nat.Coprime (2^m) distance := by
  apply Nat.Coprime.pow_left
  exact Nat.coprime_two_left.mpr (Nat.odd_iff.mpr h)

theorem probe_injOn {start distance m i j : ℕ} (h : distance % 2 = 1) (hi : i < 2^m)
    (hj : j < 2^m) (he : probe start distance (2^m) i = probe start distance (2^m) j) :
    i = j := by
  have ha : i*distance ≡ j*distance [MOD 2^m] := Nat.ModEq.add_left_cancel' start he
  have hm : i ≡ j [MOD 2^m] := Nat.ModEq.cancel_right_of_coprime (coprime_of_odd h m) ha
  exact Nat.ModEq.eq_of_lt_of_lt hm hi hj

/-- One round of an odd walk comes to every place. -/
theorem probe_surjOn {distance m p : ℕ} (start : ℕ) (h : distance % 2 = 1) (hp : p < 2^m) :
    ∃ n < 2^m, probe start distance (2^m) n = p := by
  let walk : Fin (2^m) → Fin (2^m) := fun n =>
    ⟨probe start distance (2^m) n,probe_lt (Nat.two_pow_pos m) n⟩
  have hi : Function.Injective walk := by
    intro i j hij
    exact Fin.ext (probe_injOn h i.2 j.2 (congrArg Fin.val hij))
  obtain ⟨n,hn⟩ := Finite.injective_iff_surjective.mp hi ⟨p,hp⟩
  exact ⟨n,n.2,congrArg Fin.val hn⟩

/-- `place` lies on the walk, and no place before it is `empty`. -/
def Reaches (path : ℕ → ℕ) (empty : ℕ → Prop) (place : ℕ) : Prop :=
  ∃ n, path n = place ∧ ∀ j < n, ¬ empty (path j)

theorem Reaches.mono {path : ℕ → ℕ} {empty empty' : ℕ → Prop} {place : ℕ}
    (h : Reaches path empty place) (hi : ∀ p, empty' p → empty p) :
    Reaches path empty' place := by
  obtain ⟨n,hn,hb⟩ := h
  exact ⟨n,hn,fun j hj he => hb j hj (hi _ he)⟩

/-- A search along a walk that comes to every place within one round.  It stops at a place that is
`found` or `empty`, and in the second case no place that is `found` can be reached. -/
theorem exists_search {σ ρ : Type*} (path : ℕ → ℕ) (found : ℕ → Prop) {empty : ℕ → Prop}
    (step : σ → σ ⊕ ρ) (state : ℕ → σ) {size : ℕ} (hpath : ∀ p < size, ∃ n < size, path n = p)
    (hempty : ∃ p < size, empty p)
    (hstep : ∀ j, ¬found (path j) → ¬empty (path j) → step (state j) = .inl (state (j+1))) :
    ∃ n, (∀ r, step (state n) = .inr r → loop step size (state 0) = some r) ∧
      (∀ j < n, ¬empty (path j)) ∧
      (found (path n) ∨ empty (path n) ∧ ∀ p, Reaches path empty p → ¬found p) := by
  classical
  obtain ⟨p,hp,he⟩ := hempty
  obtain ⟨k,hk,rfl⟩ := hpath p hp
  have hex : ∃ n, found (path n) ∨ empty (path n) := ⟨k,.inr he⟩
  have hle : Nat.find hex ≤ k := Nat.find_min' hex (.inr he)
  have hb : ∀ j < Nat.find hex, ¬found (path j) ∧ ¬empty (path j) :=
    fun j hj => not_or.mp (Nat.find_min hex hj)
  refine ⟨Nat.find hex,fun r hr => ?_,fun j hj => (hb j hj).2,?_⟩
  · exact loop_of_trace state (fun j hj => hstep j (hb j hj).1 (hb j hj).2) hr (by omega)
  · refine or_iff_not_imp_left.mpr fun ho => ?_
    have hs := (Nat.find_spec hex).resolve_left ho
    refine ⟨hs,?_⟩
    rintro p ⟨i,rfl,hi⟩ hf
    rcases Nat.lt_trichotomy i (Nat.find hex) with hlt | heq | hgt
    · exact (hb i hlt).1 hf
    · exact ho (heq ▸ hf)
    · exact hi _ hgt hs

end QPlusWeb.ProbeSequence
