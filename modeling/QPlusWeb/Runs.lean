import Mathlib.Data.Option.Basic

/-!
# Runs of a system

A system takes steps that may be impossible in a state.  What holds at the start and is kept by every
allowed step holds in every state that is reached.
-/

namespace QPlusWeb.Runs

variable {σ α : Type*} {step : σ → α → Option σ} {allowed allowed' : σ → α → Prop}
  {start : σ → Prop} {s t : σ} {actions : List α}

/-- The states that allowed steps reach. -/
inductive Reaches (step : σ → α → Option σ) (allowed : σ → α → Prop) (start : σ → Prop) : σ → Prop
  | start {s : σ} : start s → Reaches step allowed start s
  | step {s s' : σ} {a : α} : Reaches step allowed start s → allowed s a → step s a = some s' →
      Reaches step allowed start s'

theorem Reaches.invariant {P : σ → Prop} (hstart : ∀ s, start s → P s)
    (hstep : ∀ s a s', P s → allowed s a → step s a = some s' → P s')
    (h : Reaches step allowed start s) : P s := by
  induction h with
  | start hs => exact hstart _ hs
  | step _ ha hs ih => exact hstep _ _ _ ih ha hs

theorem Reaches.mono (hallowed : ∀ s a, allowed s a → allowed' s a)
    (h : Reaches step allowed start s) : Reaches step allowed' start s := by
  induction h with
  | start hs => exact .start hs
  | step _ ha hs ih => exact .step ih (hallowed _ _ ha) hs

theorem Reaches.trans (h : Reaches step allowed start s)
    (h' : Reaches step allowed (· = s) t) : Reaches step allowed start t := by
  induction h' with
  | start hs => exact hs ▸ h
  | step _ ha hs ih => exact .step ih ha hs

/-- Takes the steps one after another. -/
def run (step : σ → α → Option σ) : List α → σ → Option σ
  | [], s => some s
  | a :: actions, s => (step s a).bind (run step actions)

/-- Every step of the run is allowed. -/
def Allowed (step : σ → α → Option σ) (allowed : σ → α → Prop) : List α → σ → Prop
  | [], _ => True
  | a :: actions, s => allowed s a ∧ ∀ t ∈ step s a, Allowed step allowed actions t

instance decidableAllowed [∀ s a, Decidable (allowed s a)] (actions : List α) (s : σ) :
    Decidable (Allowed step allowed actions s) :=
  match actions with
  | [] => .isTrue trivial
  | a :: actions =>
    haveI : ∀ t, Decidable (Allowed step allowed actions t) := decidableAllowed actions
    inferInstanceAs (Decidable (allowed s a ∧ ∀ t ∈ step s a, Allowed step allowed actions t))

theorem allowed_true (actions : List α) (s : σ) : Allowed step (fun _ _ => True) actions s := by
  induction actions generalizing s with
  | nil => trivial
  | cons a actions ih => exact ⟨trivial,fun t _ => ih t⟩

theorem Reaches.run (h : Reaches step allowed start s)
    (ha : Allowed step allowed actions s) (hrun : run step actions s = some t) :
    Reaches step allowed start t := by
  induction actions generalizing s with
  | nil =>
    cases hrun
    exact h
  | cons a actions ih =>
    obtain ⟨s',hs',hr⟩ := Option.bind_eq_some_iff.mp hrun
    exact ih (h.step ha.1 hs') (ha.2 s' hs') hr

/-- What holds of the empty history and the start, and is kept when an allowed step extends the
history, holds of the steps of a run and its end. -/
theorem run_history {P : List α → σ → Prop} (hstart : P [] s)
    (hstep : ∀ past s a s', P past s → allowed s a → step s a = some s' → P (past ++ [a]) s')
    (ha : Allowed step allowed actions s) (hrun : run step actions s = some t) : P actions t := by
  have key : ∀ past s, P past s → Allowed step allowed actions s → run step actions s = some t →
      P (past ++ actions) t := by
    clear hstart ha hrun
    induction actions with
    | nil =>
      intro past s h _ hrun
      cases hrun
      simpa using h
    | cons a actions ih =>
      intro past s h ha hrun
      obtain ⟨s', hs', hr⟩ := Option.bind_eq_some_iff.mp hrun
      simpa using ih (past ++ [a]) s' (hstep past s a s' h ha.1 hs') (ha.2 s' hs') hr
  exact key [] s hstart ha hrun

/-- A record to which each step adds what its action says is what the actions of the run say. -/
theorem run_record {β : Type*} (record : σ → List β) (adds : α → List β)
    (hstep : ∀ s a s', step s a = some s' → record s' = record s ++ adds a)
    (hrun : run step actions s = some t) : record t = record s ++ actions.flatMap adds := by
  induction actions generalizing s with
  | nil =>
    cases hrun
    simp
  | cons a actions ih =>
    obtain ⟨s', hs', hr⟩ := Option.bind_eq_some_iff.mp hrun
    rw [ih hr, hstep s a s' hs', List.append_assoc, List.flatMap_cons]

/-- A system follows a description of what its steps do: every step that the description allows can be
taken, so every such run can, and it ends in a state that the description ends in. -/
theorem run_follows {τ : Type*} {R : σ → τ → Prop} {next : τ → α → τ} {allowed : τ → α → Prop}
    (hs : ∀ s t a, R s t → allowed t a → ∃ s', step s a = some s' ∧ R s' (next t a)) {t : τ}
    (h : R s t)
    (ha : Allowed (fun t a => some (next t a)) allowed actions t) :
    ∃ s', run step actions s = some s' ∧ R s' (actions.foldl next t) := by
  induction actions generalizing s t with
  | nil => exact ⟨s,rfl,h⟩
  | cons a actions ih =>
    obtain ⟨s',hs',hR⟩ := hs s t a h ha.1
    obtain ⟨s'',hr,he⟩ := ih hR (ha.2 _ rfl)
    refine ⟨s'',?_,he⟩
    rw [run,hs',Option.bind_some]
    exact hr

end QPlusWeb.Runs
