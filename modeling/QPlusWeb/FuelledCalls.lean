import Mathlib.Data.Nat.Init

/-!
# Calls that return

A call whose loops run on fuel returns `r` if it gives `r` on every large
enough amount of fuel. The rules put the calls of a body together: what
does not depend on the fuel, a round of a loop and a sequence of calls.
-/
namespace QPlusWeb.FuelledCalls

variable {α β : Type*} {call : ℕ → Option α}

def Returns (call : ℕ → Option α) (r : α) : Prop :=
  ∃ enough, ∀ fuel ≥ enough, call fuel = some r

theorem Returns.of_eq {r : α} (h : ∀ fuel, call fuel = some r) : Returns call r :=
  ⟨0,fun fuel _ => h fuel⟩

theorem Returns.unique {r r' : α} (h : Returns call r) (h' : Returns call r') : r = r' := by
  obtain ⟨n,hn⟩ := h
  obtain ⟨n',hn'⟩ := h'
  have hr := hn (max n n') (Nat.le_max_left n n')
  rw [hn' (max n n') (Nat.le_max_right n n')] at hr
  exact (Option.some.inj hr).symm

/-- A call that no longer depends on the fuel has returned. -/
theorem Returns.eq_some {r : α} {n m : ℕ} (h : Returns call r)
    (hm : ∀ k ≥ n, call (m+1) = call (k+1)) : call (m+1) = some r := by
  obtain ⟨enough,hn⟩ := h
  rw [hm (max n enough) (Nat.le_max_left n enough),hn _ (by omega)]

/-- A loop returns what its first round leads to. -/
theorem Returns.of_succ {body : ℕ → Option α} {r : α}
    (h : ∀ fuel, call (fuel+1) = body fuel) (hb : Returns body r) : Returns call r := by
  obtain ⟨n,hn⟩ := hb
  refine ⟨n+1,fun fuel hf => ?_⟩
  obtain ⟨m,rfl⟩ : ∃ m, fuel = m+1 := ⟨fuel-1,by omega⟩
  rw [h,hn m (by omega)]

theorem Returns.bind {next : ℕ → α → Option β} {a : α} {b : β}
    (h : Returns call a) (hnext : Returns (fun fuel => next fuel a) b) :
    Returns (fun fuel => (call fuel).bind (next fuel)) b := by
  obtain ⟨n,hn⟩ := h
  obtain ⟨n',hn'⟩ := hnext
  refine ⟨max n n',fun fuel hf => ?_⟩
  change (call fuel).bind (next fuel) = some b
  rw [hn fuel (by omega)]
  exact hn' fuel (by omega)

end QPlusWeb.FuelledCalls
