import Mathlib.Data.List.Basic

/-!
# Texts over a prefix code

If no word of a code starts another one, a text can be cut into words in at most one way, and reading
it from the left finds that way.
-/

namespace QPlusWeb.PrefixCodes

variable {α : Type*}

/-- No word is empty, and none is the beginning of another one. -/
structure PrefixCode (Word : List α → Prop) : Prop where
  ne_nil : ∀ {w}, Word w → w ≠ []
  eq_of_append : ∀ {v w s t}, Word v → Word w → v ++ s = w ++ t → v = w

/-- The text cut into words. -/
def Factors (Word : List α → Prop) (ws : List (List α)) (text : List α) : Prop :=
  (∀ w ∈ ws, Word w) ∧ ws.flatten = text

variable {Word : List α → Prop} {w text rest : List α} {ws us : List (List α)}

/-- A text that starts with a word is cut after it. -/
theorem Factors.of_append (code : PrefixCode Word) (hw : Word w)
    (h : Factors Word us (w++rest)) : ∃ vs, us = w::vs ∧ Factors Word vs rest := by
  obtain ⟨hwords,hf⟩ := h
  cases us with
  | nil => exact absurd (List.append_eq_nil_iff.mp hf.symm).1 (code.ne_nil hw)
  | cons v vs =>
    obtain ⟨hv,hvs⟩ := List.forall_mem_cons.mp hwords
    obtain rfl : v = w := code.eq_of_append hv hw hf
    exact ⟨vs,rfl,hvs,List.append_cancel_left hf⟩

/-- What has been cut off is part of every way to cut the text. -/
theorem Factors.of_flatten_append (code : PrefixCode Word) (hws : ∀ w ∈ ws, Word w)
    (h : Factors Word us (ws.flatten++rest)) :
    ∃ vs, us = ws++vs ∧ Factors Word vs rest := by
  induction ws generalizing us with
  | nil => exact ⟨us,rfl,h⟩
  | cons w ws ih =>
    obtain ⟨hw,hws⟩ := List.forall_mem_cons.mp hws
    rw [List.flatten_cons,List.append_assoc] at h
    obtain ⟨vs,rfl,hvs⟩ := h.of_append code hw
    obtain ⟨vs',rfl,hvs'⟩ := ih hws hvs
    exact ⟨vs',rfl,hvs'⟩

end QPlusWeb.PrefixCodes
