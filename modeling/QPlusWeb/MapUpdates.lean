import Mathlib.Data.List.Sigma
import Mathlib.Tactic.Linarith

/-!
# Updates of a map

The contents of a map are a partial function.  A change sets or removes one key or removes all of
them.  After a list of changes a key has the value of the last change that touches it.
-/

namespace QPlusWeb.MapUpdates
open List Function

variable {K V : Type*} [DecidableEq K]

abbrev Contents (K V : Type*) := K → Option V

def Contents.empty : Contents K V := fun _ => none

/-- A change; `put` without a value removes the key. -/
inductive Change (K V : Type*) where
  | put (key : K) (value : Option V)
  | clear

namespace Change

def apply (b : Contents K V) : Change K V → Contents K V
  | put key value => Function.update b key value
  | clear => .empty

def Touches (k : K) : Change K V → Prop
  | put key _ => key = k
  | clear => True

instance (k : K) (c : Change K V) : Decidable (c.Touches k) :=
  match c with
  | put key _ => inferInstanceAs (Decidable (key = k))
  | clear => .isTrue trivial

variable {c : Change K V} {b b' : Contents K V} {k : K}

theorem apply_of_not_touches (h : ¬c.Touches k) : c.apply b k = b k := by
  cases c with
  | put key value => exact update_of_ne (Ne.symm h) _ _
  | clear => exact absurd trivial h

theorem apply_of_touches (b b' : Contents K V) (h : c.Touches k) : c.apply b k = c.apply b' k := by
  cases c with
  | put key value =>
    obtain rfl : key = k := h
    simp [apply]
  | clear => rfl

theorem put_apply_self (v : Option V) : (put k v).apply b k = v := update_self ..

theorem put_apply_of_ne {key : K} (v : Option V) (h : k ≠ key) : (put key v).apply b k = b k :=
  update_of_ne h ..

theorem put_self {v : Option V} (h : b k = v) : (put k v).apply b = b := by
  rw [apply,← h,update_eq_self]

end Change

/-- The changes one after another. -/
def applyAll (b : Contents K V) (changes : List (Change K V)) : Contents K V :=
  changes.foldl Change.apply b

variable {changes : List (Change K V)} {c : Change K V} {b b' : Contents K V} {k : K}

@[simp] theorem applyAll_nil : applyAll b [] = b := rfl

@[simp] theorem applyAll_cons : applyAll b (c::changes) = applyAll (c.apply b) changes := rfl

theorem applyAll_append (changes' : List (Change K V)) :
    applyAll b (changes++changes') = applyAll (applyAll b changes) changes' :=
  foldl_append

theorem applyAll_concat : applyAll b (changes++[c]) = c.apply (applyAll b changes) := by
  rw [applyAll_append]
  rfl

theorem applyAll_congr (h : b k = b' k) : applyAll b changes k = applyAll b' changes k := by
  induction changes generalizing b b' with
  | nil => exact h
  | cons c changes ih =>
    refine ih ?_
    by_cases hc : c.Touches k
    · exact Change.apply_of_touches b b' hc
    · rw [Change.apply_of_not_touches hc,Change.apply_of_not_touches hc,h]

theorem applyAll_of_not_touched (h : ∀ c ∈ changes, ¬c.Touches k) : applyAll b changes k = b k := by
  induction changes generalizing b with
  | nil => rfl
  | cons c changes ih =>
    rw [applyAll_cons,ih (forall_mem_cons.mp h).2]
    exact Change.apply_of_not_touches (h c mem_cons_self)

/-- The value of a key that is touched does not depend on the map. -/
theorem applyAll_of_touched (b b' : Contents K V) (h : ∃ c ∈ changes, c.Touches k) :
    applyAll b changes k = applyAll b' changes k := by
  induction changes generalizing b b' with
  | nil => simp at h
  | cons c changes ih =>
    rw [applyAll_cons,applyAll_cons]
    by_cases hc : c.Touches k
    · exact applyAll_congr (Change.apply_of_touches b b' hc)
    · refine ih _ _ ?_
      obtain ⟨d,hd,ht⟩ := h
      rcases mem_cons.mp hd with rfl | hd
      · exact absurd ht hc
      · exact ⟨d,hd,ht⟩

theorem applyAll_of_clear_mem (b b' : Contents K V) (h : Change.clear ∈ changes) :
    applyAll b changes = applyAll b' changes :=
  funext fun _ => applyAll_of_touched b b' ⟨_,h,trivial⟩

/-- The contents with the changed keys of a map; a key that is changed to no value is removed. -/
def Contents.overlay (b : Contents K V) (changed : Contents K (Option V)) : Contents K V :=
  fun k => (changed k).getD (b k)

omit [DecidableEq K] in
theorem overlay_of_some {changed : Contents K (Option V)} {v : Option V} (h : changed k = some v) :
    b.overlay changed k = v := by
  rw [Contents.overlay,h,Option.getD_some]

/-- Changes of different keys may be laid over the contents at once. -/
theorem applyAll_puts {items : List (Σ _ : K,Option V)} (h : items.NodupKeys) :
    applyAll b (items.map fun item => .put item.1 item.2) = b.overlay fun k => items.dlookup k := by
  induction items generalizing b with
  | nil => rfl
  | cons item items ih =>
    obtain ⟨hitem,hi⟩ := nodupKeys_cons.mp h
    rw [map_cons,applyAll_cons,ih hi]
    funext k
    by_cases hk : k = item.1
    · subst hk
      have hn : items.dlookup item.1 = none := dlookup_eq_none.mpr hitem
      have hs : (item::items).dlookup item.1 = some item.2 := dlookup_cons_eq ..
      simp [Contents.overlay,hn,hs,Change.put_apply_self]
    · have hc : (item::items).dlookup k = items.dlookup k := dlookup_cons_ne _ _ hk
      simp [Contents.overlay,hc,Change.put_apply_of_ne _ hk]

end QPlusWeb.MapUpdates
