import Mathlib.Data.List.Perm.Basic

/-!
# Items of many sources in one queue

A queue holds items of several sources.  The order of the items of one source is what is left of the
queue if the items of the other sources are dropped.
-/

namespace QPlusWeb.SourceOrder

variable {κ α : Type*} [DecidableEq κ]

/-- The items of one source, in their order. -/
def ofSource (c : κ) (items : List (κ × α)) : List α :=
  items.filterMap fun item => if item.1 = c then some item.2 else none

@[simp] theorem ofSource_nil (c : κ) : ofSource c ([] : List (κ × α)) = [] := rfl

@[simp] theorem ofSource_append (c : κ) (items items' : List (κ × α)) :
    ofSource c (items++items') = ofSource c items++ofSource c items' :=
  List.filterMap_append

theorem ofSource_cons (c : κ) (item : κ × α) (items : List (κ × α)) :
    ofSource c (item::items) = ofSource c [item]++ofSource c items :=
  ofSource_append c [item] items

theorem ofSource_eq_nil {c : κ} {items : List (κ × α)} :
    ofSource c items = [] ↔ ∀ item ∈ items, item.1 ≠ c := by
  simp [ofSource]

theorem ofSource_singleton_of_ne {c : κ} {item : κ × α} (h : item.1 ≠ c) : ofSource c [item] = [] :=
  ofSource_eq_nil.mpr fun _ hm => by rwa [List.mem_singleton.mp hm]

end QPlusWeb.SourceOrder
