import Mathlib.Data.Finset.Basic
import Mathlib.Logic.Function.Basic

/-!
# Indexes of a set of items

A partial map from keys to items indexes a set of items if it maps every key to
the item of the set that has this key and knows no others. `add` does not
replace an entry that exists.
-/
namespace QPlusWeb.KeyedIndex
open Function

variable {κ ι : Type*}

/-- The map leads from the key of every item of `S` to the item, and nowhere else. -/
def Indexes (S : Finset ι) (key : ι → κ) (m : κ → Option ι) : Prop :=
  ∀ k i, m k = some i ↔ i ∈ S ∧ key i = k

variable {S : Finset ι} {key key' : ι → κ} {m : κ → Option ι} {i j : ι} {k : κ}

section
variable (h : Indexes S key m)
include h

theorem Indexes.apply (hi : i ∈ S) : m (key i) = some i := (h _ _).mpr ⟨hi,rfl⟩

theorem Indexes.eq_none (hk : ∀ i ∈ S, key i ≠ k) : m k = none := by
  cases hm : m k with
  | none => rfl
  | some i => exact absurd ((h k i).mp hm).2 (hk i ((h k i).mp hm).1)

theorem Indexes.key_ne (hm : m k = none) (hi : i ∈ S) : key i ≠ k := by
  rintro rfl
  rw [h.apply hi] at hm
  cases hm

theorem Indexes.inj (hi : i ∈ S) (hj : j ∈ S) (heq : key i = key j) : i = j := by
  have hs := h.apply hi
  rw [heq,h.apply hj] at hs
  exact (Option.some.inj hs).symm

theorem Indexes.congr (hk : ∀ i ∈ S, key' i = key i) : Indexes S key' m := by
  intro k i
  rw [h k i]
  exact and_congr_right fun hi => by rw [hk i hi]

end

variable [DecidableEq κ]

def add (m : κ → Option ι) (k : κ) (i : ι) : κ → Option ι :=
  match m k with
  | some _ => m
  | none => update m k (some i)

def remove (m : κ → Option ι) (k : κ) : κ → Option ι := update m k none

theorem add_of_none {m : κ → Option ι} {k : κ} (h : m k = none) (i : ι) :
    add m k i = update m k (some i) := by
  simp [add,h]

theorem add_remove_self (h : m k = some i) : add (remove m k) k i = m := by
  have hn : remove m k k = none := update_self ..
  rw [add_of_none hn,remove,update_idem,← h,update_eq_self]

theorem remove_comm (m : κ → Option ι) (k l : κ) :
    remove (remove m k) l = remove (remove m l) k := by
  unfold remove
  by_cases h : k = l
  · rw [h]
  · rw [update_comm h]

variable [DecidableEq ι]

theorem Indexes.erase (h : Indexes S key m) (hi : i ∈ S) :
    Indexes (S.erase i) key (remove m (key i)) := by
  intro k j
  rw [remove,Finset.mem_erase]
  by_cases hk : k = key i
  · subst hk
    simp only [update_self,reduceCtorEq,false_iff,not_and,and_imp]
    intro hne hj heq
    exact hne (h.inj hj hi heq)
  · rw [update_of_ne hk,h k j]
    constructor
    · rintro ⟨hj,rfl⟩
      exact ⟨⟨fun heq => hk (heq ▸ rfl),hj⟩,rfl⟩
    · rintro ⟨⟨-,hj⟩,hkey⟩
      exact ⟨hj,hkey⟩

theorem Indexes.insert (h : Indexes S key m) (hi : i ∉ S) (hm : ∀ j ∈ S, key j ≠ key i) :
    Indexes (Insert.insert i S) key (add m (key i) i) := by
  intro k j
  rw [add_of_none (h.eq_none hm),Finset.mem_insert]
  by_cases hk : k = key i
  · subst hk
    rw [update_self,Option.some_inj]
    constructor
    · rintro rfl
      exact ⟨.inl rfl,rfl⟩
    · rintro ⟨rfl | hj,hkey⟩
      · rfl
      · exact absurd hkey (hm j hj)
  · rw [update_of_ne hk,h k j]
    constructor
    · rintro ⟨hj,hkey⟩
      exact ⟨.inr hj,hkey⟩
    · rintro ⟨rfl | hj,hkey⟩
      · exact absurd hkey.symm hk
      · exact ⟨hj,hkey⟩

end QPlusWeb.KeyedIndex
