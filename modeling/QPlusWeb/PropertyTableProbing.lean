import QPlusWeb.PropertyTable
import Mathlib.Data.List.GetD
import Mathlib.Tactic.Push

/-!
# Searching and iterating a property table

The invariant of a table: the array is the slots that have been used, followed by unused ones and the
guard; the index has as many occupied slots as the array, twice as many slots, and one for every live
entry on the path of its key.  A search then ends, and an iteration comes to the live entries in the
order of the array.
-/

namespace QPlusWeb.JSC

open ProbeSequence BitSmearing WTF List Nat UInt32 Option

variable {κ ν : Type} [DecidableEq κ] {existingHash : κ → UInt32} {key : κ} {n : ℕ}

theorem Slot.hasKey_iff {slot : Slot κ ν} :
    slot.hasKey key ↔ ∃ e, slot = .entry e ∧ e.key = key := by
  cases slot <;> simp [Slot.hasKey]

/-- The entries that have not been removed. -/
def live (used : List (Slot κ ν)) : List (PropertyMapEntry κ ν) := used.filterMap Slot.entry?

omit [DecidableEq κ] in
theorem mem_live {used : List (Slot κ ν)} {e : PropertyMapEntry κ ν} :
    e ∈ live used ↔ Slot.entry e ∈ used := by
  rw [live,mem_filterMap]
  constructor
  · rintro ⟨slot,hs,he⟩
    cases slot <;> simp_all [Slot.entry?]
  · exact fun h => ⟨_,h,rfl⟩

/-- The path of a key through an index of `2 ^ m` slots. -/
def keyPath (existingHash : κ → UInt32) (m : ℕ) (key : κ) : ℕ → ℕ :=
  HashTable.path m (existingHash key)

namespace PropertyTable

variable (t : PropertyTable κ ν)

/-- What a slot of the index holds. -/
def entryIndexAt (i : ℕ) : UInt32 := t.index.getD i emptyEntryIndex

/-- The slot of the array that an occupied slot of the index refers to. -/
def slotAt (i : ℕ) : Slot κ ν :=
  t.table.getD (t.entryIndexAt i - 1).toNat .unused

def EmptyAt (i : ℕ) : Prop := t.entryIndexAt i = emptyEntryIndex

/-- The slot of the index refers to the entry of the key. -/
def KeyAt (key : κ) (i : ℕ) : Prop :=
  ¬ t.EmptyAt i ∧ (t.slotAt i).hasKey key = true

/-- The table has an index of `2 ^ (e + 1)` slots, and `used` is the part of the array that has been
given to entries. -/
structure Holds (existingHash : κ → UInt32) (t : PropertyTable κ ν) (used : List (Slot κ ν))
    (e : ℕ) : Prop where
  two_le : 2 ≤ e
  le_thirty : e ≤ 30
  indexSize_eq : t.indexSize.toNat = 2 ^ (e + 1)
  indexMask_eq : t.indexMask = t.indexSize - 1
  index_length : t.index.length = 2 ^ (e + 1)
  table_eq : t.table = used ++ List.replicate (2 ^ e + 1 - used.length) .unused
  used_length : used.length ≤ 2 ^ e
  isUsed : ∀ slot ∈ used, slot.isUsed = true
  keyCount_eq : t.keyCount.toNat = (live used).length
  deletedCount_eq : t.deletedCount.toNat + (live used).length = used.length
  occupied : t.index.countP (· ≠ emptyEntryIndex) = used.length
  entryIndex_le : ∀ v ∈ t.index, v.toNat ≤ 2 ^ e + 1
  reaches : ∀ p entry, used[p]? = some (.entry entry) →
    ∃ i < t.index.length, (t.entryIndexAt i).toNat = p + 1 ∧
      Reaches (keyPath existingHash (e + 1) entry.key) t.EmptyAt i
  distinct : used.Pairwise fun a b => ∀ key, a.hasKey key = true → ¬ b.hasKey key = true

/-! ### The probe loop -/

/-- The variables of the loop in its `n`-th round. -/
def findAt (hash : UInt32) (n : ℕ) : FindVariables :=
  ⟨hash + UInt32.ofNat n * (doubleHash hash ||| 1), if n = 0 then 0 else doubleHash hash ||| 1⟩

theorem findAt_zero (hash : UInt32) : findAt hash 0 = ⟨hash,0⟩ := by
  simp [findAt]

theorem findAt_succ (hash : UInt32) (n : ℕ) : (findAt hash n).advance hash = findAt hash (n+1) := by
  have hs : (if (findAt hash n).step = 0 then doubleHash hash ||| 1 else (findAt hash n).step) =
      doubleHash hash ||| 1 := by
    unfold findAt
    by_cases hn : n = 0
    · simp [hn]
    · simp [hn]
  have hh : (findAt hash n).hash+(doubleHash hash ||| 1) = (findAt hash (n+1)).hash := by
    unfold findAt
    rw [ofNat_add,UInt32.add_mul,UInt32.add_assoc]
    congr 2
    exact (UInt32.one_mul _).symm
  unfold FindVariables.advance
  simp only [hs,hh]
  rfl

theorem ne_emptyEntryIndex {v : UInt32} (h : v.toNat = n+1) : v ≠ emptyEntryIndex := by
  rintro rfl
  exact succ_ne_zero n h.symm

variable {t : PropertyTable κ ν}

omit [DecidableEq κ] in
theorem toNat_pos {i : ℕ} (hf : ¬t.EmptyAt i) : 0 < (t.entryIndexAt i).toNat :=
  Nat.pos_of_ne_zero fun hz => hf (UInt32.toNat_inj.mp hz)

omit [DecidableEq κ] in
theorem toNat_sub_one {i : ℕ} (hf : ¬t.EmptyAt i) :
    (t.entryIndexAt i-1).toNat = (t.entryIndexAt i).toNat-1 :=
  UInt32.toNat_sub_of_le _ _ (le_iff_toNat_le.mpr (toNat_pos hf))

omit [DecidableEq κ] in
theorem getElem?_index {i : ℕ} (hi : i < t.index.length) :
    t.index[i]? = some (t.entryIndexAt i) := by
  simp [entryIndexAt,hi]

namespace Holds

variable {t : PropertyTable κ ν} {used : List (Slot κ ν)} {e : ℕ}

section
variable (h : Holds existingHash t used e)
include h

theorem indexMask_toNat : t.indexMask.toNat = 2^(e+1)-1 := by
  have ho : (1 : UInt32) ≤ t.indexSize := by
    rw [le_iff_toNat_le,h.indexSize_eq]
    exact Nat.two_pow_pos _
  rw [h.indexMask_eq,UInt32.toNat_sub_of_le _ _ ho,h.indexSize_eq]
  rfl

theorem tableCapacity_toNat : t.tableCapacity.toNat = 2^e := by
  rw [tableCapacity,UInt32.toNat_shiftRight,h.indexSize_eq]
  simp [shiftRight_eq_div_pow,Nat.pow_succ]

theorem two_pow_le : 2^e ≤ 2^30 := Nat.pow_le_pow_right (by omega) h.le_thirty

theorem usedCount_toNat : t.usedCount.toNat = used.length := by
  have hp := h.two_pow_le
  have hl := h.used_length
  have hk := h.keyCount_eq
  have hd := h.deletedCount_eq
  rw [usedCount,UInt32.toNat_add]
  omega

theorem table_length : t.table.length = 2^e+1 := by
  have hl := h.used_length
  rw [h.table_eq,length_append,length_replicate]
  omega

theorem path_lt (key : κ) (n : ℕ) : keyPath existingHash (e+1) key n < t.index.length :=
  HashTable.path_lt _ h.index_length n

/-- The slot of the index that the loop looks at in its `n`-th round. -/
theorem findAt_slot (key : κ) (n : ℕ) : ((findAt (existingHash key) n).hash &&& t.indexMask).toNat =
      keyPath existingHash (e+1) key n := by
  have hd : 2^(e+1) ∣ 2^32 := Nat.pow_dvd_pow 2 (by have := h.le_thirty; omega)
  rw [UInt32.toNat_and,h.indexMask_toNat,and_two_pow_sub_one_eq_mod,findAt,
    UInt32.toNat_add,UInt32.toNat_mul,toNat_ofNat',mod_mul_mod,add_mod_mod,
    mod_mod_of_dvd _ hd,UInt32.or_comm,keyPath,HashTable.path,probe,mod_add_mod]
  rfl

theorem entryIndexAt_le (i : ℕ) : (t.entryIndexAt i).toNat ≤ 2^e+1 := by
  unfold entryIndexAt
  by_cases hi : i < t.index.length
  · rw [getD_eq_getElem _ _ hi]
    exact h.entryIndex_le _ (getElem_mem hi)
  · rw [getD_eq_default _ _ (by omega)]
    exact Nat.zero_le _

theorem getElem?_table {i : ℕ} (hf : ¬t.EmptyAt i) :
    t.table[(t.entryIndexAt i-1).toNat]? = some (t.slotAt i) := by
  have hle := h.entryIndexAt_le i
  have hp := toNat_pos hf
  have hlt : (t.entryIndexAt i-1).toNat < t.table.length := by
    rw [toNat_sub_one hf,h.table_length]
    omega
  simp [slotAt,hlt]

/-- The slots of the array behind the used ones have no key. -/
theorem used_of_hasKey {p : ℕ} (hkey : (t.table.getD p .unused).hasKey key) :
    ∃ entry, used[p]? = some (.entry entry) ∧ entry.key = key := by
  obtain ⟨entry,he,hk⟩ := Slot.hasKey_iff.mp hkey
  refine ⟨entry,?_,hk⟩
  rw [h.table_eq] at he
  by_cases hp : p < used.length
  · rw [getD_append _ _ _ _ hp,getD_eq_getElem _ _ hp] at he
    rw [getElem?_eq_getElem hp,he]
  · rw [getD_append_right _ _ _ _ (by omega)] at he
    simp [getElem?_replicate] at he
    split at he <;> cases he

theorem exists_empty : ∃ i < t.index.length, t.EmptyAt i := by
  have hr : t.index.countP (· ≠ emptyEntryIndex) < t.index.length := by
    have hl := h.used_length
    have hp := Nat.two_pow_pos e
    rw [h.occupied,h.index_length,Nat.pow_succ]
    omega
  have hm : ∃ v ∈ t.index, ¬(decide (v ≠ emptyEntryIndex)) := by
    by_contra hn
    push Not at hn
    exact hr.ne (countP_eq_length.mpr hn)
  obtain ⟨v,hv,hz⟩ := hm
  obtain ⟨i,hi,hg⟩ := getElem_of_mem hv
  refine ⟨i,hi,?_⟩
  rw [EmptyAt,entryIndexAt,getD_eq_getElem _ _ hi,hg]
  simpa using hz

/-! One round of the loop. -/

theorem findStep_empty (key : κ) (he : t.EmptyAt (keyPath existingHash (e+1) key n)) :
    t.findStep existingHash key (findAt (existingHash key) n) =
      .inr (some ⟨none,keyPath existingHash (e+1) key n⟩) := by
  unfold findStep
  simp only [h.findAt_slot,getElem?_index (h.path_lt key n)]
  exact if_pos he

theorem findStep_found (hf : ¬t.EmptyAt (keyPath existingHash (e+1) key n))
    (hk : (t.slotAt (keyPath existingHash (e+1) key n)).hasKey key) :
    t.findStep existingHash key (findAt (existingHash key) n) =
      .inr (some ⟨some (t.entryIndexAt (keyPath existingHash (e+1) key n)-1).toNat,
        keyPath existingHash (e+1) key n⟩) := by
  unfold findStep
  simp only [h.findAt_slot,getElem?_index (h.path_lt key n),h.getElem?_table hf,hk,if_true]
  exact if_neg hf

theorem findStep_other (hf : ¬t.EmptyAt (keyPath existingHash (e+1) key n))
    (hk : ¬(t.slotAt (keyPath existingHash (e+1) key n)).hasKey key) :
    t.findStep existingHash key (findAt (existingHash key) n) =
      .inl (findAt (existingHash key) (n+1)) := by
  rw [← findAt_succ]
  unfold findStep
  simp only [h.findAt_slot,getElem?_index (h.path_lt key n),h.getElem?_table hf,hk,
    if_false,Bool.false_eq_true]
  exact if_neg hf

/-- The slot of the index of a live entry. -/
theorem keyAt {p i : ℕ} {entry : PropertyMapEntry κ ν}
    (hp : used[p]? = some (.entry entry)) (hi : (t.entryIndexAt i).toNat = p+1) :
    t.KeyAt entry.key i := by
  have hf : ¬t.EmptyAt i := ne_emptyEntryIndex hi
  refine ⟨hf,Slot.hasKey_iff.mpr ⟨entry,?_,rfl⟩⟩
  obtain ⟨hlt,hg⟩ := List.getElem?_eq_some_iff.mp hp
  rw [slotAt,toNat_sub_one hf,hi,Nat.add_sub_cancel,h.table_eq,getD_append _ _ _ _ hlt,
    getD_eq_getElem _ _ hlt,hg]

/-- The loop ends, at the entry of the key if there is one and otherwise at an empty slot. -/
theorem find_spec (key : κ) :
    (∃ p i entry, t.find existingHash key = some ⟨some p,i⟩ ∧ i < t.index.length ∧
      (t.entryIndexAt i).toNat = p+1 ∧ used[p]? = some (.entry entry) ∧ entry.key = key) ∨
    (∃ i, t.find existingHash key = some ⟨none,i⟩ ∧ i < t.index.length ∧ t.EmptyAt i ∧
      Reaches (keyPath existingHash (e+1) key) t.EmptyAt i ∧
      ∀ entry ∈ live used, entry.key ≠ key) := by
  obtain ⟨n,hloop,hf,hs⟩ := exists_search (keyPath existingHash (e+1) key) (t.KeyAt key)
    _ (findAt (existingHash key)) (HashTable.path_surjOn (existingHash key) h.index_length)
    h.exists_empty fun j ho hf =>
      h.findStep_other hf fun hkey => ho ⟨hf,hkey⟩
  have hfind : ∀ r, t.findStep existingHash key (findAt (existingHash key) n) = .inr r →
      t.find existingHash key = r := by
    intro r hr
    rw [find,← findAt_zero,hloop r hr,join_some]
  rcases hs with hat | ⟨hl,hn⟩
  · left
    obtain ⟨entry,he,hk⟩ := h.used_of_hasKey hat.2
    refine ⟨_,_,entry,hfind _ (h.findStep_found hat.1 hat.2),h.path_lt key n,?_,he,hk⟩
    have hpos := toNat_pos hat.1
    rw [toNat_sub_one hat.1]
    omega
  · right
    refine ⟨_,hfind _ (h.findStep_empty key hl),h.path_lt key n,hl,⟨n,rfl,hf⟩,?_⟩
    -- a live entry with the key would have been reached before the empty slot
    intro entry he hkey
    obtain ⟨p,hp⟩ := getElem?_of_mem (mem_live.mp he)
    obtain ⟨i,-,hi,hreach⟩ := h.reaches p entry hp
    have hat := h.keyAt hp hi
    rw [hkey] at hreach hat
    exact hn i hreach hat

end

end Holds

/-! ### Iteration -/

omit [DecidableEq κ] in
/-- The loop from the first slot of `rest` that is not deleted. -/
theorem iterateFrom_spec (done : List (Slot κ ν)) {rest tail : List (Slot κ ν)} (fuel : ℕ)
    (ht : t.table = done++rest++.unused::tail)
    (hu : t.usedCount.toNat = (done++rest).length)
    (hrest : ∀ slot ∈ rest, slot.isUsed) (hf : rest.length < fuel) :
    (do
      let pos ← skipDeletedEntries (rest++.unused::tail) done.length
      t.iterateFrom fuel pos) = some (live rest) := by
  induction rest generalizing done fuel with
  | nil =>
    obtain ⟨fuel,rfl⟩ : ∃ m, fuel = m+1 := ⟨fuel-1,by omega⟩
    simp [skipDeletedEntries,iterateFrom,hu,live]
  | cons slot rest ih =>
    obtain ⟨fuel,rfl⟩ : ∃ m, fuel = m+1 := ⟨fuel-1,by omega⟩
    have hd : done++slot::rest = (done++[slot])++rest := by simp
    have hrest' : ∀ slot ∈ rest, slot.isUsed := fun s hs => hrest s (.tail _ hs)
    rw [length_cons] at hf
    cases slot with
    | unused => exact absurd (hrest .unused (.head _)) (by simp [Slot.isUsed])
    | deleted =>
      have hn := ih (done++[.deleted]) (fuel+1) (hd ▸ ht) (hd ▸ hu) hrest' (by omega)
      rw [length_append,length_singleton] at hn
      exact hn
    | entry e =>
      have hn := ih (done++[.entry e]) fuel (hd ▸ ht) (hd ▸ hu) hrest' (by omega)
      rw [length_append,length_singleton] at hn
      have hg : t.table[done.length]? = some (.entry e) := by
        rw [ht]
        simp
      have hdrop : t.table.drop (done.length+1) = rest++.unused::tail := by
        rw [ht]
        simp
      have hp : ¬done.length = t.usedCount.toNat := by
        rw [hu,length_append,length_cons]
        omega
      have hstep : t.iterateFrom (fuel+1) done.length = (do
            let pos ← skipDeletedEntries (rest++Slot.unused::tail) (done.length+1)
            t.iterateFrom fuel pos).bind fun entries => some (e::entries) := by
        simp [iterateFrom,hg,next,hdrop,if_neg hp,bind_assoc]
      rw [hn] at hstep
      exact hstep

theorem Holds.iterate_eq {used : List (Slot κ ν)} {e : ℕ}
    (h : Holds existingHash t used e) : t.iterate = some (live used) := by
  have hlen := h.used_length
  obtain ⟨m,hm⟩ : ∃ m, 2^e+1-used.length = m+1 := ⟨2^e-used.length,by omega⟩
  have ht : t.table = []++used++.unused::List.replicate m .unused := by
    rw [h.table_eq,hm]
    rfl
  have hl := iterateFrom_spec [] (t.table.length+1) ht h.usedCount_toNat h.isUsed
    (by rw [h.table_length]; omega)
  have hb : t.begin = skipDeletedEntries (used++.unused::List.replicate m .unused) 0 := by
    rw [PropertyTable.begin,ht]
    rfl
  rw [iterate,hb]
  exact hl

end PropertyTable

end QPlusWeb.JSC
