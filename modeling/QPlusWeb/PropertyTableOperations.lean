import QPlusWeb.PropertyTableProbing

/-!
# Changing a property table

Each operation leaves a table that again holds the used slots it should: an insertion appends an entry,
a removal puts the sentinel in its place, and a rehash or a copy that inserts again drops the sentinels.
-/

namespace QPlusWeb.JSC

open ProbeSequence BitSmearing WTF List Option UInt32

variable {κ ν : Type} {capacity : UInt32} {entry : PropertyMapEntry κ ν} {used : List (Slot κ ν)}
  {p : ℕ} (entries : List (PropertyMapEntry κ ν))

@[simp] theorem live_cons_entry (entry : PropertyMapEntry κ ν) (used : List (Slot κ ν)) :
    live (.entry entry::used) = entry::live used := rfl

@[simp] theorem live_cons_deleted (used : List (Slot κ ν)) :
    live (.deleted::used) = live used := rfl

theorem live_append (used : List (Slot κ ν)) (entry : PropertyMapEntry κ ν) :
    live (used++[.entry entry]) = live used++[entry] := by
  simp [live,Slot.entry?]

theorem live_map_entry : live (entries.map Slot.entry) = entries := by
  induction entries with
  | nil => rfl
  | cons entry entries ih =>
    rw [map_cons,live_cons_entry,ih]

theorem live_set_deleted (hp : used[p]? = some (.entry entry)) :
    (live (used.set p .deleted)).length+1 = (live used).length := by
  induction used generalizing p with
  | nil => simp at hp
  | cons slot used ih =>
    cases p with
    | zero =>
      rw [getElem?_cons_zero,Option.some.injEq] at hp
      subst hp
      rfl
    | succ p =>
      have hr := ih (by simpa using hp)
      rw [set_cons_succ]
      cases slot with
      | entry other =>
        rw [live_cons_entry,live_cons_entry,length_cons,length_cons,hr]
      | unused | deleted => exact hr

section
variable [DecidableEq κ]

/-- The keys of the entries are pairwise different. -/
def DistinctKeys (entries : List (PropertyMapEntry κ ν)) : Prop :=
  entries.Pairwise fun a b => a.key ≠ b.key

/-- With different keys, the sentinel takes out just the entries with the key. -/
theorem live_set_deleted_eq (hd : used.Pairwise fun a b => ∀ key, a.hasKey key → ¬b.hasKey key)
    (hp : used[p]? = some (.entry entry)) :
    live (used.set p .deleted) = (live used).filter (·.key ≠ entry.key) := by
  induction used generalizing p with
  | nil => simp at hp
  | cons slot used ih =>
    obtain ⟨hf,hr⟩ := pairwise_cons.mp hd
    cases p with
    | zero =>
      rw [getElem?_cons_zero,Option.some.injEq] at hp
      subst hp
      have ho : ∀ other ∈ live used, decide (other.key ≠ entry.key) := by
        intro other ho
        have hk := hf _ (mem_live.mp ho) entry.key (by simp [Slot.hasKey])
        simpa [Slot.hasKey] using hk
      rw [set_cons_zero,live_cons_deleted,live_cons_entry,filter_cons_of_neg (by simp)]
      exact (filter_eq_self.mpr ho).symm
    | succ p =>
      have ht := ih hr hp
      rw [set_cons_succ]
      cases slot with
      | entry other =>
        have hne : other.key ≠ entry.key := by
          have hk := hf _ (mem_of_getElem? hp) other.key (by simp [Slot.hasKey])
          simpa [Slot.hasKey,eq_comm] using hk
        rw [live_cons_entry,live_cons_entry,ht,filter_cons_of_pos (by simpa using hne)]
      | unused | deleted => exact ht

end

namespace PropertyTable

section
variable {t t' : PropertyTable κ ν} {i j n : ℕ} {v : UInt32} (hindex : t'.index = t.index.set i v)
include hindex

theorem entryIndexAt_set_self (hi : i < t.index.length) : t'.entryIndexAt i = v := by
  simp [entryIndexAt,hindex,hi]

theorem entryIndexAt_set_of_ne (hne : j ≠ i) : t'.entryIndexAt j = t.entryIndexAt j := by
  simp [entryIndexAt,hindex,getElem?_set_ne hne.symm]

theorem emptyAt_of_set (hi : i < t.index.length) (hv : v.toNat = n+1) (he : t'.EmptyAt j) :
    t.EmptyAt j := by
  have hne : j ≠ i := by
    rintro rfl
    rw [EmptyAt,entryIndexAt_set_self hindex hi] at he
    exact ne_emptyEntryIndex hv he
  rwa [EmptyAt,entryIndexAt_set_of_ne hindex hne] at he

end

variable [DecidableEq κ] {existingHash : κ → UInt32}

theorem sizeForCapacity_spec (h : capacity.toNat < 2^30) :
    ∃ e, 2 ≤ e ∧ e ≤ 30 ∧ (sizeForCapacity capacity).toNat = 2^(e+1) ∧ capacity.toNat < 2^e := by
  have hh : minimumTableSize / 2 = 4 := rfl
  unfold sizeForCapacity
  rw [hh]
  by_cases hs : capacity < 4
  · have hlt := lt_iff_toNat_lt.mp hs
    refine ⟨2,le_rfl,by omega,?_,?_⟩
    · rw [if_pos hs]
      rfl
    · simpa using hlt
  · have hle : 4 ≤ capacity.toNat := by
      have hn := fun hlt => hs (lt_iff_toNat_lt.mpr hlt)
      exact Nat.le_of_not_lt hn
    have hsucc : (capacity+1).toNat = capacity.toNat+1 := by
      rw [UInt32.toNat_add,toNat_one]
      omega
    obtain ⟨m,-,hp,hge,hlt⟩ := fillBelow_sub_one_add_one (v := capacity+1) (by omega) (by omega)
    have hm : m ≤ 30 := by
      by_contra hb
      have : 2^31 ≤ 2^m := Nat.pow_le_pow_right (by omega) (by omega)
      omega
    have hm2 : 2 ≤ m := by
      by_contra hb
      have : 2^m ≤ 2^1 := Nat.pow_le_pow_right (by omega) (by omega)
      omega
    refine ⟨m,hm2,hm,?_,by omega⟩
    rw [if_neg hs,UInt32.toNat_mul]
    change (fillBelow (capacity+1-1)+1).toNat*2 % 2^32 = 2^(m+1)
    rw [hp,Nat.pow_succ]
    exact Nat.mod_eq_of_lt (by omega)

theorem allocate_holds {indexSize : UInt32} {e : ℕ} (htwo : 2 ≤ e) (ht : e ≤ 30)
    (hs : indexSize.toNat = 2^(e+1)) (deletedOffsets : Option (List PropertyOffset)) :
    Holds existingHash (allocate indexSize deletedOffsets : PropertyTable κ ν) [] e where
  two_le := htwo
  le_thirty := ht
  indexSize_eq := hs
  indexMask_eq := rfl
  index_length := by simp [allocate,hs]
  table_eq := by
    have hh : (indexSize >>> 1).toNat = 2^e := by
      rw [UInt32.toNat_shiftRight,hs]
      simp [Nat.shiftRight_eq_div_pow,Nat.pow_succ]
    simp [allocate,hh]
  used_length := Nat.zero_le _
  isUsed := by simp
  keyCount_eq := rfl
  deletedCount_eq := rfl
  occupied := by simp [allocate]
  entryIndex_le := by
    intro v hv
    rw [eq_of_mem_replicate hv]
    exact Nat.zero_le _
  reaches := by simp
  distinct := .nil

namespace Holds

variable {t : PropertyTable κ ν} {used : List (Slot κ ν)} {e i : ℕ} {entry : PropertyMapEntry κ ν}

theorem distinctKeys (h : Holds existingHash t used e) : DistinctKeys (live used) := by
  refine h.distinct.filterMap _ ?_
  intro a b hab x hx y hy hk
  cases a <;> cases b <;> simp_all [Slot.entry?,Slot.hasKey]

/-! ### Insertion -/

/-- What an insertion leaves behind. -/
def inserted (t : PropertyTable κ ν) (i : ℕ) (entry : PropertyMapEntry κ ν) : PropertyTable κ ν :=
  { t with
    index := t.index.set i (t.usedCount + 1)
    table := t.table.set (t.usedCount + 1 - 1).toNat (.entry entry)
    keyCount := t.keyCount + 1 }

section
variable (h : Holds existingHash t used e)
include h

theorem toNat_usedCount_add_one : (t.usedCount+1).toNat = used.length+1 := by
  have hp := h.two_pow_le
  have hl := h.used_length
  rw [UInt32.toNat_add,h.usedCount_toNat,toNat_one]
  omega

theorem toNat_usedCount_add_one_sub_one : (t.usedCount+1-1).toNat = used.length := by
  rw [UInt32.add_sub_cancel,h.usedCount_toNat]

theorem insertAt_eq (hr : used.length < 2^e)
    (hi : i < t.index.length) (entry : PropertyMapEntry κ ν) :
    t.insertAt i entry = some (inserted t i entry) := by
  refine if_pos ⟨hi,?_⟩
  rw [h.toNat_usedCount_add_one_sub_one,h.table_length]
  omega

end

section
variable (h : Holds existingHash t used e)
include h

/-- An entry with a new key at the empty slot where the search for it ends. -/
theorem insert (hroom : used.length < 2^e) (hi : i < t.index.length) (he : t.EmptyAt i)
    (hr : Reaches (keyPath existingHash (e+1) entry.key) t.EmptyAt i)
    (hnew : ∀ other ∈ live used, other.key ≠ entry.key) :
    Holds existingHash (inserted t i entry) (used++[.entry entry]) e where
  __ := h
  index_length := by
    rw [← h.index_length]
    exact length_set
  table_eq := by
    change t.table.set _ _ = _
    obtain ⟨m,hm⟩ : ∃ m, 2^e+1-used.length = m+1 := ⟨2^e-used.length,by omega⟩
    have hm' : 2^e+1-(used++[Slot.entry entry]).length = m := by
      rw [length_append,length_singleton]
      omega
    rw [h.toNat_usedCount_add_one_sub_one,h.table_eq,hm,hm',set_append_right _ _ le_rfl,
      Nat.sub_self,replicate_succ,set_cons_zero,append_assoc,
      singleton_append]
  used_length := by
    rw [length_append,length_singleton]
    omega
  isUsed := forall_mem_append.mpr ⟨h.isUsed,forall_mem_singleton.mpr rfl⟩
  keyCount_eq := by
    have hpow := h.two_pow_le
    have hd := h.deletedCount_eq
    change (t.keyCount+1).toNat = _
    rw [UInt32.toNat_add,h.keyCount_eq,live_append,length_append,length_singleton,toNat_one]
    omega
  deletedCount_eq := by
    have hd := h.deletedCount_eq
    rw [live_append,length_append,length_append,length_singleton,length_singleton]
    change t.deletedCount.toNat+_ = _
    omega
  occupied := by
    have hzero : t.index[i] = emptyEntryIndex := by
      rwa [EmptyAt,entryIndexAt,getD_eq_getElem _ _ hi] at he
    have hn := ne_emptyEntryIndex h.toNat_usedCount_add_one
    change (t.index.set i _).countP _ = _
    rw [countP_set hi,h.occupied,length_append,length_singleton]
    simp [hzero,hn]
  entryIndex_le := by
    intro v hv
    rcases mem_or_eq_of_mem_set hv with hold | rfl
    · exact h.entryIndex_le v hold
    · rw [h.toNat_usedCount_add_one]
      omega
  reaches := by
    intro p other hp
    have hindex : (inserted t i entry).index = t.index.set i (t.usedCount+1) := rfl
    have hl : (inserted t i entry).index.length = t.index.length := length_set
    have hmono := fun q => emptyAt_of_set (j := q) hindex hi h.toNat_usedCount_add_one
    rcases Nat.lt_or_ge p used.length with hlt | hge
    · rw [getElem?_append_left hlt] at hp
      obtain ⟨j,hj,hjp,hjreach⟩ := h.reaches p other hp
      have hne : j ≠ i := by
        rintro rfl
        exact (h.keyAt hp hjp).1 he
      exact ⟨j,hl ▸ hj,by rw [entryIndexAt_set_of_ne hindex hne,hjp],hjreach.mono hmono⟩
    · rw [getElem?_append_right hge] at hp
      obtain ⟨hzero,rfl⟩ : p-used.length = 0 ∧ entry = other := by
        rcases Nat.eq_zero_or_pos (p-used.length) with hz | hpos
        · simpa [hz] using hp
        · rw [getElem?_eq_none (by rw [length_singleton]; omega)] at hp
          exact absurd hp (by simp)
      refine ⟨i,hl ▸ hi,?_,hr.mono hmono⟩
      rw [entryIndexAt_set_self hindex hi,h.toNat_usedCount_add_one]
      omega
  distinct := by
    refine pairwise_append.mpr ⟨h.distinct,pairwise_singleton _ _,?_⟩
    intro slot hs last hlast key hkey hkey'
    rw [mem_singleton.mp hlast] at hkey'
    obtain ⟨other,rfl,rfl⟩ := Slot.hasKey_iff.mp hkey
    refine hnew other (mem_live.mpr hs) ?_
    simpa [Slot.hasKey,eq_comm] using hkey'

/-- `reinsert` puts an entry with a new key at the end. -/
theorem reinsert_spec (hr : used.length < 2^e) (hn : ∀ other ∈ live used, other.key ≠ entry.key) :
    ∃ t', t.reinsert existingHash entry = some t' ∧
      Holds existingHash t' (used++[.entry entry]) e := by
  rcases h.find_spec entry.key with ⟨p,i,other,-,-,-,hp,hk⟩ | ⟨i,hf,hi,he,hreach,-⟩
  · exact absurd hk (hn other (mem_live.mpr (mem_of_getElem? hp)))
  · refine ⟨inserted t i entry,?_,h.insert hr hi he hreach hn⟩
    rw [reinsert,hf,bind_eq_bind,bind_some]
    exact h.insertAt_eq hr hi entry

/-- The loop of `rehash` and of the copy that inserts again. -/
theorem foldlM_reinsert_spec (hr : used.length+entries.length ≤ 2^e)
    (hd : DistinctKeys (live used++entries)) :
    ∃ t', entries.foldlM (reinsert existingHash) t = some t' ∧
      Holds existingHash t' (used++entries.map .entry) e := by
  induction entries generalizing t used with
  | nil => exact ⟨t,rfl,by simpa using h⟩
  | cons entry entries ih =>
    rw [length_cons] at hr
    have hn : ∀ other ∈ live used, other.key ≠ entry.key := fun other ho =>
      (pairwise_append.mp hd).2.2 other ho entry (.head _)
    obtain ⟨t',ht',hholds⟩ := h.reinsert_spec (by omega) hn
    have hdist' : DistinctKeys (live (used++[.entry entry])++entries) := by
      rw [live_append]
      simpa using hd
    obtain ⟨t'',ht'',hholds'⟩ := ih hholds (by rw [length_append,length_singleton]; omega) hdist'
    refine ⟨t'',?_,by simpa using hholds'⟩
    rw [foldlM_cons,ht',bind_eq_bind,bind_some]
    exact ht''

/-- Inserting the live entries into a new table that has room for them. -/
theorem reinsert_all_spec (hc : capacity.toNat < 2^30) (hr : (live used).length ≤ capacity.toNat)
    (deletedOffsets : Option (List PropertyOffset)) :
    ∃ t' e', (live used).foldlM (reinsert existingHash)
        (allocate (sizeForCapacity capacity) deletedOffsets) = some t' ∧
      Holds existingHash t' ((live used).map .entry) e' ∧ capacity.toNat < 2^e' := by
  obtain ⟨e',htwo,ht,hs,hlt⟩ := sizeForCapacity_spec hc
  have he : Holds existingHash
      (allocate (sizeForCapacity capacity) deletedOffsets : PropertyTable κ ν) [] e' :=
    allocate_holds htwo ht hs deletedOffsets
  obtain ⟨t',ht',hh⟩ := he.foldlM_reinsert_spec (live used)
    (by rw [length_nil]; omega) h.distinctKeys
  exact ⟨t',e',ht',hh,hlt⟩

theorem rehash_spec (hc : capacity.toNat < 2^30) (hr : (live used).length ≤ capacity.toNat) :
    ∃ t' e', t.rehash existingHash capacity = some t' ∧
      Holds existingHash t' ((live used).map .entry) e' ∧ capacity.toNat < 2^e' := by
  obtain ⟨t',e',ht',hh,hlt⟩ := h.reinsert_all_spec hc hr t.deletedOffsets
  refine ⟨t',e',?_,hh,hlt⟩
  rw [rehash,h.iterate_eq,bind_eq_bind,bind_some]
  exact ht'

/-! ### Removal -/

theorem deletedEntryIndex_toNat : t.deletedEntryIndex.toNat = 2^e+1 := by
  have hpow := h.two_pow_le
  have hp := Nat.two_pow_pos e
  rw [deletedEntryIndex,UInt32.toNat_add,h.tableCapacity_toNat,toNat_one]
  omega

end

omit [DecidableEq κ] in
theorem isUsed_set {p : ℕ} (h : ∀ slot ∈ used, slot.isUsed) :
    ∀ slot ∈ used.set p .deleted, slot.isUsed := by
  intro slot hs
  rcases mem_or_eq_of_mem_set hs with hold | rfl
  · exact h slot hold
  · rfl

theorem delete (h : Holds existingHash t used e)
    (hi : i < t.index.length) (hip : (t.entryIndexAt i).toNat = p+1)
    (hp : used[p]? = some (.entry entry)) :
    Holds existingHash (t.markDeleted p i) (used.set p .deleted) e where
  __ := h
  index_length := by
    rw [← h.index_length]
    exact length_set
  table_eq := by
    obtain ⟨hlt,-⟩ := List.getElem?_eq_some_iff.mp hp
    change t.table.set p .deleted = _
    rw [h.table_eq,set_append_left _ _ hlt,length_set]
  used_length := by
    rw [length_set]
    exact h.used_length
  isUsed := isUsed_set h.isUsed
  keyCount_eq := by
    have hlive := live_set_deleted hp
    have ho : (1 : UInt32) ≤ t.keyCount := by
      rw [le_iff_toNat_le,h.keyCount_eq,← hlive]
      exact Nat.le_add_left _ _
    change (t.keyCount-1).toNat = _
    rw [UInt32.toNat_sub_of_le _ _ ho,h.keyCount_eq,← hlive]
    rfl
  deletedCount_eq := by
    have hpow := h.two_pow_le
    have hlive := live_set_deleted hp
    have hd := h.deletedCount_eq
    have hl := h.used_length
    change (t.deletedCount+1).toNat+_ = _
    rw [UInt32.toNat_add,length_set,toNat_one]
    omega
  occupied := by
    have hf : t.index[i] ≠ emptyEntryIndex := by
      have hf := (h.keyAt hp hip).1
      rwa [EmptyAt,entryIndexAt,getD_eq_getElem _ _ hi] at hf
    have hn := ne_emptyEntryIndex h.deletedEntryIndex_toNat
    have hpos : 0 < t.index.countP (· ≠ emptyEntryIndex) :=
      countP_pos_iff.mpr ⟨_,getElem_mem hi,by simpa using hf⟩
    change (t.index.set i _).countP _ = _
    rw [countP_set hi,length_set,← h.occupied]
    simp only [hf,hn,ne_eq,not_false_eq_true,decide_true,if_true]
    exact Nat.sub_add_cancel hpos
  entryIndex_le := by
    intro v hv
    rcases mem_or_eq_of_mem_set hv with hold | rfl
    · exact h.entryIndex_le v hold
    · rw [h.deletedEntryIndex_toNat]
  reaches := by
    intro q other hq
    have hindex : (t.markDeleted p i).index = t.index.set i t.deletedEntryIndex := rfl
    have hl : (t.markDeleted p i).index.length = t.index.length := length_set
    have hne : p ≠ q := by
      rintro rfl
      obtain ⟨hlt,-⟩ := List.getElem?_eq_some_iff.mp hp
      rw [getElem?_set_self hlt] at hq
      cases hq
    rw [getElem?_set_ne hne] at hq
    obtain ⟨j,hj,hjq,hjreach⟩ := h.reaches q other hq
    have hji : j ≠ i := by
      rintro rfl
      omega
    refine ⟨j,hl ▸ hj,by rw [entryIndexAt_set_of_ne hindex hji,hjq],hjreach.mono ?_⟩
    exact fun q => emptyAt_of_set hindex hi h.deletedEntryIndex_toNat
  distinct := by
    refine pairwise_iff_getElem.mpr ?_
    intro a b ha hb hab key hk
    rw [length_set] at ha hb
    have hold := pairwise_iff_getElem.mp h.distinct a b ha hb hab key
    rw [getElem_set] at hk ⊢
    split at hk
    next => exact absurd hk (by simp [Slot.hasKey])
    next =>
      split
      next => simp [Slot.hasKey]
      next => exact hold hk

end Holds

end PropertyTable

end QPlusWeb.JSC
