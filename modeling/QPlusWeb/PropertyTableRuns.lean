import QPlusWeb.PropertyTableOperations
import QPlusWeb.Runs
import Mathlib.Data.List.Nodup
import Mathlib.Data.UInt

/-!
# Property tables are insertion-ordered maps

An abstract map is the list of its entries in the order they were added.  Every run of operations on
tables, with tables copied from one another, follows the same run on abstract maps as long as no
capacity reaches `2 ^ 30`: from there on `sizeForCapacity` wraps around to 0.
-/

namespace QPlusWeb.JSC

open ProbeSequence Runs List

variable {κ ν : Type} [DecidableEq κ] {existingHash : κ → UInt32} {offset : PropertyOffset}
  {offsetEffect : EffectOnPropertyOffset} {entry : PropertyMapEntry κ ν} {key : κ} {e : ℕ}
  {capacity : UInt32}

abbrev OrderedMap (κ ν : Type) := List (PropertyMapEntry κ ν)

namespace OrderedMap

variable (m : OrderedMap κ ν)

def HasKey (key : κ) : Prop := ∃ entry ∈ m, entry.key = key

instance (m : OrderedMap κ ν) (key : κ) : Decidable (m.HasKey key) :=
  inferInstanceAs (Decidable (∃ entry ∈ m, entry.key = key))

/-- An entry whose key is already there is not added. -/
def add (entry : PropertyMapEntry κ ν) : OrderedMap κ ν :=
  if m.HasKey entry.key then m else m ++ [entry]

def remove (key : κ) : OrderedMap κ ν := m.filter (·.key ≠ key)

end OrderedMap

namespace PropertyTable

/-- The table is the map, seen from outside. -/
structure Behaves (existingHash : κ → UInt32) (t : PropertyTable κ ν) (m : OrderedMap κ ν) :
    Prop where
  find_entry : ∀ entry ∈ m, ∃ p i, t.find existingHash entry.key = some ⟨some p, i⟩ ∧
    t.table[p]? = some (.entry entry)
  find_free : ∀ key, ¬ m.HasKey key → ∃ i, t.find existingHash key = some ⟨none, i⟩ ∧
    t.index[i]? = some emptyEntryIndex
  iterate_eq : t.iterate = some m
  size_eq : t.size.toNat = m.length
  half_full : (t.table.filter Slot.isUsed).length ≤ t.index.length / 2

/-- The table is the map, by its invariant. -/
def Represents (existingHash : κ → UInt32) (t : PropertyTable κ ν) (m : OrderedMap κ ν) : Prop :=
  ∃ used e, Holds existingHash t used e ∧ live used = m ∧ 4 * t.deletedCount.toNat < 2 ^ (e + 1)

variable {t : PropertyTable κ ν} {m entries : OrderedMap κ ν}

theorem Holds.eq_of_key {used : List (Slot κ ν)} (h : Holds existingHash t used e)
    {a b : PropertyMapEntry κ ν} (ha : a ∈ live used) (hb : b ∈ live used) (hk : a.key = b.key) :
    a = b := by
  have hn : ((live used).map PropertyMapEntry.key).Nodup := pairwise_map.mpr h.distinctKeys
  exact inj_on_of_nodup_map hn ha hb hk

/-- A table into which entries have just been inserted has no deleted ones. -/
theorem Holds.few_of_map
    (h : Holds existingHash t (entries.map .entry) e) : 4*t.deletedCount.toNat < 2^(e+1) := by
  have hd := h.deletedCount_eq
  have hp := Nat.two_pow_pos (e+1)
  rw [live_map_entry,length_map] at hd
  omega

theorem Holds.represents_of_map
    (h : Holds existingHash t (entries.map .entry) e) : Represents existingHash t entries :=
  ⟨_,e,h,live_map_entry entries,h.few_of_map⟩

namespace Represents

theorem behaves (h : Represents existingHash t m) : Behaves existingHash t m := by
  obtain ⟨used,e,h,rfl,-⟩ := h
  constructor
  · intro entry he
    rcases h.find_spec entry.key with ⟨p,i,other,hf,-,-,hp,hk⟩ | ⟨i,-,-,-,-,hn⟩
    · have heq := h.eq_of_key (mem_live.mpr (mem_of_getElem? hp)) he hk
      refine ⟨p,i,hf,?_⟩
      obtain ⟨hlt,-⟩ := List.getElem?_eq_some_iff.mp hp
      rw [h.table_eq,getElem?_append_left hlt,hp,heq]
    · exact absurd rfl (hn entry he)
  · intro key hk
    rcases h.find_spec key with ⟨p,i,other,-,-,-,hp,ho⟩ | ⟨i,hf,hi,hempty,-,-⟩
    · exact absurd ⟨other,mem_live.mpr (mem_of_getElem? hp),ho⟩ hk
    · exact ⟨i,hf,by rw [getElem?_index hi,hempty]⟩
  · exact h.iterate_eq
  · exact h.keyCount_eq
  · have hu : used.filter Slot.isUsed = used := filter_eq_self.mpr h.isUsed
    have hr : ∀ n, (List.replicate n (Slot.unused : Slot κ ν)).filter Slot.isUsed = [] := by
      intro n
      rw [filter_replicate]
      rfl
    rw [h.table_eq,filter_append,hu,hr,append_nil,h.index_length,Nat.pow_succ,
      Nat.mul_div_cancel _ (by omega)]
    exact h.used_length

theorem create {initialCapacity : UInt32} (h : initialCapacity.toNat < 2^30) :
    Represents existingHash (PropertyTable.create initialCapacity : PropertyTable κ ν) [] := by
  obtain ⟨e,htwo,ht,hs,-⟩ := sizeForCapacity_spec h
  have hh : Holds existingHash (PropertyTable.create initialCapacity : PropertyTable κ ν)
      (([] : OrderedMap κ ν).map .entry) e := allocate_holds htwo ht hs none
  exact hh.represents_of_map

/-! ### Adding -/

section
variable (h : Represents existingHash t m)
include h

theorem add_present {other : PropertyMapEntry κ ν} (ho : other ∈ m) (hk : other.key = entry.key)
    (hoff : other.offset ≤ offset) (offsetEffect : EffectOnPropertyOffset) :
    ∃ iter, t.add existingHash entry offset offsetEffect = some ⟨t,iter,false,offset⟩ := by
  obtain ⟨p,i,hf,hp⟩ := h.behaves.find_entry other ho
  refine ⟨⟨some p,i⟩,?_⟩
  rw [hk] at hf
  simp [add,hf,hp,Slot.entry?,hoff]

theorem ensureCapacity_spec (hn : ¬m.HasKey key) (hl : m.length+1 < 2^30) :
    ∃ iter t' used e i, t.find existingHash key = some iter ∧ iter.first = none ∧
      t.ensureCapacity existingHash iter key = some (t',⟨none,i⟩) ∧
      Holds existingHash t' used e ∧ live used = m ∧ 4*t'.deletedCount.toNat < 2^(e+1) ∧
      used.length < 2^e ∧ i < t'.index.length ∧ t'.EmptyAt i ∧
      Reaches (keyPath existingHash (e+1) key) t'.EmptyAt i := by
  obtain ⟨used,e,h,rfl,hfew⟩ := h
  rcases h.find_spec key with ⟨p,i,other,-,-,-,hp,hk⟩ | ⟨i,hf,hi,hempty,hreach,-⟩
  · exact absurd ⟨other,mem_live.mpr (mem_of_getElem? hp),hk⟩ hn
  · by_cases hr : t.canInsert
    · have hlt : used.length < 2^e := by
        rw [canInsert,decide_eq_true_eq,UInt32.lt_iff_toNat_lt,h.usedCount_toNat,
          h.tableCapacity_toNat] at hr
        exact hr
      refine ⟨_,t,used,e,i,hf,rfl,?_,h,rfl,hfew,hlt,hi,hempty,hreach⟩
      rw [ensureCapacity,if_pos hr]
    · have hc : (t.keyCount+1).toNat = (live used).length+1 := by
        rw [UInt32.toNat_add,h.keyCount_eq,UInt32.toNat_one]
        omega
      obtain ⟨t',e',hrehash,h',hlt⟩ := h.rehash_spec (by rw [hc]; exact hl) (by rw [hc]; omega)
      have hlive := live_map_entry (live used)
      rcases h'.find_spec key with ⟨p,j,other,-,-,-,hp,hk⟩ |
        ⟨j,hfind',hj,hempty',hreach',-⟩
      · exact absurd ⟨other,hlive ▸ mem_live.mpr (mem_of_getElem? hp),hk⟩ hn
      · refine ⟨_,t',_,e',j,hf,rfl,?_,h',hlive,h'.few_of_map,?_,hj,hempty',hreach'⟩
        · rw [ensureCapacity,if_neg hr]
          simp [hrehash,hfind']
        · rw [length_map]
          omega

theorem add_new (hn : ¬m.HasKey entry.key) (hl : m.length+1 < 2^30)
    (hoff : offsetEffect = .mayChange ∨ entry.offset ≤ offset) :
    ∃ t' iter, t.add existingHash entry offset offsetEffect =
        some ⟨t',iter,true,max offset entry.offset⟩ ∧
      Represents existingHash t' (m++[entry]) := by
  obtain ⟨iter,t',used,e,i,hfind,hf,he,h',rfl,hfew,hr,hi,hempty,hreach⟩ :=
    h.ensureCapacity_spec hn hl
  have hnew' : ∀ other ∈ live used, other.key ≠ entry.key := fun other ho hk =>
    hn ⟨other,ho,hk⟩
  refine ⟨Holds.inserted t' i entry,⟨some (t'.usedCount+1-1).toNat,i⟩,?_,
    ⟨_,e,h'.insert hr hi hempty hreach hnew',live_append _ _,hfew⟩⟩
  have hins := h'.insertAt_eq hr hi entry
  cases offsetEffect with
  | mayChange => simp [add,hfind,hf,he,hins]
  | mustNotChange =>
    have hle : entry.offset ≤ offset := by simpa using hoff
    simp [add,hfind,hf,he,hins,hle]

/-! ### Removing -/

theorem remove_absent (hk : ¬m.HasKey key) : t.remove existingHash key = some t := by
  obtain ⟨i,hf,-⟩ := h.behaves.find_free key hk
  simp [remove,hf,removeAt]

theorem remove_present (hk : m.HasKey key) :
    ∃ t', t.remove existingHash key = some t' ∧ Represents existingHash t' (m.remove key) := by
  obtain ⟨used,e,h,rfl,hfew⟩ := h
  rcases h.find_spec key with ⟨p,i,entry,hf,hi,hip,hp,rfl⟩ | ⟨i,-,-,-,-,hn⟩
  · have h' := h.delete hi hip hp
    have hl : live (used.set p .deleted) = OrderedMap.remove (live used) entry.key :=
      live_set_deleted_eq h.distinct hp
    have hlive_length := live_set_deleted hp
    have hpow := h.two_pow_le
    have hc : (t.markDeleted p i).deletedCount.toNat = t.deletedCount.toNat+1 := by
      change (t.deletedCount+1).toNat = _
      rw [UInt32.toNat_add,UInt32.toNat_one]
      omega
    have hfour : ((t.markDeleted p i).deletedCount*4).toNat = 4*(t.deletedCount.toNat+1) := by
      have hnat : (4 : UInt32).toNat = 4 := rfl
      rw [UInt32.toNat_mul,hc,hnat]
      omega
    have hrem : t.remove existingHash entry.key =
        (if (t.markDeleted p i).indexSize ≤ (t.markDeleted p i).deletedCount*4 then
          (t.markDeleted p i).rehash existingHash (t.markDeleted p i).keyCount
        else some (t.markDeleted p i)) := by
      simp [remove,hf,removeAt]
    rw [hrem]
    split
    next =>
      have hkeys := h'.keyCount_eq
      have hd := h.deletedCount_eq
      have hlen := h.used_length
      obtain ⟨t',e',hr,hh,-⟩ := h'.rehash_spec (by omega) hkeys.ge
      refine ⟨t',hr,?_⟩
      rw [← hl]
      exact hh.represents_of_map
    next hm =>
      refine ⟨_,rfl,_,e,h',hl,?_⟩
      rw [UInt32.le_iff_toNat_le,hfour,h'.indexSize_eq] at hm
      omega
  · obtain ⟨entry,he,hk⟩ := hk
    exact absurd hk (hn entry he)

/-! ### Copying -/

theorem clone : t.clone = some t := by
  simp [PropertyTable.clone,h.behaves.iterate_eq]

theorem cloneWithCapacity_spec (hc : capacity.toNat < 2^30) (hr : m.length ≤ capacity.toNat) :
    ∃ t', t.cloneWithCapacity existingHash capacity = some t' ∧ Represents existingHash t' m := by
  obtain ⟨used,e,h,rfl,-⟩ := h
  obtain ⟨t',e',hi,h',-⟩ := h.reinsert_all_spec hc hr none
  obtain ⟨used',e'',hh,hl,hf⟩ := h'.represents_of_map
  refine ⟨{t' with deletedOffsets := t.deletedOffsets},?_,used',e'',?_,hl,hf⟩
  · simp [cloneWithCapacity,h.iterate_eq,PropertyTable.create,hi]
  · exact {hh with}

theorem copy_spec (hc : capacity.toNat < 2^30) (hr : m.length ≤ capacity.toNat) :
    ∃ t', t.copy existingHash capacity = some t' ∧ Represents existingHash t' m := by
  unfold copy
  split
  next => exact ⟨t,h.clone,h⟩
  next => exact h.cloneWithCapacity_spec hc hr

end

end Represents

/-! ### Runs -/

/-- The operations on the tables of a heap; the new tables go to its end. -/
inductive Action (κ ν : Type) where
  | create (initialCapacity : UInt32)
  | add (i : ℕ) (entry : PropertyMapEntry κ ν) (offset : PropertyOffset)
      (offsetEffect : EffectOnPropertyOffset)
  | remove (i : ℕ) (key : κ)
  | copy (i : ℕ) (newCapacity : UInt32)
  | clone (i : ℕ)
  | cloneWithCapacity (i : ℕ) (initialCapacity : UInt32)

def step (existingHash : κ → UInt32) (tables : List (PropertyTable κ ν)) :
    Action κ ν → Option (List (PropertyTable κ ν))
  | .create initialCapacity => some (tables ++ [create initialCapacity])
  | .add i entry offset offsetEffect => do
    let t ← tables[i]?
    let r ← t.add existingHash entry offset offsetEffect
    return tables.set i r.table
  | .remove i key => do
    let t ← tables[i]?
    let t ← t.remove existingHash key
    return tables.set i t
  | .copy i newCapacity => do
    let t ← tables[i]?
    let t ← t.copy existingHash newCapacity
    return tables ++ [t]
  | .clone i => do
    let t ← tables[i]?
    let t ← t.clone
    return tables ++ [t]
  | .cloneWithCapacity i initialCapacity => do
    let t ← tables[i]?
    let t ← t.cloneWithCapacity existingHash initialCapacity
    return tables ++ [t]

/-- The same operations on maps. -/
def nextMaps (maps : List (OrderedMap κ ν)) : Action κ ν → List (OrderedMap κ ν)
  | .create _ => maps ++ [[]]
  | .add i entry _ _ => maps.set i ((maps.getD i []).add entry)
  | .remove i key => maps.set i ((maps.getD i []).remove key)
  | .copy i _ => maps ++ [maps.getD i []]
  | .clone i => maps ++ [maps.getD i []]
  | .cloneWithCapacity i _ => maps ++ [maps.getD i []]

/-- A capacity whose index size is a number of 32 bits, and that the assertion of a copy accepts. -/
def FitsCapacity (m : OrderedMap κ ν) (capacity : UInt32) : Prop :=
  capacity.toNat < 2 ^ 30 ∧ m.length ≤ capacity.toNat

/-- The assertions of `add` hold, and a new key leaves the table with less than `2 ^ 30` keys. -/
def CanAdd (m : OrderedMap κ ν) (entry : PropertyMapEntry κ ν) (offset : PropertyOffset)
    (offsetEffect : EffectOnPropertyOffset) : Prop :=
  (∀ other ∈ m, other.key = entry.key → other.offset ≤ offset) ∧
    (¬ m.HasKey entry.key →
      m.length + 1 < 2 ^ 30 ∧ (offsetEffect = .mayChange ∨ entry.offset ≤ offset))

/-- The operation is on a table of the heap, meets the assertions and stays below the capacity from
which on `sizeForCapacity` wraps around. -/
def MeetsCapacity (maps : List (OrderedMap κ ν)) : Action κ ν → Prop
  | .create initialCapacity => initialCapacity.toNat < 2 ^ 30
  | .add i entry offset offsetEffect =>
    i < maps.length ∧ CanAdd (maps.getD i []) entry offset offsetEffect
  | .remove i _ => i < maps.length
  | .copy i newCapacity => i < maps.length ∧ FitsCapacity (maps.getD i []) newCapacity
  | .clone i => i < maps.length
  | .cloneWithCapacity i initialCapacity =>
    i < maps.length ∧ FitsCapacity (maps.getD i []) initialCapacity

instance (m : OrderedMap κ ν) (capacity : UInt32) : Decidable (FitsCapacity m capacity) :=
  inferInstanceAs (Decidable (_ ∧ _))

instance (m : OrderedMap κ ν) (entry : PropertyMapEntry κ ν) (offset : PropertyOffset)
    (offsetEffect : EffectOnPropertyOffset) : Decidable (CanAdd m entry offset offsetEffect) :=
  inferInstanceAs (Decidable (_ ∧ _))

instance (maps : List (OrderedMap κ ν)) (a : Action κ ν) : Decidable (MeetsCapacity maps a) :=
  match a with
  | .create _ => inferInstanceAs (Decidable (_ < _))
  | .add _ _ _ _ => inferInstanceAs (Decidable (_ ∧ _))
  | .remove _ _ => inferInstanceAs (Decidable (_ < _))
  | .copy _ _ => inferInstanceAs (Decidable (_ ∧ _))
  | .clone _ => inferInstanceAs (Decidable (_ < _))
  | .cloneWithCapacity _ _ => inferInstanceAs (Decidable (_ ∧ _))

/-- The tables are the maps. -/
abbrev Follow (existingHash : κ → UInt32) (tables : List (PropertyTable κ ν))
    (maps : List (OrderedMap κ ν)) : Prop :=
  List.Forall₂ (Represents existingHash) tables maps

theorem Represents.add_spec (h : Represents existingHash t m)
    (hc : CanAdd m entry offset offsetEffect) :
    ∃ r, t.add existingHash entry offset offsetEffect = some r ∧
      Represents existingHash r.table (m.add entry) := by
  by_cases hkey : m.HasKey entry.key
  · obtain ⟨other,ho,hk⟩ := hkey
    obtain ⟨iter,ha⟩ := h.add_present ho hk (hc.1 other ho hk) offsetEffect
    exact ⟨_,ha,by rwa [OrderedMap.add,if_pos ⟨other,ho,hk⟩]⟩
  · obtain ⟨hl,hoff⟩ := hc.2 hkey
    obtain ⟨t',iter,ha,h'⟩ := h.add_new hkey hl hoff
    exact ⟨_,ha,by rwa [OrderedMap.add,if_neg hkey]⟩

theorem Represents.remove_spec (h : Represents existingHash t m) (key : κ) :
    ∃ t', t.remove existingHash key = some t' ∧ Represents existingHash t' (m.remove key) := by
  by_cases hkey : m.HasKey key
  · exact h.remove_present hkey
  · have ha : m.remove key = m :=
      filter_eq_self.mpr fun entry he => decide_eq_true fun hk => hkey ⟨entry,he,hk⟩
    exact ⟨t,h.remove_absent hkey,by rwa [ha]⟩

namespace Follow

variable {tables : List (PropertyTable κ ν)} {maps : List (OrderedMap κ ν)}

section
variable (h : Follow existingHash tables maps)
include h

theorem get {i : ℕ} (hi : i < maps.length) :
    ∃ t, tables[i]? = some t ∧ Represents existingHash t (maps.getD i []) := by
  have hlt : i < tables.length := h.length_eq ▸ hi
  refine ⟨tables[i],getElem?_eq_getElem hlt,?_⟩
  rw [getD_eq_getElem _ _ hi]
  exact List.Forall₂.get h hlt hi

theorem append (ht : Represents existingHash t m) : Follow existingHash (tables++[t]) (maps++[m]) :=
  rel_append h (.cons ht .nil)

theorem set (ht : Represents existingHash t m) (i : ℕ) :
    Follow existingHash (tables.set i t) (maps.set i m) := by
  induction h generalizing i with
  | nil => exact .nil
  | cons hf hr ih =>
    cases i with
    | zero => exact .cons ht hr
    | succ i => exact .cons hf (ih i)

theorem step_spec {a : Action κ ν} (ha : MeetsCapacity maps a) :
    ∃ tables', step existingHash tables a = some tables' ∧
      Follow existingHash tables' (nextMaps maps a) := by
  cases a with
  | create initialCapacity => exact ⟨_,rfl,h.append (.create ha)⟩
  | add i entry offset offsetEffect =>
    obtain ⟨t,ht,hrep⟩ := h.get ha.1
    obtain ⟨r,hadd,hrep'⟩ := hrep.add_spec ha.2
    exact ⟨_,by simp [step,ht,hadd],h.set hrep' i⟩
  | remove i key =>
    obtain ⟨t,ht,hrep⟩ := h.get ha
    obtain ⟨t',hrem,hrep'⟩ := hrep.remove_spec key
    exact ⟨_,by simp [step,ht,hrem],h.set hrep' i⟩
  | copy i newCapacity =>
    obtain ⟨t,ht,hrep⟩ := h.get ha.1
    obtain ⟨t',hcopy,hrep'⟩ := hrep.copy_spec ha.2.1 ha.2.2
    exact ⟨_,by simp [step,ht,hcopy],h.append hrep'⟩
  | clone i =>
    obtain ⟨t,ht,hrep⟩ := h.get ha
    exact ⟨_,by simp [step,ht,hrep.clone],h.append hrep⟩
  | cloneWithCapacity i initialCapacity =>
    obtain ⟨t,ht,hrep⟩ := h.get ha.1
    obtain ⟨t',hc,hrep'⟩ := hrep.cloneWithCapacity_spec ha.2.1 ha.2.2
    exact ⟨_,by simp [step,ht,hc],h.append hrep'⟩

end

end Follow

/-- Every run of operations below the capacity that overflows goes through, and leaves tables that
behave as the insertion-ordered maps of the same run. -/
theorem property_tables_are_ordered_maps (existingHash : κ → UInt32) (actions : List (Action κ ν))
    (hactions : Allowed (fun maps a => some (nextMaps maps a)) MeetsCapacity actions []) :
    ∃ tables, run (step existingHash) actions [] = some tables ∧
      List.Forall₂ (Behaves existingHash) tables (actions.foldl nextMaps []) := by
  have hs : ∀ tables maps (a : Action κ ν), Follow existingHash tables maps → MeetsCapacity maps a →
      ∃ tables', step existingHash tables a = some tables' ∧
        Follow existingHash tables' (nextMaps maps a) := fun _ _ _ h ha => h.step_spec ha
  obtain ⟨tables,hrun,h⟩ := run_follows hs .nil hactions
  exact ⟨tables,hrun,h.imp fun _ _ hr => hr.behaves⟩

/-- Two keys with the same hash, one of them removed after a copy. -/
theorem property_tables_are_ordered_maps_copied :
    let actions : List (Action ℕ Unit) :=
      [.create 0, .add 0 ⟨1, 0, 0, none⟩ (-1) .mayChange, .add 0 ⟨2, 1, 0, none⟩ 0 .mayChange,
        .copy 0 9, .remove 0 1]
    ∃ tables, run (step fun _ => 5) actions [] = some tables ∧
      List.Forall₂ (Behaves fun _ => 5) tables (actions.foldl nextMaps []) :=
  property_tables_are_ordered_maps _ _ (by decide)

/-- `sizeForCapacity(2 ^ 30)` is 0: the copy of an empty table has no index, and a search in it reads
outside of the memory. -/
theorem copied_index_size_wraps :
    ∃ tables t, run (step fun _ => 100) [.create 0, .copy 0 (2 ^ 30)] [] = some tables ∧
      tables[1]? = some t ∧ t.indexSize = 0 ∧
      (t : PropertyTable ℕ Unit).find (fun _ => 100) 1 = none :=
  ⟨_,_,rfl,rfl,rfl,rfl⟩

end PropertyTable

end QPlusWeb.JSC
