import QPlusWeb.HashTableContents
import Mathlib.Tactic.Positivity
import Mathlib.Tactic.Zify

/-!
# The operations of the table

`Filled` says that the fields of a table agree with its buckets; `Loaded` adds
the load bound that keeps every probe loop finite. An insertion may leave a
table filled up to the bound for a moment, and then expands it. Each operation
of a loaded table ends, leaves a loaded or empty table, and does to the contents
what the corresponding operation does to a set of values with different keys.
-/
namespace QPlusWeb.WTF
open ProbeSequence List Option

variable {Key Value : Type} {q : Translated Key Value}

namespace HashTable

/-- The fields describe the buckets. -/
structure Filled (T : HashTraits Key Value) (t : HashTable Value) (table : List Value) (m : ℕ) :
    Prop where
  table_eq : t.table = some table
  sound : Sound T table m
  three_le : 3 ≤ m
  minimumTableSize_le : T.minimumTableSize ≤ 2 ^ m
  tableSize_eq : t.tableSize = 2 ^ m
  tableSizeMask_eq : t.tableSizeMask = 2 ^ m - 1
  keyCount_eq : t.keyCount = Multiset.card (contents T table)
  deletedCount_eq : t.deletedCount = tombstones T table

structure Loaded (T : HashTraits Key Value) (t : HashTable Value) (table : List Value) (m : ℕ) :
    Prop extends Filled T t table m where
  load : (t.keyCount + t.deletedCount) * 2 < t.tableSize

/-- Without a table the deleted count means nothing. -/
structure Unallocated (t : HashTable Value) : Prop where
  table_eq : t.table = none
  tableSize_eq : t.tableSize = 0
  tableSizeMask_eq : t.tableSizeMask = 0
  keyCount_eq : t.keyCount = 0

/-- The state of a table between two operations. -/
def Inv (T : HashTraits Key Value) (t : HashTable Value) : Prop :=
  Unallocated t ∨ ∃ table m, Loaded T t table m

/-- The set of values that a table stands for. -/
def values (T : HashTraits Key Value) (t : HashTable Value) : Multiset Value :=
  contents T (t.table.getD [])

variable {T : HashTraits Key Value} {t : HashTable Value} {table : List Value} {m p : ℕ}
  {value : Value} {key : Key}

theorem init_inv : Inv T (init : HashTable Value) := Or.inl ⟨rfl,rfl,rfl,rfl⟩

theorem Unallocated.values_eq (h : Unallocated t) : values T t = 0 := by
  simp [values,h.table_eq,contents,entries]

theorem Filled.values_eq (h : Filled T t table m) : values T t = contents T table := by
  simp [values,h.table_eq]

theorem Loaded.hasEmpty (h : Loaded T t table m) : HasEmpty T table := by
  apply hasEmpty_of_lt
  have hl := h.load
  have hlen := h.sound.length_eq
  rw [h.keyCount_eq,h.deletedCount_eq,h.tableSize_eq] at hl
  omega

/-! ### Rehashing -/

theorem rehash_spec (hT : T.Lawful) (n : ℕ) (entry : Option ℕ)
    (hd : Differ T (entries T (t.table.getD [])))
    (hk : t.keyCount = Multiset.card (values T t)) (hn : 3 ≤ n)
    (hmin : T.minimumTableSize ≤ 2^n) (hr : t.keyCount*2 < 2^n) :
    ∃ t' newEntry table', rehash T t (2^n) entry = some (t',newEntry) ∧
      Loaded T t' table' n ∧ values T t' = values T t ∧
      ∀ p value, entry = some p → (t.table.getD [])[p]? = some value → isLive T value →
        Tracks T table' newEntry value := by
  have hnone : contents T (allocateTable T (2^n)) = 0 := by
    unfold contents entries allocateTable
    have he := hT.isEmptyValue_emptyValue
    simp [isLive,isEmptyOrDeletedBucket,isEmptyBucket,he]
  have hclean : tombstones T (allocateTable T (2^n)) = 0 := by
    unfold tombstones allocateTable
    have he := hT.isEmptyValue_emptyValue
    simp [isTombstone,isEmptyBucket,he]
  have ha : ∀ v ∈ entries T (t.table.getD []), ∀ q,
      ¬Holds T (allocateTable T (2^n)) (T.extract v) q := by
    intro v _ q hq
    have hm : bucket T (allocateTable T (2^n)) q ∈ contents T (allocateTable T (2^n)) :=
      mem_contents.mpr ⟨q,hq.1,rfl⟩
    rw [hnone] at hm
    exact Multiset.notMem_zero _ hm
  have hf : Multiset.card (contents T (allocateTable T (2^n)) +
      contents T (t.table.getD [])) < 2^n := by
    rw [hnone,zero_add]
    unfold values at hk
    zify
    omega
  obtain ⟨table',newEntry,hrun,hS,hclean',hall,ht⟩ := rehashLoop_spec hT entry
    (t.table.getD []) 0 none (sound_allocateTable hT n) hclean hf hd ha
  have hv : contents T table' = values T t := by rw [hall,hnone,zero_add]; rfl
  refine ⟨⟨some table',2^n,2^n-1,t.keyCount,0⟩,newEntry,table',?_,?_,hv,?_⟩
  · simp [rehash,hrun]
  · refine ⟨⟨rfl,hS,hn,hmin,rfl,rfl,?_,?_⟩,by simpa using hr⟩
    · rw [hk,hv]
    · rw [hclean']
      rfl
  · intro p value hp hg hl
    exact ht value (Or.inl ⟨p,by rw [hp,Nat.zero_add],hg,hl⟩)

/-- Expansion at the load bound: in place, or to twice the size. -/
theorem Filled.expand_spec (hT : T.Lawful) (h : Filled T t table m) (entry : Option ℕ)
    (hr : t.keyCount < t.tableSize) :
    ∃ t' newEntry table' n, expand T t entry = some (t',newEntry) ∧ Loaded T t' table' n ∧
      values T t' = values T t ∧
      ∀ p value, entry = some p → table[p]? = some value → isLive T value →
        Tracks T table' newEntry value := by
  have hpow : 0 < 2^m := Nat.two_pow_pos m
  have hs := h.tableSize_eq
  obtain ⟨n,hn,hle,hb⟩ : ∃ n, (if mustRehashInPlace t then t.tableSize
      else t.tableSize*2) = 2^n ∧ m ≤ n ∧ t.keyCount*2 < 2^n := by
    rw [hs] at hr ⊢
    push_cast at hr
    split
    next hp =>
      simp only [mustRehashInPlace,minLoad,decide_eq_true_eq,hs] at hp
      push_cast at hp
      exact ⟨m,rfl,le_rfl,by omega⟩
    next => exact ⟨m+1,(Nat.pow_succ ..).symm,m.le_succ,by rw [pow_succ]; omega⟩
  obtain ⟨t',newEntry,table',hrun,hl,hv,ht⟩ := rehash_spec hT n entry
    (by rw [h.table_eq]; exact h.sound.differ) (by rw [h.values_eq,h.keyCount_eq])
    (h.three_le.trans hle)
    (h.minimumTableSize_le.trans (Nat.pow_le_pow_right (by omega) hle)) hb
  rw [h.table_eq] at ht
  refine ⟨t',newEntry,table',n,?_,hl,hv,ht⟩
  unfold expand
  rw [if_neg (by omega),hn]
  exact hrun

/-- The first insertion allocates a table of the minimum size. -/
theorem Unallocated.expand_spec (hT : T.Lawful) (h : Unallocated t) :
    ∃ t' newEntry table' n, expand T t none = some (t',newEntry) ∧ Loaded T t' table' n ∧
      values T t' = 0 := by
  obtain ⟨n,hn,hm⟩ := hT.minimumTableSize_eq
  obtain ⟨t',newEntry,table',hr,hl,hv,-⟩ := rehash_spec hT n none
    (by rw [h.table_eq]; exact List.Pairwise.nil) (by rw [h.values_eq,h.keyCount_eq]; rfl) hn
    hm.le (by rw [h.keyCount_eq]; positivity)
  refine ⟨t',newEntry,table',n,?_,hl,by rw [hv,h.values_eq]⟩
  unfold expand
  rw [if_pos h.tableSize_eq,hm]
  exact hr

theorem Inv.ensureTable_spec (hT : T.Lawful) (h : Inv T t) :
    ∃ t' table' n, ensureTable T t = some t' ∧ Loaded T t' table' n ∧ values T t' = values T t := by
  rcases h with h | ⟨table,m,h⟩
  · obtain ⟨t',newEntry,table',n,hr,hl,hv⟩ := h.expand_spec hT
    exact ⟨t',table',n,by simp [ensureTable,h.table_eq,hr],hl,by rw [hv,h.values_eq]⟩
  · exact ⟨t,table,m,by simp [ensureTable,h.table_eq],h,rfl⟩

/-! ### Sets of values with different keys -/

/-- Some value of the set has the key. -/
def Present (T : HashTraits Key Value) (S : Multiset Value) (key : Key) : Prop :=
  ∃ e ∈ S, T.equal (T.extract e) key = true

open Classical in
/-- What `add` is for. -/
noncomputable def insertValue (T : HashTraits Key Value) (S : Multiset Value) (value : Value) :
    Multiset Value :=
  if Present T S (T.extract value) then S else value ::ₘ S

/-- What `remove` is for. -/
def eraseKey (T : HashTraits Key Value) (S : Multiset Value) (key : Key) : Multiset Value :=
  S.filter fun e => T.equal (T.extract e) key = false

theorem present_iff : Present T (contents T table) key ↔ ∃ p, Holds T table key p := by
  constructor
  · intro h
    obtain ⟨e,he,heq⟩ := h
    obtain ⟨p,hp,rfl⟩ := mem_contents.mp he
    exact ⟨p,hp,heq⟩
  · intro h
    obtain ⟨p,hp⟩ := h
    exact ⟨_,mem_contents.mpr ⟨p,hp.1,rfl⟩,hp.2⟩

/-! ### Adding -/

/-- The iterator points to an entry with the key. -/
def PointsTo (T : HashTraits Key Value) (t : HashTable Value) (entry : Option ℕ) (key : Key) :
    Prop :=
  ∃ table p, t.table = some table ∧ entry = some p ∧ Holds T table key p

/-- What `add` and `addPassingHashCode` promise. -/
structure AddSpec (T : HashTraits Key Value) (t : HashTable Value) (value : Value)
    (r : AddResult Value) : Prop where
  inv : Inv T r.table
  values_eq : values T r.table = insertValue T (values T t) value
  isNewEntry_iff : r.isNewEntry = true ↔ ¬ Present T (values T t) (T.extract value)
  pointsTo : PointsTo T r.table r.entry (T.extract value)

/-- The value is written; the count and the size follow. -/
theorem finishAdd_spec (hT : T.Lawful) (h : Filled T {t with keyCount := t.keyCount+1} table m)
    (hroom : (t.keyCount+t.deletedCount)*2 < t.tableSize)
    (hpos : 0 ≤ t.deletedCount) (hp : LiveAt T table p) (hb : bucket T table p = value) :
    ∃ r, finishAdd T t p = some r ∧ Inv T r.table ∧ values T r.table = contents T table ∧
      r.isNewEntry ∧ PointsTo T r.table r.entry (T.extract value) := by
  have hh : ∀ {table' : List Value} {q : ℕ}, LiveAt T table' q → bucket T table' q = value →
      Holds T table' (T.extract value) q := by
    intro table' q hl hbucket
    refine ⟨hl,?_⟩
    have hk := hl.2
    unfold keyAt at hk ⊢
    rw [hbucket] at hk ⊢
    exact hT.equal_refl _ hk
  have hg : table[p]? = some value := by
    rw [getElem?_eq_getElem hp.1,← hb]
    simp [bucket,hp.1]
  have hl : isLive T value := by
    rw [← hb]
    exact ((liveAt_iff p).mp hp).2
  have hs : 8 ≤ t.tableSize := by
    have h8 : 2^3 ≤ 2^m := Nat.pow_le_pow_right (by omega) h.three_le
    have := h.tableSize_eq
    simp only at this
    omega
  unfold finishAdd
  simp only
  split
  next he =>
    obtain ⟨t',newEntry,table',n,hr,hload,hv,ht⟩ := h.expand_spec hT (some p) (by simp only; omega)
    obtain ⟨q,hq,hqlive,hqbucket⟩ := ht p value rfl hg hl
    rw [hr]
    refine ⟨⟨t',newEntry,true⟩,rfl,Or.inr ⟨table',n,hload⟩,?_,rfl,?_⟩
    · rw [hv,h.values_eq]
    · exact ⟨table',q,hload.table_eq,hq,hh hqlive hqbucket⟩
  next he =>
    refine ⟨_,rfl,Or.inr ⟨table,m,h,?_⟩,h.values_eq,rfl,?_⟩
    · by_contra hf
      exact he (decide_eq_true (not_lt.mp hf))
    · exact ⟨table,p,h.table_eq,rfl,hh hp hb⟩

theorem Loaded.write_spec (hT : T.Lawful) (h : Loaded T t table m)
    (hk : T.IsKey (T.extract value)) (ha : ∀ q, ¬Holds T table (T.extract value) q)
    (hf : Free T table m (T.hash (T.extract value)) p) (deletedCount : ℤ)
    (hd : deletedCount = tombstones T (table.set p value)) (hle : deletedCount ≤ t.deletedCount) :
    ∃ r, finishAdd T {t with table := some (table.set p value), deletedCount := deletedCount} p =
        some r ∧ AddSpec T t value r := by
  have hc := contents_set_of_not_live hf.lt hf.not_liveAt hk
  have hl : LiveAt T (table.set p value) p := by
    rw [liveAt_iff,length_set,bucket_set_self hf.lt,isLive_iff]
    exact ⟨hf.lt,hk⟩
  have hn : ¬Present T (values T t) (T.extract value) := by
    rw [h.values_eq,present_iff]
    exact fun hex => hex.elim ha
  have hload := h.load
  have hfilled : Filled T ⟨some (table.set p value),t.tableSize,t.tableSizeMask,
      t.keyCount+1,deletedCount⟩ (table.set p value) m :=
    {h.toFilled with
      table_eq := rfl
      sound := h.sound.set_free hT hk ha hf
      keyCount_eq := by simp [hc,h.keyCount_eq]
      deletedCount_eq := hd}
  obtain ⟨r,hr,hi,hv,hisNew,hp⟩ := finishAdd_spec hT
    (t := {t with table := some (table.set p value), deletedCount := deletedCount}) hfilled
    (by simp only; omega) (by simp only; omega) hl (bucket_set_self hf.lt value)
  refine ⟨r,hr,hi,?_,?_,hp⟩
  · rw [hv,hc,insertValue,if_neg hn,h.values_eq]
  · rw [hisNew]
    exact ⟨fun _ => hn,fun _ => rfl⟩

theorem Loaded.found_spec (h : Loaded T t table m)
    (hp : Holds T table (T.extract value) p) : AddSpec T t value ⟨t,some p,false⟩ := by
  have hpres : Present T (values T t) (T.extract value) := by
    rw [h.values_eq,present_iff]
    exact ⟨p,hp⟩
  constructor
  · exact Or.inr ⟨table,m,h⟩
  · rw [insertValue,if_pos hpres]
  · simp [hpres]
  · exact ⟨table,p,h.table_eq,rfl,hp⟩

theorem Free.tombstones_of_empty {h : UInt32} (hf : Free T table m h p)
    (he : EmptyAt T table p) (hk : T.IsKey (T.extract value)) :
    tombstones T (table.set p value) = tombstones T table := by
  have hs := tombstones_set (T := T) hf.lt value
  simpa [isTombstone_of_emptyAt he,isTombstone_of_isKey hk] using hs

theorem Free.tombstones_of_deleted {h : UInt32}
    (hf : Free T table m h p) (hd : DeletedAt T table p) (hk : T.IsKey (T.extract value)) :
    tombstones T (table.set p value)+1 = tombstones T table := by
  have hs := tombstones_set (T := T) hf.lt value
  simpa [isTombstone_of_deletedAt hd,isTombstone_of_isKey hk] using hs

theorem AddSpec.of_values_eq {t₀ : HashTable Value} {r : AddResult Value}
    (h : AddSpec T t value r) (he : values T t = values T t₀) : AddSpec T t₀ value r := by
  exact {h with values_eq := he ▸ h.values_eq, isNewEntry_iff := he ▸ h.isNewEntry_iff}

section
variable (hT : T.Lawful) (h : Inv T t)
include hT h

theorem Inv.add_spec (hq : T.Asks q.hash q.equal (T.extract q.value)) :
    ∃ r, add T t q = some r ∧ AddSpec T t q.value r := by
  obtain ⟨t',table,m,he,hl,hv⟩ := h.ensureTable_spec hT
  obtain ⟨w,hw,hs⟩ := hl.sound.probeForWriting_spec hT hl.hasEmpty hq
  rw [← hl.tableSizeMask_eq] at hw
  have hadd : ∃ r, add T t q = some r ∧ AddSpec T t' q.value r := by
    unfold add
    simp only [he,hl.table_eq,hw,bind_eq_bind,bind_some,Option.pure_def]
    rw [hq.hash_eq] at hs
    cases hs with
    | found hp => exact ⟨_,rfl,hl.found_spec hp⟩
    | empty ha hf hempty =>
      have hsame := hf.tombstones_of_empty hempty hq.isKey
      exact hl.write_spec hT hq.isKey ha hf t'.deletedCount
        (by rw [hsame,hl.deletedCount_eq]) le_rfl
    | deleted ha hf hd =>
      have hless := hf.tombstones_of_deleted hd hq.isKey
      have hc := hl.deletedCount_eq
      simp only [set_set]
      exact hl.write_spec hT hq.isKey ha hf (t'.deletedCount-1) (by omega) (by omega)
  obtain ⟨r,hr,hspec'⟩ := hadd
  exact ⟨r,hr,hspec'.of_values_eq hv⟩

/-- Whether a deleted bucket is reused is read from the bucket here and from the probe in `add`. -/
theorem Inv.addPassingHashCode_eq
    (hq : T.Asks q.hash q.equal (T.extract q.value)) : addPassingHashCode T t q = add T t q := by
  obtain ⟨t',table,m,he,hl,-⟩ := h.ensureTable_spec hT
  obtain ⟨w,hw,hs⟩ := hl.sound.probeForWriting_spec hT hl.hasEmpty hq
  rw [← hl.tableSizeMask_eq] at hw
  unfold addPassingHashCode fullLookupForWriting add
  simp only [he,hl.table_eq,hw,bind_eq_bind,bind_some,Option.pure_def,map_some]
  cases hs with
  | found hp => rfl
  | @empty p ha hf hempty =>
    have hb : isDeletedBucket T (bucket T table p) = false :=
      hT.isDeletedValue_of_isEmptyValue _ hempty
    simp [hb]
  | @deleted p d ha hf hd =>
    have hb : isDeletedBucket T (bucket T table d) := hd.2
    simp [hb]

theorem Inv.addPassingHashCode_spec (hq : T.Asks q.hash q.equal (T.extract q.value)) :
    ∃ r, addPassingHashCode T t q = some r ∧ AddSpec T t q.value r := by
  rw [h.addPassingHashCode_eq hT hq]
  exact h.add_spec hT hq

end

/-! ### Finding and removing -/

theorem Inv.lookup_spec (hT : T.Lawful) (h : Inv T t) (hk : T.IsKey key) :
    ∃ r, lookup T t key = some r ∧ (r.isSome ↔ Present T (values T t) key) ∧
      ∀ p, r = some p → PointsTo T t (some p) key := by
  rcases h with h | ⟨table,m,h⟩
  · refine ⟨none,by simp [lookup,h.table_eq],?_,fun p hp => by cases hp⟩
    rw [h.values_eq]
    simp [Present]
  · obtain ⟨r,hr,hs⟩ := h.sound.lookup_spec hT h.hasEmpty (hT.asks hk)
    rw [← h.tableSizeMask_eq] at hr
    refine ⟨r,by simp [lookup,h.table_eq,hr],?_,?_⟩
    · rw [h.values_eq,present_iff,isSome_iff_exists]
      exact exists_congr hs
    · intro p hp
      exact ⟨table,p,h.table_eq,rfl,(hs p).mp hp⟩

theorem Inv.loaded (h : Inv T t) (ht : t.table = some table) : ∃ m, Loaded T t table m := by
  rcases h with h | ⟨table',m,h⟩
  · rw [h.table_eq] at ht
    cases ht
  · rw [h.table_eq] at ht
    obtain rfl := Option.some.inj ht
    exact ⟨m,h⟩

theorem Loaded.removeEntry_spec (hT : T.Lawful) (h : Loaded T t table m) (hp : LiveAt T table p) :
    ∃ t', removeEntry T t p = some t' ∧ Inv T t' ∧
      values T t' = contents T (table.set p T.deletedValue) := by
  have hcont := contents_set_deletedValue hT hp
  have hc := congrArg Multiset.card hcont
  rw [Multiset.card_cons] at hc
  have ht := tombstones_set (T := T) hp.1 T.deletedValue
  have hd : isTombstone T T.deletedValue := by
    simp [isTombstone,isEmptyBucket,isDeletedBucket,hT.isEmptyValue_deletedValue,
      hT.isDeletedValue_deletedValue]
  rw [isTombstone_of_isKey hp.2,hd] at ht
  simp only [Bool.false_eq_true,if_false,if_true,Nat.add_zero] at ht
  have hk := h.keyCount_eq
  have hdelCount := h.deletedCount_eq
  have hload := h.load
  let t₁ : HashTable Value := ⟨some (table.set p T.deletedValue),t.tableSize,t.tableSizeMask,
    t.keyCount-1,t.deletedCount+1⟩
  have hf : Filled T t₁ (table.set p T.deletedValue) m := {h.toFilled with
      table_eq := rfl
      sound := h.sound.set_deleted hT hp.1
      keyCount_eq := by simp only [t₁]; omega
      deletedCount_eq := by simp only [t₁]; omega}
  have hrun : removeEntry T t p = if shouldShrink T t₁ then
      (rehash T t₁ (t₁.tableSize / 2) none).map Prod.fst else some t₁ := by
    simp [removeEntry,h.table_eq,t₁]
  rw [hrun]
  split
  next hshrink =>
    have hs : t₁.keyCount*6 < t₁.tableSize ∧ T.minimumTableSize < t₁.tableSize :=
      of_decide_eq_true hshrink
    obtain ⟨n,hn,hm⟩ := hT.minimumTableSize_eq
    have hsize := hf.tableSize_eq
    -- The size is a power of two above the minimum, so half of it still is one.
    have hlt : n < m := by
      rw [hsize,hm] at hs
      exact (Nat.pow_lt_pow_iff_right (by omega)).mp hs.2
    have hh : 2^m = 2^(m-1)*2 := by
      rw [← Nat.pow_succ]
      congr 1
      omega
    have hle : 2^n ≤ 2^(m-1) := Nat.pow_le_pow_right (by omega) (by omega)
    obtain ⟨t',newEntry,table',hrun',hl,hsame,-⟩ := rehash_spec hT (t := t₁) (m-1) none
      hf.sound.differ (by rw [hf.values_eq,hf.keyCount_eq]) (by omega)
      (by omega) (by
        have h₁ := hs.1
        rw [hsize,hh] at h₁
        push_cast at h₁ ⊢
        have : (0 : ℤ) < 2^(m-1) := by positivity
        omega)
    have hdiv : t₁.tableSize / 2 = 2^(m-1) := by omega
    refine ⟨t',by rw [hdiv,hrun']; rfl,Or.inr ⟨table',m-1,hl⟩,?_⟩
    rw [hsame,hf.values_eq]
  next =>
    refine ⟨t₁,rfl,Or.inr ⟨_,m,hf,?_⟩,hf.values_eq⟩
    simp only [t₁]
    omega

theorem Inv.removeIterator_spec (hT : T.Lawful) (h : Inv T t) (hk : T.IsKey key)
    (hp : PointsTo T t (some p) key) :
    ∃ t', removeIterator T t p = some t' ∧ Inv T t' ∧ values T t' = eraseKey T (values T t) key := by
  obtain ⟨table,q,ht,hq,hh⟩ := hp
  obtain ⟨m,hl⟩ := h.loaded ht
  obtain rfl := Option.some.inj hq
  obtain ⟨t',hr,hi,hv⟩ := hl.removeEntry_spec hT hh.1
  refine ⟨t',?_,hi,?_⟩
  · unfold removeIterator
    have hlt := hh.1.1
    rw [hl.sound.length_eq] at hlt
    rw [if_neg (by rw [hl.tableSize_eq]; omega),hr]
  · have ho : ∀ e ∈ values T t', T.equal (T.extract e) key = false := by
      intro e he
      rw [hv] at he
      obtain ⟨q,hlive,rfl⟩ := mem_contents.mp he
      have hne : q ≠ p := by
        intro hqp
        subst hqp
        have hd := hlive.2.2
        rw [keyAt_set_self hh.1.1,hT.isDeletedValue_deletedValue] at hd
        cases hd
      rw [bucket_set_of_ne hne]
      by_contra heq
      apply hne
      exact hl.sound.holds_unique hT hk
        ⟨(liveAt_set_of_ne hne _).mp hlive,by simpa [keyAt] using heq⟩ hh
    rw [hl.values_eq,contents_set_deletedValue hT hh.1,← hv,eraseKey,
      Multiset.filter_cons_of_neg,Multiset.filter_eq_self.mpr ho]
    have heq := hh.2
    unfold keyAt at heq
    simp [heq]

theorem eraseKey_of_not_present {S : Multiset Value} (h : ¬Present T S key) :
    eraseKey T S key = S := by
  unfold eraseKey
  rw [Multiset.filter_eq_self]
  intro e he
  by_contra heq
  exact h ⟨e,he,by simpa using heq⟩

theorem Inv.remove_spec (hT : T.Lawful) (h : Inv T t) (hk : T.IsKey key) :
    ∃ t', remove T t key = some t' ∧ Inv T t' ∧ values T t' = eraseKey T (values T t) key := by
  obtain ⟨r,hr,hp,hpts⟩ := h.lookup_spec hT hk
  cases r with
  | none =>
    have ha : ¬Present T (values T t) key := by simpa using hp.not.mp (by simp)
    refine ⟨t,?_,h,(eraseKey_of_not_present ha).symm⟩
    simp [remove,find,hr,removeIterator]
  | some p =>
    obtain ⟨t',hrun,hi,hv⟩ := h.removeIterator_spec hT hk (hpts p rfl)
    refine ⟨t',?_,hi,hv⟩
    simp only [remove,find,hr,map_some,getD_some,bind_some]
    exact hrun

theorem Inv.clear_spec (h : Inv T t) : Inv T (clear t) ∧ values T (clear t) = 0 := by
  rcases h with h | ⟨table,m,h⟩
  · have hc : clear t = t := by simp [clear,h.table_eq]
    rw [hc]
    exact ⟨Or.inl h,h.values_eq⟩
  · have hc : clear t = ⟨none,0,0,0,t.deletedCount⟩ := by simp [clear,h.table_eq]
    have hn : Unallocated (clear t) := by
      rw [hc]
      exact ⟨rfl,rfl,rfl,rfl⟩
    exact ⟨Or.inl hn,hn.values_eq⟩

/-! ### Iterating and copying -/

theorem entries_drop (hp : p < table.length) : entries T (table.drop p) =
      if isLive T (bucket T table p) then bucket T table p::entries T (table.drop (p+1))
      else entries T (table.drop (p+1)) := by
  have hb : bucket T table p = table[p] := by simp [bucket,hp]
  rw [drop_eq_getElem_cons hp,hb]
  simp only [entries,filter_cons]

theorem skipEmptyBuckets_spec (table : List Value) (fuel p : ℕ) (hp : p ≤ table.length)
    (hf : table.length ≤ p+fuel) :
    p ≤ skipEmptyBuckets T table fuel p ∧ skipEmptyBuckets T table fuel p ≤ table.length ∧
      entries T (table.drop (skipEmptyBuckets T table fuel p)) = entries T (table.drop p) ∧
      (skipEmptyBuckets T table fuel p < table.length →
        isLive T (bucket T table (skipEmptyBuckets T table fuel p))) := by
  induction fuel generalizing p with
  | zero =>
    unfold skipEmptyBuckets
    exact ⟨le_rfl,hp,rfl,fun h => by omega⟩
  | succ fuel ih =>
    unfold skipEmptyBuckets
    split
    next h =>
      have hlt : p < table.length := by omega
      have hd : isLive T (bucket T table p) = false := by simp [isLive,h.2]
      obtain ⟨h₁,h₂,h₃,h₄⟩ := ih (p+1) (by omega) (by omega)
      refine ⟨by omega,h₂,?_,h₄⟩
      rw [h₃,entries_drop hlt,hd]
      rfl
    next h =>
      refine ⟨le_rfl,hp,rfl,fun hlt => ?_⟩
      by_contra hd
      apply h
      exact ⟨by omega,by simpa [isLive] using hd⟩

theorem positionsFrom_spec (fuel p : ℕ) (hp : p ≤ table.length) (hf : table.length ≤ p+fuel)
    (hl : p < table.length → isLive T (bucket T table p)) :
    (positionsFrom T table fuel p).map (bucket T table) = entries T (table.drop p) := by
  induction fuel generalizing p with
  | zero =>
    have he : p = table.length := by omega
    simp [positionsFrom,he,entries]
  | succ fuel ih =>
    unfold positionsFrom
    split
    next he => simp [he,entries]
    next he =>
      have hlt : p < table.length := by omega
      obtain ⟨h₁,h₂,h₃,h₄⟩ := skipEmptyBuckets_spec (T := T) table table.length (p+1) (by omega)
        (by omega)
      rw [map_cons,increment,ih _ h₂ (by omega) h₄,h₃,entries_drop hlt,hl hlt]
      rfl

/-- A loop over the table comes to every entry once. -/
theorem Loaded.iterate_eq (h : Loaded T t table m) : iterate T t = entries T table := by
  have hl : t.tableSize = table.length := by rw [h.tableSize_eq,h.sound.length_eq]
  unfold iterate begin
  simp only [h.table_eq]
  split
  next hz =>
    have hc := h.keyCount_eq
    have hn : entries T table = [] := by
      have : Multiset.card (contents T table) = 0 := by omega
      simpa [contents] using this
    rw [positionsFrom_spec _ _ hl.le (by omega) (fun hlt => by omega),hl,hn]
    simp [entries]
  next hp =>
    obtain ⟨-,h₂,h₃,h₄⟩ := skipEmptyBuckets_spec (T := T) table table.length 0 (by omega) (by omega)
    rw [positionsFrom_spec _ _ h₂ (by omega) h₄,h₃,drop_zero]

theorem Inv.iterate_spec (h : Inv T t) : (iterate T t : Multiset Value) = values T t := by
  rcases h with h | ⟨table,m,h⟩
  · rw [h.values_eq]
    simp [iterate,h.table_eq]
  · rw [h.values_eq,h.iterate_eq]
    rfl

theorem Inv.pairwise_iterate (h : Inv T t) :
    Differ T (iterate T t) ∧ ∀ e ∈ iterate T t, T.IsKey (T.extract e) := by
  rcases h with h | ⟨table,m,h⟩
  · simp [iterate,h.table_eq]
  · rw [h.iterate_eq]
    refine ⟨h.sound.differ,fun e he => ?_⟩
    rw [← isLive_iff]
    exact (mem_filter.mp he).2

theorem addAll_spec (hT : T.Lawful) (L : List Value) (h : Inv T t) (hd : Differ T L)
    (hk : ∀ e ∈ L, T.IsKey (T.extract e))
    (ha : ∀ e ∈ L, ¬Present T (values T t) (T.extract e)) :
    ∃ t', L.foldlM (fun t value => (add T t (identity T value)).map AddResult.table) t = some t' ∧
      Inv T t' ∧ values T t' = values T t+(L : Multiset Value) := by
  induction L generalizing t with
  | nil => exact ⟨t,rfl,h,by simp⟩
  | cons v L ih =>
    obtain ⟨r,hr,hs⟩ := h.add_spec hT (q := identity T v) (hT.asks (hk v (by simp)))
    have hv : values T r.table = v ::ₘ values T t := by
      rw [hs.values_eq,insertValue]
      exact if_neg (ha v (by simp))
    have habs' : ∀ e ∈ L, ¬Present T (values T r.table) (T.extract e) := by
      intro e he hp
      obtain ⟨w,hw,heq⟩ := hp
      rw [hv,Multiset.mem_cons] at hw
      rcases hw with rfl | hw
      · exact (pairwise_cons.mp hd).1 e he heq
      · exact ha e (by simp [he]) ⟨w,hw,heq⟩
    obtain ⟨t',hrun,hi,hall⟩ := ih hs.inv (pairwise_cons.mp hd).2
      (fun e he => hk e (by simp [he])) habs'
    refine ⟨t',?_,hi,?_⟩
    · simp only [foldlM_cons,hr,map_some,bind_eq_bind,bind_some]
      exact hrun
    · rw [hall,hv,Multiset.cons_add,← Multiset.cons_coe,Multiset.add_cons]

theorem Inv.copy_spec (hT : T.Lawful) (h : Inv T t) :
    ∃ t', copy T t = some t' ∧ Inv T t' ∧ values T t' = values T t := by
  have hz : values T (init : HashTable Value) = 0 := by simp [values,init,contents,entries]
  obtain ⟨t',hr,hi,hv⟩ := addAll_spec hT (iterate T t) (init_inv (T := T))
    h.pairwise_iterate.1 h.pairwise_iterate.2 (fun e _ hp => by
      obtain ⟨w,hw,-⟩ := hp
      exact Multiset.notMem_zero w hw)
  exact ⟨t',hr,hi,by rw [hv,hz,zero_add,h.iterate_spec]⟩

end HashTable

end QPlusWeb.WTF
