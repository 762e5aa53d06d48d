import QPlusWeb.HashTable

/-!
# Probing a table

A table is sound when every entry can be reached from the hash of its key
without crossing an empty bucket, and no two entries have equal keys. In a
sound table with an empty bucket every probe loop ends within one round and
finds the entry with a key if there is one. Writing a value where a search for
its key ended, or a deleted bucket over an entry, keeps the table sound.
-/
namespace QPlusWeb.WTF
open ProbeSequence

variable {Key Value : Type} {value : Value} {T : HashTraits Key Value} {p m : ℕ}

/-- Keys of entries are neither the empty nor the deleted value. -/
def HashTraits.IsKey (T : HashTraits Key Value) (key : Key) : Prop :=
  T.isEmptyValue key = false ∧ T.isDeletedValue key = false

/-- What the table relies on. Comparing with a bucket that is no entry is only
asked for where the traits call it safe. -/
structure HashTraits.Lawful (T : HashTraits Key Value) : Prop where
  equal_refl : ∀ a, T.IsKey a → T.equal a a = true
  equal_symm : ∀ a b, T.IsKey a → T.IsKey b → T.equal a b = true → T.equal b a = true
  equal_trans : ∀ a b c, T.IsKey a → T.IsKey b → T.IsKey c → T.equal a b = true →
    T.equal b c = true → T.equal a c = true
  hash_eq : ∀ a b, T.IsKey a → T.IsKey b → T.equal a b = true → T.hash a = T.hash b
  equal_of_not_isKey : T.safeToCompareToEmptyOrDeleted = true → ∀ a b, ¬ T.IsKey a → T.IsKey b →
    T.equal a b = false
  isEmptyValue_emptyValue : T.isEmptyValue (T.extract T.emptyValue) = true
  isDeletedValue_deletedValue : T.isDeletedValue (T.extract T.deletedValue) = true
  isDeletedValue_of_isEmptyValue : ∀ a, T.isEmptyValue a = true → T.isDeletedValue a = false
  minimumTableSize_eq : ∃ m, 3 ≤ m ∧ T.minimumTableSize = 2 ^ m

theorem HashTraits.Lawful.isEmptyValue_deletedValue (hT : T.Lawful) :
    T.isEmptyValue (T.extract T.deletedValue) = false := by
  by_contra h
  have hd := hT.isDeletedValue_of_isEmptyValue _ (by simpa using h)
  rw [hT.isDeletedValue_deletedValue] at hd
  cases hd

/-- A hash and a comparison that stand for `key`. -/
structure HashTraits.Asks (T : HashTraits Key Value) (h : UInt32) (equal : Key → Bool)
    (key : Key) : Prop where
  isKey : T.IsKey key
  hash_eq : h = T.hash key
  equal_eq : ∀ a, T.IsKey a → equal a = T.equal a key
  equal_of_not_isKey : T.safeToCompareToEmptyOrDeleted = true → ∀ a, ¬ T.IsKey a → equal a = false

theorem HashTraits.Lawful.asks (hT : T.Lawful) {key : Key}
    (hk : T.IsKey key) : T.Asks (T.hash key) (fun k => T.equal k key) key :=
  ⟨hk,rfl,fun _ _ => rfl,fun hs a ha => hT.equal_of_not_isKey hs a key ha hk⟩

namespace HashTable

variable {table : List Value} {n q : ℕ}

def keyAt (T : HashTraits Key Value) (table : List Value) (p : ℕ) : Key :=
  T.extract (bucket T table p)

def EmptyAt (T : HashTraits Key Value) (table : List Value) (p : ℕ) : Prop :=
  T.isEmptyValue (keyAt T table p) = true

def DeletedAt (T : HashTraits Key Value) (table : List Value) (p : ℕ) : Prop :=
  ¬ EmptyAt T table p ∧ T.isDeletedValue (keyAt T table p) = true

def LiveAt (T : HashTraits Key Value) (table : List Value) (p : ℕ) : Prop :=
  p < table.length ∧ T.IsKey (keyAt T table p)

def distance (h : UInt32) : ℕ := (1 ||| doubleHash h).toNat

def path (m : ℕ) (h : UInt32) : ℕ → ℕ := probe (h.toNat % 2 ^ m) (distance h) (2 ^ m)

theorem distance_odd (h : UInt32) : distance h % 2 = 1 := by
  unfold distance
  simp

theorem path_lt (h : UInt32) (hn : n = 2^m) (j : ℕ) : path m h j < n := by
  rw [hn]
  exact probe_lt (Nat.two_pow_pos m) j

theorem path_surjOn (h : UInt32) (hn : n = 2^m) : ∀ p < n, ∃ j < n, path m h j = p := by
  rw [hn]
  exact fun p => probe_surjOn _ (distance_odd h)

/-- The variables of a loop in its `n`-th round. -/
def probeAt (m : ℕ) (h : UInt32) (deletedEntry : Option ℕ) (n : ℕ) : Probe :=
  ⟨path m h n, if n = 0 then 0 else distance h, deletedEntry⟩

theorem start_eq (m : ℕ) (h : UInt32) : Probe.start h (2^m-1) = probeAt m h none 0 := by
  unfold Probe.start probeAt path
  rw [probe_zero _ (Nat.mod_lt _ (Nat.two_pow_pos m)),Nat.and_two_pow_sub_one_eq_mod]
  rfl

theorem advance_probeAt (m : ℕ) (h : UInt32) (deletedEntry : Option ℕ) (n : ℕ) :
    (probeAt m h deletedEntry n).advance h (2^m-1) = probeAt m h deletedEntry (n+1) := by
  have hk : (if (probeAt m h deletedEntry n).k = 0 then (1 ||| doubleHash h).toNat
      else (probeAt m h deletedEntry n).k) = distance h := by
    unfold probeAt distance at *
    split_ifs <;> simp_all
  unfold Probe.advance
  simp only [hk]
  simp only [probeAt,path,probe_succ,Nat.and_two_pow_sub_one_eq_mod]
  rfl

theorem not_liveAt_of_emptyAt (h : EmptyAt T table p) : ¬LiveAt T table p := by
  intro hl
  have := hl.2.1
  rw [h] at this
  exact Bool.noConfusion this

theorem not_liveAt_of_deletedAt (h : DeletedAt T table p) : ¬LiveAt T table p := by
  intro hl
  have := hl.2.2
  rw [h.2] at this
  exact Bool.noConfusion this

theorem liveAt_of_not (hp : p < table.length) (he : ¬EmptyAt T table p)
    (hd : ¬DeletedAt T table p) : LiveAt T table p := by
  have hempty : T.isEmptyValue (keyAt T table p) = false := by simpa [EmptyAt] using he
  have hdel : T.isDeletedValue (keyAt T table p) = false := by
    by_contra h
    exact hd ⟨he,by simpa using h⟩
  exact ⟨hp,hempty,hdel⟩

/-- An entry with the key that is asked for. -/
def Holds (T : HashTraits Key Value) (table : List Value) (key : Key) (p : ℕ) : Prop :=
  LiveAt T table p ∧ T.equal (keyAt T table p) key = true

section
variable {h : UInt32} {equal : Key → Bool} {key : Key} {s : Probe}

section
variable (hq : T.Asks h equal key)
include hq

theorem asked_eq (hp : p < table.length) :
    Holds T table key p ↔ T.IsKey (keyAt T table p) ∧ equal (keyAt T table p) := by
  constructor
  · intro hh
    exact ⟨hh.1.2,by rw [hq.equal_eq _ hh.1.2]; exact hh.2⟩
  · intro hh
    exact ⟨⟨hp,hh.1⟩,by rw [← hq.equal_eq _ hh.1]; exact hh.2⟩

section
variable (sizeMask : ℕ)

/-- Both orders of the tests come to the same. -/
theorem lookupStep_eq : lookupStep T table sizeMask h equal s =
    if T.isEmptyValue (keyAt T table s.i) then .inr none
    else if !T.isDeletedValue (keyAt T table s.i) && equal (keyAt T table s.i) then .inr (some s.i)
    else .inl (s.advance h sizeMask) := by
  have ho := fun hs => hq.equal_of_not_isKey hs (keyAt T table s.i)
  unfold keyAt HashTraits.IsKey at *
  unfold lookupStep isEmptyBucket isDeletedBucket
  split_ifs <;> grind

theorem writingStep_eq : writingStep T table sizeMask h equal s =
    if T.isEmptyValue (keyAt T table s.i) then .inr (.vacant s.i s.deletedEntry)
    else if T.isDeletedValue (keyAt T table s.i) then
      .inl (Probe.advance h sizeMask {s with deletedEntry := some s.i})
    else if equal (keyAt T table s.i) then .inr (.found s.i)
    else .inl (s.advance h sizeMask) := by
  have ho := fun hs => hq.equal_of_not_isKey hs (keyAt T table s.i)
  unfold keyAt HashTraits.IsKey at *
  unfold writingStep isEmptyBucket isDeletedBucket
  split_ifs <;> simp_all

theorem lookupStep_of_holds (hs : Holds T table key s.i) :
    lookupStep T table sizeMask h equal s = .inr (some s.i) := by
  have hb := (asked_eq hq hs.1.1).mp hs
  simp [lookupStep_eq hq,hb.1.1,hb.1.2,hb.2]

theorem lookupStep_of_empty (he : EmptyAt T table s.i) :
    lookupStep T table sizeMask h equal s = .inr none := by
  rw [lookupStep_eq hq]
  exact if_pos he

theorem lookupStep_of_other
    (hp : s.i < table.length) (hn : ¬Holds T table key s.i) (he : ¬EmptyAt T table s.i) :
    lookupStep T table sizeMask h equal s = .inl (s.advance h sizeMask) := by
  unfold EmptyAt at he
  rw [lookupStep_eq hq,if_neg he,if_neg]
  intro hc
  simp only [Bool.and_eq_true,Bool.not_eq_true'] at hc
  exact hn ((asked_eq hq hp).mpr ⟨⟨by simpa using he,hc.1⟩,hc.2⟩)

theorem writingStep_of_holds (hs : Holds T table key s.i) :
    writingStep T table sizeMask h equal s = .inr (.found s.i) := by
  have hb := (asked_eq hq hs.1.1).mp hs
  simp [writingStep_eq hq,hb.1.1,hb.1.2,hb.2]

theorem writingStep_of_empty (he : EmptyAt T table s.i) :
    writingStep T table sizeMask h equal s = .inr (.vacant s.i s.deletedEntry) := by
  rw [writingStep_eq hq]
  exact if_pos he

theorem writingStep_of_deleted (hd : DeletedAt T table s.i) :
    writingStep T table sizeMask h equal s =
      .inl (Probe.advance h sizeMask {s with deletedEntry := some s.i}) := by
  rw [writingStep_eq hq]
  exact (if_neg hd.1).trans (if_pos hd.2)

theorem writingStep_of_other (hl : LiveAt T table s.i) (hn : ¬Holds T table key s.i) :
    writingStep T table sizeMask h equal s = .inl (s.advance h sizeMask) := by
  rw [writingStep_eq hq,if_neg (by simp [hl.2.1]),if_neg (by simp [hl.2.2]),if_neg]
  exact fun hc => hn ((asked_eq hq hl.1).mpr ⟨hl.2,hc⟩)

end

end

end

/-- Entries can be reached from their hash, and their keys differ. -/
structure Sound (T : HashTraits Key Value) (table : List Value) (m : ℕ) : Prop where
  length_eq : table.length = 2 ^ m
  reaches : ∀ p, LiveAt T table p →
    Reaches (path m (T.hash (keyAt T table p))) (EmptyAt T table) p
  unique : ∀ p q, LiveAt T table p → LiveAt T table q →
    T.equal (keyAt T table p) (keyAt T table q) = true → p = q

def HasEmpty (T : HashTraits Key Value) (table : List Value) : Prop :=
  ∃ p < table.length, EmptyAt T table p

section Searches
variable {h : UInt32} {equal : Key → Bool} {key : Key}

section
variable (hT : T.Lawful) (hS : Sound T table m)
include hT hS

theorem Sound.reaches_of_holds (hq : T.Asks h equal key) (hp : Holds T table key p) : Reaches
    (path m h) (EmptyAt T table) p := by
  have hh : T.hash (keyAt T table p) = h := by
    rw [hq.hash_eq]
    exact hT.hash_eq _ _ hp.1.2 hq.isKey hp.2
  rw [← hh]
  exact hS.reaches p hp.1

theorem Sound.holds_unique (hk : T.IsKey key) {q : ℕ}
    (hp : Holds T table key p) (hq : Holds T table key q) : p = q := by
  apply hS.unique p q hp.1 hq.1
  apply hT.equal_trans _ key _ hp.1.2 hk hq.1.2 hp.2
  exact hT.equal_symm _ _ hq.1.2 hk hq.2

/-- `lookup` ends and returns the entry with the key, if there is one. -/
theorem Sound.lookup_spec (hempty : HasEmpty T table) (hq : T.Asks h equal key) :
    ∃ r, loop (lookupStep T table (2^m-1) h equal) table.length (Probe.start h (2^m-1)) = some r ∧
      ∀ p, r = some p ↔ Holds T table key p := by
  obtain ⟨n,hl,-,hs⟩ := exists_search _ (Holds T table key)
    (lookupStep T table (2^m-1) h equal) (probeAt m h none) (path_surjOn h hS.length_eq) hempty
    fun j ho he => by
      rw [← advance_probeAt]
      exact lookupStep_of_other hq _ (path_lt h hS.length_eq j) ho he
  rw [start_eq]
  rcases hs with hh | ⟨he,ha⟩
  · refine ⟨some (path m h n),hl _ (lookupStep_of_holds hq _ hh),fun p => ?_⟩
    constructor
    · rintro ⟨⟩
      exact hh
    · intro hp
      rw [hS.holds_unique hT hq.isKey hh hp]
  · refine ⟨none,hl _ (lookupStep_of_empty hq _ he),fun p => ⟨nofun,fun hp => ?_⟩⟩
    exact absurd hp (ha p (hS.reaches_of_holds hT hq hp))

end

/-- The last deleted bucket before round `n`. -/
def lastDeleted (T : HashTraits Key Value) (table : List Value) (path : ℕ → ℕ) : ℕ → Option ℕ
  | 0 => none
  | n + 1 =>
    if !isEmptyBucket T (bucket T table (path n)) && isDeletedBucket T (bucket T table (path n))
    then some (path n) else lastDeleted T table path n

theorem lastDeleted_succ_of_deleted {path : ℕ → ℕ} (hd : DeletedAt T table (path n)) :
    lastDeleted T table path (n+1) = some (path n) := by
  apply if_pos
  simpa [DeletedAt,EmptyAt,keyAt,isEmptyBucket,isDeletedBucket] using hd

theorem lastDeleted_succ_of_not {path : ℕ → ℕ} (hd : ¬DeletedAt T table (path n)) :
    lastDeleted T table path (n+1) = lastDeleted T table path n := by
  apply if_neg
  simpa [DeletedAt,EmptyAt,keyAt,isEmptyBucket,isDeletedBucket] using hd

theorem lastDeleted_spec {path : ℕ → ℕ} (hp : lastDeleted T table path n = some p)
    (hb : ∀ j < n, ¬EmptyAt T table (path j)) :
    DeletedAt T table p ∧ Reaches path (EmptyAt T table) p := by
  induction n with
  | zero => simp [lastDeleted] at hp
  | succ n ih =>
    by_cases hd : DeletedAt T table (path n)
    · rw [lastDeleted_succ_of_deleted hd] at hp
      obtain rfl := Option.some.inj hp
      exact ⟨hd,n,rfl,fun j hj => hb j (by omega)⟩
    · rw [lastDeleted_succ_of_not hd] at hp
      exact ih hp (fun j hj => hb j (by omega))

/-- A bucket that may take a value whose key hashes to `h`. -/
structure Free (T : HashTraits Key Value) (table : List Value) (m : ℕ) (h : UInt32) (p : ℕ) :
    Prop where
  lt : p < table.length
  not_liveAt : ¬ LiveAt T table p
  reaches : Reaches (path m h) (EmptyAt T table) p

/-- How a probe for writing can end. -/
inductive WritingSpec (T : HashTraits Key Value) (table : List Value) (m : ℕ) (h : UInt32)
    (key : Key) : WritingProbe → Prop
  | found {p : ℕ} : Holds T table key p → WritingSpec T table m h key (.found p)
  | empty {p : ℕ} : (∀ q, ¬ Holds T table key q) → Free T table m h p → EmptyAt T table p →
      WritingSpec T table m h key (.vacant p none)
  | deleted {p d : ℕ} : (∀ q, ¬ Holds T table key q) → Free T table m h d →
      DeletedAt T table d → WritingSpec T table m h key (.vacant p (some d))

theorem Sound.probeForWriting_spec (hT : T.Lawful) (hS : Sound T table m)
    (hempty : HasEmpty T table) (hq : T.Asks h equal key) :
    ∃ r, probeForWriting T table (2^m-1) h equal = some r ∧ WritingSpec T table m h key r := by
  have hlt := path_lt h hS.length_eq
  let state := fun j => probeAt m h (lastDeleted T table (path m h) j) j
  obtain ⟨n,hloop,hpath,hstop⟩ := exists_search _ (Holds T table key)
    (writingStep T table (2^m-1) h equal) state (path_surjOn h hS.length_eq) hempty
    fun j ho he => by
      by_cases hd : DeletedAt T table (path m h j)
      · simp only [state,lastDeleted_succ_of_deleted hd]
        rw [← advance_probeAt]
        exact writingStep_of_deleted hq _ hd
      · simp only [state,lastDeleted_succ_of_not hd]
        rw [← advance_probeAt]
        exact writingStep_of_other hq _ (liveAt_of_not (hlt j) he hd) ho
  have hs : Probe.start h (2^m-1) = state 0 := start_eq m h
  unfold probeForWriting
  rw [hs]
  rcases hstop with hh | ⟨he,hn⟩
  · exact ⟨_,hloop _ (writingStep_of_holds hq _ hh),.found hh⟩
  · have ha : ∀ p, ¬Holds T table key p := fun p hp =>
      hn p (hS.reaches_of_holds hT hq hp) hp
    refine ⟨_,hloop _ (writingStep_of_empty hq _ he),?_⟩
    simp only [state,probeAt]
    cases hl : lastDeleted T table (path m h) n with
    | none => exact .empty ha ⟨hlt n,not_liveAt_of_emptyAt he,n,rfl,hpath⟩ he
    | some d =>
      obtain ⟨hd,hr⟩ := lastDeleted_spec hl hpath
      have hdlt : d < table.length := by
        obtain ⟨k,hk,-⟩ := hr
        rw [← hk]
        exact hlt k
      exact .deleted ha ⟨hdlt,not_liveAt_of_deletedAt hd,hr⟩ hd

end Searches

/-! ### Writing a bucket -/

theorem keyAt_set_self (hp : p < table.length) (value : Value) :
    keyAt T (table.set p value) p = T.extract value := by
  simp [keyAt,bucket,hp]

section
variable (h : q ≠ p) (value : Value)
include h

theorem keyAt_set_of_ne : keyAt T (table.set p value) q = keyAt T table q := by
  simp [keyAt,bucket,List.getElem?_set_ne h.symm]

theorem liveAt_set_of_ne : LiveAt T (table.set p value) q ↔ LiveAt T table q := by
  unfold LiveAt
  rw [keyAt_set_of_ne h,List.length_set]

theorem emptyAt_set_of_ne : EmptyAt T (table.set p value) q ↔ EmptyAt T table q := by
  unfold EmptyAt
  rw [keyAt_set_of_ne h]

end

/-- No bucket becomes empty when a value that is not empty is written. -/
theorem emptyAt_of_emptyAt_set (hp : p < table.length)
    (hv : T.isEmptyValue (T.extract value) = false)
    (h : EmptyAt T (table.set p value) q) : EmptyAt T table q := by
  by_cases hq : q = p
  · subst hq
    unfold EmptyAt at h
    rw [keyAt_set_self hp,hv] at h
    cases h
  · exact (emptyAt_set_of_ne hq value).mp h

section
variable (hT : T.Lawful) (hS : Sound T table m)
include hT hS

/-- A bucket may be written if a key in it is new and where the search for it has ended. -/
theorem Sound.set (hp : p < table.length) (hv : T.isEmptyValue (T.extract value) = false)
    (hn : T.IsKey (T.extract value) → (∀ q, ¬Holds T table (T.extract value) q) ∧
      Reaches (path m (T.hash (T.extract value))) (EmptyAt T table) p) :
    Sound T (table.set p value) m := by
  have hm := fun q => emptyAt_of_emptyAt_set (T := T) (q := q) hp hv
  have hs := keyAt_set_self (T := T) hp value
  have hkey : LiveAt T (table.set p value) p → T.IsKey (T.extract value) := fun h => hs ▸ h.2
  constructor
  · rw [List.length_set,hS.length_eq]
  · intro q hq
    by_cases hqp : q = p
    · subst hqp
      rw [hs]
      exact (hn (hkey hq)).2.mono hm
    · rw [keyAt_set_of_ne hqp]
      exact (hS.reaches q ((liveAt_set_of_ne hqp value).mp hq)).mono hm
  · intro q r hq hr he
    by_cases hqp : q = p
    · by_cases hrp : r = p
      · rw [hqp,hrp]
      · subst hqp
        rw [hs,keyAt_set_of_ne hrp] at he
        have hl := (liveAt_set_of_ne hrp value).mp hr
        have hkey' := hkey hq
        exact absurd ⟨hl,hT.equal_symm _ _ hkey' hl.2 he⟩ ((hn hkey').1 r)
    · have hl := (liveAt_set_of_ne hqp value).mp hq
      rw [keyAt_set_of_ne hqp] at he
      by_cases hrp : r = p
      · subst hrp
        rw [hs] at he
        exact absurd ⟨hl,he⟩ ((hn (hkey hr)).1 q)
      · rw [keyAt_set_of_ne hrp] at he
        exact hS.unique q r hl ((liveAt_set_of_ne hrp value).mp hr) he

/-- A value may be written where the search for its key has ended. -/
theorem Sound.set_free
    (hk : T.IsKey (T.extract value)) (ha : ∀ q, ¬Holds T table (T.extract value) q)
    (hf : Free T table m (T.hash (T.extract value)) p) : Sound T (table.set p value) m :=
  hS.set hT hf.lt hk.1 fun _ => ⟨ha,hf.reaches⟩

/-- A deleted bucket does not cut the path of another entry. -/
theorem Sound.set_deleted (hp : p < table.length) : Sound T (table.set p T.deletedValue) m := by
  apply hS.set hT hp hT.isEmptyValue_deletedValue
  intro hk
  have hd := hk.2
  rw [hT.isDeletedValue_deletedValue] at hd
  cases hd

end

theorem keyAt_replicate (size p : ℕ) :
    keyAt T (allocateTable T size) p = T.extract T.emptyValue := by
  simp only [keyAt,bucket,allocateTable]
  congr 1
  by_cases hp : p < size <;> simp [hp]

theorem sound_allocateTable (hT : T.Lawful) (m : ℕ) : Sound T (allocateTable T (2^m)) m := by
  have hn : ∀ p, ¬LiveAt T (allocateTable T (2^m)) p := by
    intro p hp
    apply not_liveAt_of_emptyAt _ hp
    rw [EmptyAt,keyAt_replicate]
    exact hT.isEmptyValue_emptyValue
  constructor
  · simp [allocateTable]
  · intro p hp
    exact absurd hp (hn p)
  · intro p q hp
    exact absurd hp (hn p)

end HashTable

end QPlusWeb.WTF
