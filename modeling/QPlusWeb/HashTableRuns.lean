import QPlusWeb.HashTableOperations
import Mathlib.Logic.Function.Basic

/-!
# Runs over several tables

A run works on any number of tables and copies and swaps them. Beside it runs
the same program on sets of values with different keys. After every run of
admissible operations each table stands for its set: its counters are right,
its searches end and answer for the set, a loop over it comes to each value
once, and an insertion says whether the key was new and points to its entry.
-/
namespace QPlusWeb.WTF
open Option HashTable Function

variable {Key Value : Type} {S : ℕ → Multiset Value} {t : HashTable Value}

namespace HashTable

inductive Op (Key Value : Type) where
  | add (i : ℕ) (q : Translated Key Value)
  | addPassingHashCode (i : ℕ) (q : Translated Key Value)
  | remove (i : ℕ) (key : Key)
  | clear (i : ℕ)
  | copy (i j : ℕ)
  | swap (i j : ℕ)

variable (T : HashTraits Key Value)

/-- Translators agree with the traits, and keys are proper keys. -/
def Op.Admissible : Op Key Value → Prop
  | .add _ q => T.Asks q.hash q.equal (T.extract q.value)
  | .addPassingHashCode _ q => T.Asks q.hash q.equal (T.extract q.value)
  | .remove _ key => T.IsKey key
  | _ => True

abbrev Pool (Value : Type) := ℕ → HashTable Value

/-- Copying is assignment: a new table is made from `j` and swapped into `i`. -/
def Pool.step (s : Pool Value) : Op Key Value → Option (Pool Value)
  | .add i q => (add T (s i) q).map fun r => update s i r.table
  | .addPassingHashCode i q =>
    (addPassingHashCode T (s i) q).map fun r => update s i r.table
  | .remove i key => (remove T (s i) key).map fun t => update s i t
  | .clear i => some (update s i (clear (s i)))
  | .copy i j => (copy T (s j)).map fun t => update s i t
  | .swap i j => some (update (update s i (s j)) j (s i))

def Pool.run (T : HashTraits Key Value) : Pool Value → List (Op Key Value) → Option (Pool Value)
  | s, [] => some s
  | s, op :: ops => (s.step T op).bind fun s' => Pool.run T s' ops

/-- The same step on sets. -/
noncomputable def stepSets (S : ℕ → Multiset Value) : Op Key Value → ℕ → Multiset Value
  | .add i q => update S i (insertValue T (S i) q.value)
  | .addPassingHashCode i q => update S i (insertValue T (S i) q.value)
  | .remove i key => update S i (eraseKey T (S i) key)
  | .clear i => update S i 0
  | .copy i j => update S i (S j)
  | .swap i j => update (update S i (S j)) j (S i)

noncomputable def runSets (T : HashTraits Key Value) :
    (ℕ → Multiset Value) → List (Op Key Value) → ℕ → Multiset Value
  | S, [] => S
  | S, op :: ops => runSets T (stepSets T S op) ops

/-- The table is in order and stands for the set. -/
structure Represents (T : HashTraits Key Value) (t : HashTable Value) (S : Multiset Value) :
    Prop where
  inv : Inv T t
  values_eq : values T t = S

theorem Represents.update {T : HashTraits Key Value} {s : Pool Value}
    (h : ∀ i, Represents T (s i) (S i)) {i : ℕ} {V : Multiset Value}
    (ht : Represents T t V) (k : ℕ) :
    Represents T (update s i t k) (update S i V k) := by
  by_cases hk : k = i
  · subst hk
    simpa using ht
  · simpa [update_of_ne hk] using h k

variable {T : HashTraits Key Value}

/-- Every operation ends and follows the operation on sets. -/
theorem step_represents (hT : T.Lawful) {s : Pool Value}
    (h : ∀ i, Represents T (s i) (S i)) {op : Op Key Value} (hop : op.Admissible T) :
    ∃ s', s.step T op = some s' ∧ ∀ i, Represents T (s' i) (stepSets T S op i) := by
  cases op with
  | add i q =>
    obtain ⟨r,hr,hs⟩ := (h i).inv.add_spec hT hop
    refine ⟨update s i r.table,by simp [Pool.step,hr],?_⟩
    exact Represents.update h ⟨hs.inv,by rw [hs.values_eq,(h i).values_eq]⟩
  | addPassingHashCode i q =>
    obtain ⟨r,hr,hs⟩ := (h i).inv.addPassingHashCode_spec hT hop
    refine ⟨update s i r.table,by simp [Pool.step,hr],?_⟩
    exact Represents.update h ⟨hs.inv,by rw [hs.values_eq,(h i).values_eq]⟩
  | remove i key =>
    obtain ⟨t,ht,hi,hv⟩ := (h i).inv.remove_spec hT hop
    refine ⟨update s i t,by simp [Pool.step,ht],?_⟩
    exact Represents.update h ⟨hi,by rw [hv,(h i).values_eq]⟩
  | clear i => exact ⟨_,rfl,Represents.update h ⟨(h i).inv.clear_spec.1,(h i).inv.clear_spec.2⟩⟩
  | copy i j =>
    obtain ⟨t,ht,hi,hv⟩ := (h j).inv.copy_spec hT
    refine ⟨update s i t,by simp [Pool.step,ht],?_⟩
    exact Represents.update h ⟨hi,by rw [hv,(h j).values_eq]⟩
  | swap i j => exact ⟨_,rfl,Represents.update (Represents.update h (h j)) (h i)⟩

theorem run_represents (hT : T.Lawful) (ops : List (Op Key Value)) {s : Pool Value}
    (h : ∀ i, Represents T (s i) (S i))
    (hops : ∀ op ∈ ops, op.Admissible T) :
    ∃ s', Pool.run T s ops = some s' ∧ ∀ i, Represents T (s' i) (runSets T S ops i) := by
  induction ops generalizing s S with
  | nil => exact ⟨s,rfl,h⟩
  | cons op ops ih =>
    obtain ⟨s',hs',h'⟩ := step_represents hT h (hops op (by simp))
    obtain ⟨s'',hs'',h''⟩ := ih h' (fun o ho => hops o (by simp [ho]))
    refine ⟨s'',?_,h''⟩
    simp only [Pool.run,hs',bind_some]
    exact hs''

/-- All that a user of a table that stands for `S` can observe. -/
structure Refines (T : HashTraits Key Value) (t : HashTable Value) (S : Multiset Value) :
    Prop where
  keyCount_eq : t.keyCount = Multiset.card S
  deletedCount_eq : ∀ table, t.table = some table → t.deletedCount = tombstones T table
  load : t.table ≠ none → (t.keyCount + t.deletedCount) * 2 < t.tableSize
  tableSize_eq : t.table = none → t.tableSize = 0
  iterate_eq : (iterate T t : Multiset Value) = S
  keys_differ : (iterate T t).Pairwise fun a b => ¬ T.equal (T.extract a) (T.extract b) = true
  lookup : ∀ key, T.IsKey key → ∃ r, lookup T t key = some r ∧
    (r.isSome = true ↔ Present T S key) ∧ ∀ p, r = some p → PointsTo T t (some p) key
  contains : ∀ key, T.IsKey key → ∃ b, contains T t key = some b ∧ (b = true ↔ Present T S key)
  find : ∀ key, T.IsKey key → ∃ p, find T t key = some p ∧
    (¬ Present T S key → p = t.tableSize) ∧ (Present T S key → PointsTo T t (some p) key)
  lookupForWriting : ∀ table, t.table = some table → ∀ key, T.IsKey key →
    ∃ p found, lookupForWriting T table t.tableSizeMask key = some (p, found) ∧
      (found = true ↔ Present T S key)
  fullLookupForWriting : ∀ table, t.table = some table → ∀ q : Translated Key Value,
    T.Asks q.hash q.equal (T.extract q.value) →
      ∃ p found, fullLookupForWriting T table t.tableSizeMask q = some ((p, found), q.hash) ∧
        (found = true ↔ Present T S (T.extract q.value))
  add : ∀ q : Translated Key Value, T.Asks q.hash q.equal (T.extract q.value) →
    ∃ r, add T t q = some r ∧ (r.isNewEntry = true ↔ ¬ Present T S (T.extract q.value)) ∧
      PointsTo T r.table r.entry (T.extract q.value)
  addPassingHashCode : ∀ q : Translated Key Value, T.Asks q.hash q.equal (T.extract q.value) →
    ∃ r, addPassingHashCode T t q = some r ∧
      (r.isNewEntry = true ↔ ¬ Present T S (T.extract q.value)) ∧
      PointsTo T r.table r.entry (T.extract q.value)
  counters_fit : t.table ≠ none → t.tableSize < 2 ^ 28 → 0 ≤ t.keyCount ∧ 0 ≤ t.deletedCount ∧
    t.keyCount * 6 < 2 ^ 31 ∧ (t.keyCount + t.deletedCount) * 2 < 2 ^ 31

theorem writing_found {table : List Value} {m : ℕ} {h : UInt32} {key : Key}
    {w : WritingProbe} (hs : WritingSpec T table m h key w) :
    (∃ p, w = .found p ∧ Present T (contents T table) key) ∨
      ∃ p d, w = .vacant p d ∧ ¬Present T (contents T table) key := by
  cases hs with
  | found hp => exact Or.inl ⟨_,rfl,present_iff.mpr ⟨_,hp⟩⟩
  | empty ha _ _ | deleted ha _ _ => exact Or.inr ⟨_,_,rfl,fun h => (present_iff.mp h).elim ha⟩

theorem Represents.refines (hT : T.Lawful) {S : Multiset Value}
    (h : Represents T t S) : Refines T t S := by
  obtain ⟨hi,rfl⟩ := h
  have hprobe : ∀ table, t.table = some table → ∀ (hash : UInt32) (equal : Key → Bool) (key : Key),
      T.Asks hash equal key → ∃ w, probeForWriting T table t.tableSizeMask hash equal = some w ∧
        ((∃ p, w = .found p ∧ Present T (values T t) key) ∨
          ∃ p d, w = .vacant p d ∧ ¬Present T (values T t) key) := by
    intro table ht hash equal key hq
    obtain ⟨m,hl⟩ := hi.loaded ht
    obtain ⟨w,hw,hs⟩ := hl.sound.probeForWriting_spec hT hl.hasEmpty hq
    rw [hl.tableSizeMask_eq,hl.values_eq]
    exact ⟨w,hw,writing_found hs⟩
  constructor
  · rcases hi with hun | ⟨table,m,hl⟩
    · rw [hun.keyCount_eq,hun.values_eq]
      rfl
    · rw [hl.keyCount_eq,hl.values_eq]
  · intro table ht
    obtain ⟨m,hl⟩ := hi.loaded ht
    exact hl.deletedCount_eq
  · intro ht
    rcases hi with hun | ⟨table,m,hl⟩
    · exact absurd hun.table_eq ht
    · exact hl.load
  · intro ht
    rcases hi with hun | ⟨table,m,hl⟩
    · exact hun.tableSize_eq
    · rw [hl.table_eq] at ht
      cases ht
  · exact hi.iterate_spec
  · exact hi.pairwise_iterate.1
  · intro key hk
    exact hi.lookup_spec hT hk
  · intro key hk
    obtain ⟨r,hr,hpres,-⟩ := hi.lookup_spec hT hk
    exact ⟨r.isSome,by simp [contains,hr],hpres⟩
  · intro key hk
    obtain ⟨r,hr,hpres,hpts⟩ := hi.lookup_spec hT hk
    refine ⟨r.getD t.tableSize,by simp [find,hr],?_,?_⟩
    · intro ha
      cases r with
      | none => rfl
      | some p => exact absurd (hpres.mp rfl) ha
    · intro hp
      cases r with
      | none => exact absurd (hpres.mpr hp) (by simp)
      | some p => exact hpts p rfl
  · intro table ht key hk
    obtain ⟨w,hw,hc⟩ := hprobe table ht _ _ key (hT.asks hk)
    simp only [lookupForWriting,hw,map_some]
    rcases hc with ⟨p,rfl,hp⟩ | ⟨p,d,rfl,hp⟩
    · exact ⟨p,true,rfl,by simp [hp]⟩
    · exact ⟨d.getD p,false,rfl,by simp [hp]⟩
  · intro table ht q hq
    obtain ⟨w,hw,hc⟩ := hprobe table ht _ _ _ hq
    simp only [fullLookupForWriting,hw,map_some]
    rcases hc with ⟨p,rfl,hp⟩ | ⟨p,d,rfl,hp⟩
    · exact ⟨p,true,rfl,by simp [hp]⟩
    · exact ⟨d.getD p,false,rfl,by simp [hp]⟩
  · intro q hq
    obtain ⟨r,hr,hs⟩ := hi.add_spec hT hq
    exact ⟨r,hr,hs.isNewEntry_iff,hs.pointsTo⟩
  · intro q hq
    obtain ⟨r,hr,hs⟩ := hi.addPassingHashCode_spec hT hq
    exact ⟨r,hr,hs.isNewEntry_iff,hs.pointsTo⟩
  · intro ht hsize
    rcases hi with hun | ⟨table,m,hl⟩
    · exact absurd hun.table_eq ht
    · have hload := hl.load
      have hkeys := hl.keyCount_eq
      have hd := hl.deletedCount_eq
      omega

/-- After every run of admissible operations every table refines its set. -/
theorem run_refines (hT : T.Lawful) (ops : List (Op Key Value))
    (hops : ∀ op ∈ ops, op.Admissible T) :
    ∃ s, Pool.run T (fun _ => init) ops = some s ∧
      ∀ i, Refines T (s i) (runSets T (fun _ => 0) ops i) := by
  have hi : ∀ _ : ℕ, Represents T (init : HashTable Value) 0 := fun _ =>
    ⟨init_inv,by simp [values,init,contents,entries]⟩
  obtain ⟨s,hs,h⟩ := run_represents hT ops hi hops
  exact ⟨s,hs,fun i => (h i).refines hT⟩

/-- Numbers from two on, with zero for empty and one for deleted buckets. -/
def natTraits : HashTraits ℕ ℕ where
  extract n := n
  hash n := UInt32.ofNat n
  equal a b := decide (a = b)
  safeToCompareToEmptyOrDeleted := true
  isEmptyValue n := decide (n = 0)
  isDeletedValue n := decide (n = 1)
  emptyValue := 0
  deletedValue := 1
  minimumTableSize := 8

theorem natTraits_lawful : natTraits.Lawful := by
  constructor
  · intro a _
    simp [natTraits]
  · intro a b _ _ h
    simpa [natTraits,eq_comm] using h
  · intro a b c _ _ _ h h'
    simp only [natTraits,decide_eq_true_eq] at h h' ⊢
    rw [h,h']
  · intro a b _ _ h
    simp only [natTraits,decide_eq_true_eq] at h ⊢
    rw [h]
  · intro _ a b ha hb
    simp only [natTraits,decide_eq_false_iff_not]
    intro h
    rw [h] at ha
    exact ha hb
  · rfl
  · rfl
  · intro a h
    simp_all [natTraits]
  · exact ⟨3,le_rfl,rfl⟩

/-- One value comes, is copied, and goes. -/
def natRun : List (Op ℕ ℕ) :=
  [.add 0 (identity natTraits 5), .copy 1 0, .addPassingHashCode 1 (identity natTraits 13),
    .remove 0 5, .swap 0 1, .clear 1]

theorem run_refines_natRun :
    ∃ s, Pool.run natTraits (fun _ => init) natRun = some s ∧
      ∀ i, Refines natTraits (s i) (runSets natTraits (fun _ => 0) natRun i) := by
  have hk : ∀ n, 2 ≤ n → natTraits.IsKey n := by
    intro n hn
    simp only [HashTraits.IsKey,natTraits,decide_eq_false_iff_not]
    omega
  apply run_refines natTraits_lawful
  intro op hop
  simp only [natRun,List.mem_cons,List.not_mem_nil,or_false] at hop
  rcases hop with rfl | rfl | rfl | rfl | rfl | rfl
  · exact natTraits_lawful.asks (hk 5 (by omega))
  · trivial
  · exact natTraits_lawful.asks (hk 13 (by omega))
  · exact hk 5 (by omega)
  · trivial
  · trivial

/-- Clearing a table with a deleted bucket leaves its count behind, above a
table size of zero. -/
theorem load_bound_fails_after_clear :
    ∃ s, Pool.run natTraits (fun _ => init)
        [.add 0 (identity natTraits 5), .remove 0 5, .clear 0] = some s ∧
      (s 0).tableSize = 0 ∧ (s 0).keyCount = 0 ∧ (s 0).deletedCount = 1 ∧
      ¬ ((s 0).keyCount + (s 0).deletedCount) * 2 < (s 0).tableSize := by
  refine ⟨_,rfl,?_⟩
  decide

end HashTable

end QPlusWeb.WTF
