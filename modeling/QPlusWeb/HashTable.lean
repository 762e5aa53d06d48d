import QPlusWeb.ProbeSequence
import Mathlib.Data.Multiset.Filter

/-!
# The open-addressing hash table

`HashTable` stores values in a table whose size is a power of two and finds
them by double hashing. A removed entry leaves a deleted bucket behind, and a
search passes over it. The traits of a table give the keys of its values, a
hash and an equality of keys, and the two bucket values that are no entries.

The table pointer is null until the first insertion, so `table` is optional; a
position in it is its index, and the end iterator is the table size. The probe
loops are `while (1)` loops and run here on the table size as fuel: `none` is a
loop that does not end. Counters are integers: they and their multiples stay
below `2^31` as long as the table size stays below `2^28`, and the carry of
`i + k` out of 32 bits is cut off by the mask. Statistics, iterator checking
and destructors are left out.
-/
namespace QPlusWeb.WTF
open ProbeSequence

structure HashTraits (Key Value : Type) where
  extract : Value → Key
  hash : Key → UInt32
  equal : Key → Key → Bool
  safeToCompareToEmptyOrDeleted : Bool
  isEmptyValue : Key → Bool
  isDeletedValue : Key → Bool
  emptyValue : Value
  deletedValue : Value
  minimumTableSize : ℕ

structure HashTable (Value : Type) where
  table : Option (List Value)
  tableSize : ℕ
  tableSizeMask : ℕ
  keyCount : ℤ
  deletedCount : ℤ
  deriving DecidableEq, Repr

/-- What a `HashTranslator` sees of a key, and the value it translates it to. -/
structure Translated (Key Value : Type) where
  hash : UInt32
  equal : Key → Bool
  value : Value

def doubleHash (key : UInt32) : UInt32 :=
  let key := ~~~key + (key >>> 23)
  let key := key ^^^ (key <<< 12)
  let key := key ^^^ (key >>> 7)
  let key := key ^^^ (key <<< 2)
  key ^^^ (key >>> 20)

/-- The variables of a probe loop. -/
structure Probe where
  i : ℕ
  k : ℕ
  deletedEntry : Option ℕ
  deriving DecidableEq, Repr

def Probe.start (h : UInt32) (sizeMask : ℕ) : Probe := ⟨h.toNat &&& sizeMask, 0, none⟩

/-- `if (k == 0) k = 1 | doubleHash(h); i = (i + k) & sizeMask;` -/
def Probe.advance (h : UInt32) (sizeMask : ℕ) (s : Probe) : Probe :=
  let k := if s.k = 0 then (1 ||| doubleHash h).toNat else s.k
  ⟨(s.i + k) &&& sizeMask, k, s.deletedEntry⟩

/-- How a probe loop for writing ends: at an entry with the key, or at an empty
bucket with the last deleted bucket it passed. -/
inductive WritingProbe where
  | found (entry : ℕ)
  | vacant (entry : ℕ) (deletedEntry : Option ℕ)
  deriving DecidableEq, Repr

structure AddResult (Value : Type) where
  table : HashTable Value
  entry : Option ℕ
  isNewEntry : Bool
  deriving DecidableEq, Repr

namespace HashTable

def init {Value : Type} : HashTable Value := ⟨none, 0, 0, 0, 0⟩

def maxLoad : ℤ := 2
def minLoad : ℤ := 6

variable {Key Value : Type} (T : HashTraits Key Value) (value : Value)

def isEmptyBucket : Bool := T.isEmptyValue (T.extract value)

def isDeletedBucket : Bool := T.isDeletedValue (T.extract value)

def isEmptyOrDeletedBucket : Bool := isEmptyBucket T value || isDeletedBucket T value

variable (table : List Value)

def bucket (i : ℕ) : Value := table.getD i T.emptyValue

variable (t : HashTable Value)

def shouldExpand : Bool :=
  decide ((t.tableSize : ℤ) ≤ (t.keyCount + t.deletedCount) * maxLoad)

def mustRehashInPlace : Bool :=
  decide (t.keyCount * minLoad < t.tableSize * 2)

def shouldShrink : Bool :=
  decide (t.keyCount * minLoad < t.tableSize ∧ T.minimumTableSize < t.tableSize)

variable (sizeMask : ℕ)

/-- One round of the loop in `lookup`. -/
def lookupStep (h : UInt32) (equal : Key → Bool) (s : Probe) : Probe ⊕ Option ℕ :=
  let entry := bucket T table s.i
  if T.safeToCompareToEmptyOrDeleted then
    if equal (T.extract entry) then .inr (some s.i)
    else if isEmptyBucket T entry then .inr none
    else .inl (s.advance h sizeMask)
  else
    if isEmptyBucket T entry then .inr none
    else if !isDeletedBucket T entry && equal (T.extract entry) then .inr (some s.i)
    else .inl (s.advance h sizeMask)

/-- One round of the loop that `lookupForWriting`, `fullLookupForWriting` and
`add` share. -/
def writingStep (h : UInt32) (equal : Key → Bool) (s : Probe) : Probe ⊕ WritingProbe :=
  let entry := bucket T table s.i
  if T.safeToCompareToEmptyOrDeleted then
    if isEmptyBucket T entry then .inr (.vacant s.i s.deletedEntry)
    else if equal (T.extract entry) then .inr (.found s.i)
    else if isDeletedBucket T entry then
      .inl (Probe.advance h sizeMask { s with deletedEntry := some s.i })
    else .inl (s.advance h sizeMask)
  else
    if isEmptyBucket T entry then .inr (.vacant s.i s.deletedEntry)
    else if isDeletedBucket T entry then
      .inl (Probe.advance h sizeMask { s with deletedEntry := some s.i })
    else if equal (T.extract entry) then .inr (.found s.i)
    else .inl (s.advance h sizeMask)

def probeForWriting (h : UInt32) (equal : Key → Bool) : Option WritingProbe :=
  loop (writingStep T table sizeMask h equal) table.length (Probe.start h sizeMask)

def lookup (key : Key) : Option (Option ℕ) :=
  match t.table with
  | none => some none
  | some table =>
    loop (lookupStep T table t.tableSizeMask (T.hash key) fun k => T.equal k key)
      table.length (Probe.start (T.hash key) t.tableSizeMask)

/-- The position to write to, and whether it holds the key already. -/
def lookupForWriting (key : Key) : Option (ℕ × Bool) :=
  (probeForWriting T table sizeMask (T.hash key) fun k => T.equal k key).map fun
    | .found entry => (entry, true)
    | .vacant entry deletedEntry => (deletedEntry.getD entry, false)

variable (q : Translated Key Value)

def fullLookupForWriting : Option ((ℕ × Bool) × UInt32) :=
  (probeForWriting T table sizeMask q.hash q.equal).map fun
    | .found entry => ((entry, true), q.hash)
    | .vacant entry deletedEntry => ((deletedEntry.getD entry, false), q.hash)

def reinsert (value : Value) : Option (List Value × ℕ) :=
  (lookupForWriting T table sizeMask (T.extract value)).map fun r => (table.set r.1 value, r.1)

/-- The loop of `rehash` over the old buckets, from index `i` on. -/
def rehashLoop (sizeMask : ℕ) (entry : Option ℕ) :
    ℕ → List Value → List Value → Option ℕ → Option (List Value × Option ℕ)
  | _, [], table, newEntry => some (table, newEntry)
  | i, value :: oldTable, table, newEntry =>
    if isEmptyOrDeletedBucket T value then
      rehashLoop sizeMask entry (i + 1) oldTable table newEntry
    else
      (reinsert T table sizeMask value).bind fun r =>
        rehashLoop sizeMask entry (i + 1) oldTable r.1
          (if some i = entry then some r.2 else newEntry)

def allocateTable (size : ℕ) : List Value := List.replicate size T.emptyValue

def rehash (newTableSize : ℕ) (entry : Option ℕ) : Option (HashTable Value × Option ℕ) :=
  (rehashLoop T (newTableSize - 1) entry 0 (t.table.getD []) (allocateTable T newTableSize)
    none).map fun r => (⟨some r.1, newTableSize, newTableSize - 1, t.keyCount, 0⟩, r.2)

def expand (entry : Option ℕ) : Option (HashTable Value × Option ℕ) :=
  let newSize :=
    if t.tableSize = 0 then T.minimumTableSize
    else if mustRehashInPlace t then t.tableSize
    else t.tableSize * 2
  rehash T t newSize entry

/-- `if (!m_table) expand();` -/
def ensureTable : Option (HashTable Value) :=
  match t.table with
  | none => (expand T t none).map Prod.fst
  | some _ => some t

/-- `++m_keyCount; if (shouldExpand()) entry = expand(entry);` after the value
was written. -/
def finishAdd (entry : ℕ) : Option (AddResult Value) :=
  let t := { t with keyCount := t.keyCount + 1 }
  if shouldExpand t then (expand T t (some entry)).map fun r => ⟨r.1, r.2, true⟩
  else some ⟨t, some entry, true⟩

def add : Option (AddResult Value) := do
  let t ← ensureTable T t
  let table ← t.table
  match ← probeForWriting T table t.tableSizeMask q.hash q.equal with
  | .found entry => return ⟨t, some entry, false⟩
  | .vacant _ (some deletedEntry) =>
    let table := (table.set deletedEntry T.emptyValue).set deletedEntry q.value
    finishAdd T { t with table := some table, deletedCount := t.deletedCount - 1 } deletedEntry
  | .vacant entry none =>
    finishAdd T { t with table := some (table.set entry q.value) } entry

def addPassingHashCode : Option (AddResult Value) := do
  let t ← ensureTable T t
  let table ← t.table
  let ((entry, found), _) ← fullLookupForWriting T table t.tableSizeMask q
  if found then return ⟨t, some entry, false⟩
  else if isDeletedBucket T (bucket T table entry) then
    let table := (table.set entry T.emptyValue).set entry q.value
    finishAdd T { t with table := some table, deletedCount := t.deletedCount - 1 } entry
  else finishAdd T { t with table := some (table.set entry q.value) } entry

/-- The iterator's position; the end is the table size. -/
def find (key : Key) : Option ℕ :=
  (lookup T t key).map fun entry => entry.getD t.tableSize

def contains (key : Key) : Option Bool :=
  (lookup T t key).map Option.isSome

def removeEntry (pos : ℕ) : Option (HashTable Value) :=
  let t := { t with
    table := t.table.map fun table => table.set pos T.deletedValue
    deletedCount := t.deletedCount + 1
    keyCount := t.keyCount - 1 }
  if shouldShrink T t then (rehash T t (t.tableSize / 2) none).map Prod.fst else some t

def removeIterator (position : ℕ) : Option (HashTable Value) :=
  if position = t.tableSize then some t else removeEntry T t position

def remove (key : Key) : Option (HashTable Value) :=
  (find T t key).bind fun position => removeIterator T t position

/-- The deleted count is not reset. -/
def clear : HashTable Value :=
  match t.table with
  | none => t
  | some _ => ⟨none, 0, 0, 0, t.deletedCount⟩

def skipEmptyBuckets (table : List Value) : ℕ → ℕ → ℕ
  | 0, position => position
  | fuel + 1, position =>
    if position ≠ table.length ∧ isEmptyOrDeletedBucket T (bucket T table position) then
      skipEmptyBuckets table fuel (position + 1)
    else position

def begin : ℕ :=
  if t.keyCount = 0 then t.tableSize
  else
    match t.table with
    | none => t.tableSize
    | some table => skipEmptyBuckets T table table.length 0

/-- `operator++`. -/
def increment (position : ℕ) : ℕ :=
  skipEmptyBuckets T table table.length (position + 1)

/-- The positions from an iterator up to the end. -/
def positionsFrom (table : List Value) : ℕ → ℕ → List ℕ
  | 0, _ => []
  | fuel + 1, position =>
    if position = table.length then []
    else position :: positionsFrom table fuel (increment T table position)

/-- The values that `for (it = begin(); it != end(); ++it)` comes to. -/
def iterate : List Value :=
  match t.table with
  | none => []
  | some table => (positionsFrom T table table.length (begin T t)).map (bucket T table)

/-- `IdentityHashTranslator`. -/
def identity : Translated Key Value :=
  ⟨T.hash (T.extract value), fun k => T.equal k (T.extract value), value⟩

/-- The copy constructor adds each value to a new table. -/
def copy (other : HashTable Value) : Option (HashTable Value) :=
  (iterate T other).foldlM (fun t value => (add T t (identity T value)).map AddResult.table) init

end HashTable

end QPlusWeb.WTF
