import QPlusWeb.BitSmearing
import QPlusWeb.HashTableProbing

/-!
# The property table of a structure

`PropertyTable` is an array of entries in the order they were added, and an index of 1-based positions
into that array.  The index is an open-addressing table in which 0 is an empty slot.  Both lie in one
zeroed allocation; an access outside of it is `none` here, as is a probe loop that does not end or a
`RELEASE_ASSERT` that fails.
-/

namespace QPlusWeb.JSC

open ProbeSequence BitSmearing WTF

/-- An index into the storage of an object. -/
abbrev PropertyOffset := ℤ

def nextPowerOf2 (v : UInt32) : UInt32 :=
  let v := v - 1
  let v := v ||| v >>> 1
  let v := v ||| v >>> 2
  let v := v ||| v >>> 4
  let v := v ||| v >>> 8
  let v := v ||| v >>> 16
  v + 1

structure PropertyMapEntry (κ ν : Type) where
  key : κ
  offset : PropertyOffset
  attributes : UInt32
  specificValue : Option ν
  deriving DecidableEq

/-- What the key of a slot of the array says about it: it is null in the zeroed memory, and
`PROPERTY_MAP_DELETED_ENTRY_KEY` once the entry has been removed. -/
inductive Slot (κ ν : Type) where
  | unused
  | deleted
  | entry (e : PropertyMapEntry κ ν)

variable {κ ν : Type}

namespace Slot

def entry? : Slot κ ν → Option (PropertyMapEntry κ ν)
  | .entry e => some e
  | _ => none

/-- Whether the slot has been given to an entry. -/
def isUsed : Slot κ ν → Bool
  | .unused => false
  | _ => true

def hasKey [DecidableEq κ] (key : κ) : Slot κ ν → Bool
  | .entry e => e.key = key
  | _ => false

end Slot

/-- The memory at `m_index` is the index and, after it, the array of entries. -/
structure PropertyTable (κ ν : Type) where
  indexSize : UInt32
  indexMask : UInt32
  index : List UInt32
  table : List (Slot κ ν)
  keyCount : UInt32
  deletedCount : UInt32
  deletedOffsets : Option (List PropertyOffset)

/-- The position of the entry, null if there is none, and the slot of the index. -/
structure FindIterator where
  first : Option ℕ
  second : ℕ
  deriving DecidableEq

inductive EffectOnPropertyOffset where
  | mayChange
  | mustNotChange
  deriving DecidableEq

/-- What `add` returns, and the offset it was given a reference to. -/
structure AddResult (κ ν : Type) where
  table : PropertyTable κ ν
  iter : FindIterator
  isNew : Bool
  offset : PropertyOffset

/-- The variables of the probe loop. -/
structure FindVariables where
  hash : UInt32
  step : UInt32

/-- `if (!step) step = doubleHash(existingHash) | 1; hash += step;` -/
def FindVariables.advance (hash : UInt32) (v : FindVariables) : FindVariables :=
  let step := if v.step = 0 then doubleHash hash ||| 1 else v.step
  ⟨v.hash + step, step⟩

namespace PropertyTable

def minimumTableSize : UInt32 := 8

def emptyEntryIndex : UInt32 := 0

def sizeForCapacity (capacity : UInt32) : UInt32 :=
  if capacity < minimumTableSize / 2 then minimumTableSize else nextPowerOf2 (capacity + 1) * 2

variable (t : PropertyTable κ ν)

def tableCapacity : UInt32 := t.indexSize >>> 1

/-- The number of the guard after the array. -/
def deletedEntryIndex : UInt32 := t.tableCapacity + 1

def usedCount : UInt32 := t.keyCount + t.deletedCount

def canInsert : Bool := t.usedCount < t.tableCapacity

def size : UInt32 := t.keyCount

/-- A table in new zeroed memory. -/
def allocate (indexSize : UInt32) (deletedOffsets : Option (List PropertyOffset)) :
    PropertyTable κ ν where
  indexSize := indexSize
  indexMask := indexSize - 1
  index := List.replicate indexSize.toNat emptyEntryIndex
  table := List.replicate ((indexSize >>> 1).toNat + 1) .unused
  keyCount := 0
  deletedCount := 0
  deletedOffsets := deletedOffsets

def create (initialCapacity : UInt32) : PropertyTable κ ν :=
  allocate (sizeForCapacity initialCapacity) none

/-! ### Iteration in the order of insertion -/

/-- `skipDeletedEntries`, from the position `pos` of what remains of the array. -/
def skipDeletedEntries : List (Slot κ ν) → ℕ → Option ℕ
  | [], _ => none
  | .deleted :: rest, pos => skipDeletedEntries rest (pos + 1)
  | _ :: _, pos => some pos

def begin : Option ℕ := skipDeletedEntries t.table 0

/-- `operator++` of an iterator. -/
def next (pos : ℕ) : Option ℕ :=
  skipDeletedEntries (t.table.drop (pos + 1)) (pos + 1)

/-- The entries that a loop up to `end()` comes to.  Every user of the iterator reads the key, so it
cannot go on at a slot without one. -/
def iterateFrom (t : PropertyTable κ ν) : ℕ → ℕ → Option (List (PropertyMapEntry κ ν))
  | 0, _ => none
  | fuel + 1, pos =>
    if pos = t.usedCount.toNat then some []
    else
      match t.table[pos]? with
      | some (.entry e) => do
        let pos' ← t.next pos
        let rest ← iterateFrom t fuel pos'
        return e :: rest
      | _ => none

/-- A loop over the whole table. -/
def iterate : Option (List (PropertyMapEntry κ ν)) := do
  let pos ← t.begin
  t.iterateFrom (t.table.length + 1) pos

/-! ### Finding and changing -/

section
variable [DecidableEq κ] (existingHash : κ → UInt32) (t : PropertyTable κ ν)

/-- One round of the probe loop. -/
def findStep (key : κ) (v : FindVariables) : FindVariables ⊕ Option FindIterator :=
  let i := (v.hash &&& t.indexMask).toNat
  match t.index[i]? with
  | none => .inr none
  | some entryIndex =>
    if entryIndex = emptyEntryIndex then .inr (some ⟨none, i⟩)
    else
      match t.table[(entryIndex - 1).toNat]? with
      | none => .inr none
      | some slot =>
        if slot.hasKey key then .inr (some ⟨some (entryIndex - 1).toNat, i⟩)
        else .inl (v.advance (existingHash key))

def find (key : κ) : Option FindIterator :=
  (loop (t.findStep existingHash key) t.index.length ⟨existingHash key, 0⟩).join

/-- Puts an entry after the last one and lets the slot of the index refer to it. -/
def insertAt (slot : ℕ) (entry : PropertyMapEntry κ ν) : Option (PropertyTable κ ν) :=
  let entryIndex := t.usedCount + 1
  if slot < t.index.length ∧ (entryIndex - 1).toNat < t.table.length then
    some
      { t with
        index := t.index.set slot entryIndex
        table := t.table.set (entryIndex - 1).toNat (.entry entry)
        keyCount := t.keyCount + 1 }
  else none

def reinsert (entry : PropertyMapEntry κ ν) : Option (PropertyTable κ ν) := do
  let iter ← t.find existingHash entry.key
  t.insertAt iter.second entry

def rehash (newCapacity : UInt32) : Option (PropertyTable κ ν) := do
  let entries ← t.iterate
  entries.foldlM (reinsert existingHash) (allocate (sizeForCapacity newCapacity) t.deletedOffsets)

/-- The table and the slot of the index that an entry with a new key goes to. -/
def ensureCapacity (iter : FindIterator) (key : κ) : Option (PropertyTable κ ν × FindIterator) :=
  if t.canInsert then some (t, iter)
  else do
    let t ← t.rehash existingHash (t.keyCount + 1)
    let iter ← t.find existingHash key
    return (t, iter)

def add (entry : PropertyMapEntry κ ν) (offset : PropertyOffset)
    (offsetEffect : EffectOnPropertyOffset) : Option (AddResult κ ν) := do
  let iter ← t.find existingHash entry.key
  match iter.first with
  | some pos =>
    let slot ← t.table[pos]?
    let old ← slot.entry?
    if old.offset ≤ offset then return ⟨t, iter, false, offset⟩ else none
  | none =>
    let (t, iter) ← t.ensureCapacity existingHash iter entry.key
    let iter := { iter with first := some (t.usedCount + 1 - 1).toNat }
    let t ← t.insertAt iter.second entry
    match offsetEffect with
    | .mayChange => return ⟨t, iter, true, max offset entry.offset⟩
    | .mustNotChange =>
      if entry.offset ≤ offset then return ⟨t, iter, true, offset⟩ else none

/-- Replaces the entry by the sentinel, in the array and in the index. -/
def markDeleted (pos slot : ℕ) : PropertyTable κ ν :=
  { t with
    index := t.index.set slot t.deletedEntryIndex
    table := t.table.set pos .deleted
    keyCount := t.keyCount - 1
    deletedCount := t.deletedCount + 1 }

def removeAt (iter : FindIterator) : Option (PropertyTable κ ν) :=
  match iter.first with
  | none => some t
  | some pos =>
    let t := t.markDeleted pos iter.second
    if t.indexSize ≤ t.deletedCount * 4 then t.rehash existingHash t.keyCount else some t

def remove (key : κ) : Option (PropertyTable κ ν) := do
  let iter ← t.find existingHash key
  t.removeAt existingHash iter

/-- `clone(other)` copies the memory and then takes a reference to every key. -/
def clone (other : PropertyTable κ ν) : Option (PropertyTable κ ν) := do
  let _ ← other.iterate
  return other

/-- `clone(initialCapacity, other)` inserts the entries again. -/
def cloneWithCapacity (initialCapacity : UInt32) (other : PropertyTable κ ν) :
    Option (PropertyTable κ ν) := do
  let entries ← other.iterate
  let t ← entries.foldlM (reinsert existingHash) (create initialCapacity)
  return { t with deletedOffsets := other.deletedOffsets }

def copy (newCapacity : UInt32) : Option (PropertyTable κ ν) :=
  if sizeForCapacity newCapacity = t.indexSize then t.clone
  else t.cloneWithCapacity existingHash newCapacity

end

end PropertyTable

end QPlusWeb.JSC
