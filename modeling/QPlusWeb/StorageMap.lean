import QPlusWeb.MapUpdates
import Mathlib.Data.List.AList

/-!
# Storage maps

`StorageMap` holds the items of a storage area and keeps their total length below a quota.  A string
may be null, and a map can hold a null value for a key.  Lengths are 32-bit numbers.
-/

namespace QPlusWeb.Storage

open MapUpdates

/-- The characters of a string that is not null. -/
abbrev Text := List UInt16

/-- The length of a string; a null string has none. -/
def textLength : Option Text → ℕ
  | some value => value.length
  | none => 0

/-- `HashMap<String, String>` -/
abbrev Items := AList fun _ : Text => Option Text

/-- The largest 32-bit number stands for the absence of a quota. -/
def noQuota : ℕ := 2 ^ 32 - 1

structure StorageMap where
  items : Items
  quotaSize : ℕ
  currentLength : ℕ

namespace StorageMap

def create (quotaSize : ℕ) : StorageMap := ⟨∅, quotaSize, 0⟩

variable (m : StorageMap)

def length : ℕ := m.items.entries.length

variable (key : Text)

def contains : Bool := (m.items.lookup key).isSome

/-- A key that is not in the map has the null string. -/
def getItem : Option Text := (m.items.lookup key).join

variable (value : Option Text)

/-- The new length and whether a step of its computation has overflowed. -/
def lengthWith : ℕ × Bool :=
  let newLength := m.currentLength
  let overflow := decide ((newLength + textLength value) % 2 ^ 32 < newLength)
  let newLength := (newLength + textLength value) % 2 ^ 32
  let oldValue := m.getItem key
  let overflow := overflow ||
    decide ((newLength + 2 ^ 32 - textLength oldValue) % 2 ^ 32 > newLength)
  let newLength := (newLength + 2 ^ 32 - textLength oldValue) % 2 ^ 32
  let adjustedKeyLength := if oldValue.isNone then key.length else 0
  let overflow := overflow || decide ((newLength + adjustedKeyLength) % 2 ^ 32 < newLength)
  ((newLength + adjustedKeyLength) % 2 ^ 32, overflow)

/-- A quota in bytes is exceeded by the new length in characters of two bytes. -/
def exceedsQuota : Bool :=
  let overflow := (m.lengthWith key value).2
  let overQuota := decide ((m.lengthWith key value).1 > m.quotaSize / 2)
  decide (m.quotaSize ≠ noQuota) && (overflow || overQuota)

/-- The map, the old value and `quotaException`. -/
def setItem : StorageMap × Option Text × Bool :=
  if m.exceedsQuota key value then (m, m.getItem key, true)
  else
    ({ m with
      items := m.items.insert key value
      currentLength := (m.lengthWith key value).1 }, m.getItem key, false)

def setItemIgnoringQuota : StorageMap :=
  let changed := ({ m with quotaSize := noQuota }.setItem key value).1
  { changed with quotaSize := m.quotaSize }

/-- The map and the old value. -/
def removeItem : StorageMap × Option Text :=
  let oldValue := m.getItem key
  let keyLength := if oldValue.isNone then 0 else key.length
  ({ m with
    items := m.items.erase key
    currentLength := (m.currentLength + 2 ^ 33 - keyLength - textLength oldValue) % 2 ^ 32 },
    oldValue)

/-- The body of the loop of `importItems`; `add` does not replace an item. -/
def importItem : StorageMap :=
  { m with
    items := if m.contains key then m.items else m.items.insert key value
    currentLength := (m.currentLength + key.length + textLength value) % 2 ^ 32 }

def importItems (items : Items) : StorageMap :=
  items.entries.foldl (fun m item => m.importItem item.1 item.2) m

/-! ### Contents -/

section
variable {m m' : StorageMap} {key : Text} {value : Option Text} {b : Contents Text Text}

/-- The map holds these values and no null strings. -/
def Holds (m : StorageMap) (b : Contents Text Text) : Prop :=
  ∀ k, m.items.lookup k = (b k).map some

theorem Holds.getItem (h : m.Holds b) (k : Text) : m.getItem k = b k := by
  rw [StorageMap.getItem,h k]
  cases b k <;> rfl

theorem holds_getItem (h : ∀ k, m.items.lookup k ≠ some none) : m.Holds m.getItem := by
  intro k
  have hi := h k
  unfold StorageMap.getItem
  cases hl : m.items.lookup k with
  | none => rfl
  | some value =>
    cases value with
    | none => exact absurd hl hi
    | some value => rfl

theorem holds_create (quotaSize : ℕ) : (create quotaSize).Holds .empty := fun _ => rfl

theorem Holds.of_eq {b' : Contents Text Text} (h : m.Holds b) (heq : ∀ k, b k = b' k) :
    m.Holds b' :=
  fun k => by rw [h k,heq k]

/-- The second map has the value for the key and is the first one elsewhere. -/
structure Puts (m : StorageMap) (key : Text) (value : Option Text) (m' : StorageMap) : Prop where
  self : m'.items.lookup key = value.map some
  other : ∀ k, k ≠ key → m'.items.lookup k = m.items.lookup k

theorem Holds.put (h : m.Holds b) (hp : m.Puts key value m') :
    m'.Holds ((Change.put key value).apply b) := by
  intro k
  by_cases hk : k = key
  · subst hk
    rw [hp.self,Change.put_apply_self]
  · rw [hp.other k hk,Change.put_apply_of_ne _ hk,h k]

theorem puts_of_insert {v : Text} (h : m'.items = m.items.insert key (some v)) :
    m.Puts key (some v) m' where
  self := by
    rw [h,AList.lookup_insert]
    rfl
  other := fun k hk => by rw [h,AList.lookup_insert_ne hk]

theorem items_setItem (h : (m.setItem key value).2.2 = false) :
    (m.setItem key value).1.items = m.items.insert key value := by
  unfold setItem at h ⊢
  split at h
  next => cases h
  next hq => rw [if_neg hq]

theorem oldValue_setItem : (m.setItem key value).2.1 = m.getItem key := by
  unfold setItem
  split <;> rfl

theorem puts_setItemIgnoringQuota (m : StorageMap) (key v : Text) :
    m.Puts key (some v) (m.setItemIgnoringQuota key (some v)) := by
  refine puts_of_insert (items_setItem (m := {m with quotaSize := noQuota}) ?_)
  unfold setItem exceedsQuota
  simp

theorem puts_removeItem (m : StorageMap) (key : Text) : m.Puts key none (m.removeItem key).1 where
  self := AList.lookup_erase ..
  other := fun _ hk => AList.lookup_erase_ne hk

theorem Holds.eq_empty (h : m.Holds b) (hl : m.length = 0) (k : Text) : b k = none := by
  have hn : m.items.lookup k = none := by
    rw [AList.lookup_eq_none,AList.mem_keys,AList.keys,List.eq_nil_of_length_eq_zero hl]
    exact List.not_mem_nil
  rw [h k] at hn
  cases hb : b k with
  | none => rfl
  | some v =>
    rw [hb] at hn
    cases hn

theorem lookup_importItem (m : StorageMap) (key : Text) (value : Option Text) (k : Text) :
    (m.importItem key value).items.lookup k =
      (m.items.lookup k).or (if k = key then some value else none) := by
  unfold importItem contains
  by_cases hk : k = key
  · subst hk
    cases hl : m.items.lookup k with
    | none => simp
    | some v => simp [hl]
  · rw [if_neg hk,Option.or_none]
    split
    · rfl
    · exact AList.lookup_insert_ne hk

theorem lookup_importItems (m : StorageMap) (items : Items) (k : Text) :
    (m.importItems items).items.lookup k = (m.items.lookup k).or (items.lookup k) := by
  unfold importItems AList.lookup
  generalize items.entries = l
  induction l generalizing m with
  | nil => simp
  | cons item l ih =>
    have hi := lookup_importItem m item.1 item.2 k
    unfold AList.lookup at hi
    rw [List.foldl_cons,ih,hi,Option.or_assoc]
    by_cases hk : k = item.1
    · subst hk
      rw [if_pos rfl,List.dlookup_cons_eq]
      rfl
    · rw [if_neg hk,List.dlookup_cons_ne _ _ hk,Option.none_or]

theorem holds_importItems (quotaSize : ℕ) {items : Items}
    (h : ∀ k, items.lookup k = (b k).map some) :
    ((create quotaSize).importItems items).Holds b := by
  intro k
  rw [lookup_importItems,h k]
  rfl

end

end StorageMap

end QPlusWeb.Storage
