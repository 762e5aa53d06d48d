import QPlusWeb.Runs
import QPlusWeb.StorageMap

/-!
# The database of a local storage area

`LocalStorageDatabase` collects the changes of an area and writes them with a delay, at most a
hundred at a time.  Between two such updates the contents of the area are those of the table, or
none if it is to be cleared, overlaid with the collected changes.  The statements of the database
are assumed to succeed.
-/

namespace QPlusWeb.Storage

open MapUpdates Runs

/-- The rows of `ItemTable`. -/
abbrev Rows := AList fun _ : Text => Text

def maximumItemsToUpdate : ℕ := 100

/-- The order in which a hash table gives its items, which may be any. -/
structure HashOrder where
  order : Items → List (Σ _ : Text, Option Text)
  order_perm : ∀ items, (order items).Perm items.entries

inductive DatabaseOpeningStrategy where
  | createIfNonExistent
  | skipIfNonExistent
  deriving DecidableEq

/-- `file` has the rows of the table, if the file exists; `tasks` is the number of delayed calls of
`updateDatabase` that have not been made yet. -/
structure LocalStorageDatabase where
  file : Option Rows
  isOpen : Bool
  didImportItems : Bool
  isClosed : Bool
  changedItems : Items
  shouldClearItems : Bool
  didScheduleDatabaseUpdate : Bool
  tasks : ℕ
  deleted : Bool

namespace LocalStorageDatabase

def create (file : Option Rows) : LocalStorageDatabase :=
  ⟨file, false, false, false, ∅, false, false, 0, false⟩

variable (d : LocalStorageDatabase)

/-- A file that does not exist has no rows. -/
def rows : Rows := d.file.getD ∅

def openDatabase (openingStrategy : DatabaseOpeningStrategy) : LocalStorageDatabase :=
  if d.file.isNone ∧ openingStrategy = .skipIfNonExistent then d
  else { d with isOpen := true, file := some d.rows }

/-- An empty blob is read as a null string. -/
def getColumnBlobAsString (value : Text) : Option Text :=
  if value = [] then none else some value

def importItems (storageMap : StorageMap) : LocalStorageDatabase × StorageMap :=
  if d.didImportItems then (d, storageMap)
  else
    let d := { d with didImportItems := true }.openDatabase .skipIfNonExistent
    if d.isOpen then
      let items : Items := d.rows.entries.foldl
        (fun items row => items.insert row.1 (getColumnBlobAsString row.2)) ∅
      (d, storageMap.importItems items)
    else (d, storageMap)

def scheduleDatabaseUpdate : LocalStorageDatabase :=
  if d.didScheduleDatabaseUpdate then d
  else { d with didScheduleDatabaseUpdate := true, tasks := d.tasks + 1 }

def itemDidChange (key : Text) (value : Option Text) : LocalStorageDatabase :=
  { d with changedItems := d.changedItems.insert key value }.scheduleDatabaseUpdate

def setItem (key : Text) (value : Option Text) : LocalStorageDatabase :=
  d.itemDidChange key value

def removeItem (key : Text) : LocalStorageDatabase :=
  d.itemDidChange key none

def clear : LocalStorageDatabase :=
  { d with changedItems := ∅, shouldClearItems := true }.scheduleDatabaseUpdate

/-- A null value means that the row should be deleted. -/
def writeItem (rows : Rows) (item : Σ _ : Text, Option Text) : Rows :=
  match item.2 with
  | none => rows.erase item.1
  | some value => rows.insert item.1 value

variable (hashOrder : HashOrder)

def updateDatabaseWithChangedItems (changedItems : Items) : LocalStorageDatabase :=
  let d := if d.isOpen then d else d.openDatabase .createIfNonExistent
  if d.isOpen then
    let rows := if d.shouldClearItems then ∅ else d.rows
    { d with
      shouldClearItems := false
      file := some ((hashOrder.order changedItems).foldl writeItem rows) }
  else d

/-- The loop of `updateDatabase`: the items that remain and the items that are taken. -/
def takeItems (hashOrder : HashOrder) : ℕ → Items → Items → Items × Items
  | 0, items, taken => (items, taken)
  | n + 1, items, taken =>
    match hashOrder.order items with
    | [] => (items, taken)
    | item :: _ =>
      takeItems hashOrder n (items.erase item.1)
        (if item.1 ∈ taken then taken else taken.insert item.1 item.2)

def updateDatabase : LocalStorageDatabase :=
  if d.isClosed then d
  else
    let d := { d with didScheduleDatabaseUpdate := false }
    if d.changedItems.entries.length ≤ maximumItemsToUpdate then
      { d with changedItems := ∅ }.updateDatabaseWithChangedItems hashOrder d.changedItems
    else
      let split := takeItems hashOrder maximumItemsToUpdate d.changedItems ∅
      -- the remaining items are left to another update
      let d := { d with changedItems := split.1 }.scheduleDatabaseUpdate
      d.updateDatabaseWithChangedItems hashOrder split.2

def databaseIsEmpty : Bool :=
  d.isOpen && d.rows.entries.isEmpty

/-- The first part of `close`, which writes all that is left. -/
def flush : LocalStorageDatabase :=
  if d.didScheduleDatabaseUpdate then
    { d.updateDatabaseWithChangedItems hashOrder d.changedItems with changedItems := ∅ }
  else d

def close : LocalStorageDatabase :=
  let d := { d with isClosed := true }.flush hashOrder
  let isEmpty := d.databaseIsEmpty
  let d := { d with isOpen := false }
  if isEmpty then { d with file := none, deleted := true } else d

/-- The calls of the area, and a delayed call of `updateDatabase`. -/
inductive Action where
  | importItems (storageMap : StorageMap)
  | setItem (key : Text) (value : Option Text)
  | removeItem (key : Text)
  | clear
  | updateDatabase (hashOrder : HashOrder)
  | close (hashOrder : HashOrder)

def step : Action → Option LocalStorageDatabase
  | .importItems storageMap => some (d.importItems storageMap).1
  | .setItem key value => some (d.setItem key value)
  | .removeItem key => some (d.removeItem key)
  | .clear => some d.clear
  | .updateDatabase hashOrder =>
    if d.tasks = 0 then none
    else some ({ d with tasks := d.tasks - 1 }.updateDatabase hashOrder)
  | .close hashOrder => some (d.close hashOrder)

/-- An area makes no calls after it has closed its database. -/
def CallsBeforeClose : Action → Prop
  | .updateDatabase _ => True
  | _ => d.isClosed = false

instance (d : LocalStorageDatabase) (a : Action) : Decidable (d.CallsBeforeClose a) :=
  match a with
  | .updateDatabase _ => .isTrue trivial
  | .importItems _ | .setItem _ _ | .removeItem _ | .clear | .close _ =>
    inferInstanceAs (Decidable (d.isClosed = false))

/-! ### Contents -/

def rowContents (rows : Rows) : Contents Text Text := fun k => rows.lookup k

def changedContents (items : Items) : Contents Text (Option Text) := fun k => items.lookup k

/-- The contents of the table after it has been cleared, if it is to be. -/
def stored : Contents Text Text :=
  if d.shouldClearItems then .empty else rowContents d.rows

/-- The contents of the area as the table and the collected changes give them. -/
def contents : Contents Text Text :=
  d.stored.overlay (changedContents d.changedItems)

/-- Something has not been written yet. -/
def Pending : Prop :=
  d.changedItems ≠ ∅ ∨ d.shouldClearItems = true

section Lemmas
variable {d d' : LocalStorageDatabase} {hashOrder : HashOrder} {items taken : Items}
  {whole : Contents Text (Option Text)} (changedItems : Items) (rows : Rows)

theorem contents_of_not_pending (h : ¬d.Pending) : d.contents = rowContents d.rows := by
  obtain ⟨hi,hc⟩ := not_or.mp h
  rw [contents,not_not.mp hi,stored,if_neg hc]
  rfl

theorem contents_insert (key : Text) (value : Option Text) :
    {d with changedItems := d.changedItems.insert key value}.contents =
      (Change.put key value).apply d.contents := by
  funext k
  by_cases hk : k = key
  · subst hk
    rw [Change.put_apply_self]
    exact overlay_of_some (AList.lookup_insert _)
  · rw [Change.put_apply_of_ne _ hk]
    unfold contents Contents.overlay changedContents
    rw [AList.lookup_insert_ne hk]
    rfl

@[simp] theorem stored_scheduleDatabaseUpdate : d.scheduleDatabaseUpdate.stored = d.stored := by
  unfold scheduleDatabaseUpdate
  split <;> rfl

@[simp] theorem changedItems_scheduleDatabaseUpdate :
    d.scheduleDatabaseUpdate.changedItems = d.changedItems := by
  unfold scheduleDatabaseUpdate
  split <;> rfl

theorem contents_scheduleDatabaseUpdate : d.scheduleDatabaseUpdate.contents = d.contents := by
  rw [contents,stored_scheduleDatabaseUpdate,changedItems_scheduleDatabaseUpdate]
  rfl

theorem contents_itemDidChange (key : Text) (value : Option Text) :
    (d.itemDidChange key value).contents = (Change.put key value).apply d.contents := by
  rw [itemDidChange,contents_scheduleDatabaseUpdate,contents_insert]

theorem contents_clear : d.clear.contents = .empty := by
  rw [clear,contents_scheduleDatabaseUpdate]
  rfl

theorem contents_openDatabase (openingStrategy : DatabaseOpeningStrategy) :
    (d.openDatabase openingStrategy).contents = d.contents := by
  unfold openDatabase
  split <;> rfl

/-! ### Writing to the table -/

theorem rowContents_writeItem (item : Σ _ : Text,Option Text) :
    rowContents (writeItem rows item) = (Change.put item.1 item.2).apply (rowContents rows) := by
  obtain ⟨key,value⟩ := item
  funext k
  by_cases hk : k = key
  · subst hk
    rw [Change.put_apply_self]
    cases value with
    | none => exact AList.lookup_erase _ _
    | some value => exact AList.lookup_insert _
  · rw [Change.put_apply_of_ne _ hk]
    cases value with
    | none => exact AList.lookup_erase_ne hk
    | some value => exact AList.lookup_insert_ne hk

theorem rowContents_foldl_writeItem (l : List (Σ _ : Text,Option Text)) :
    rowContents (l.foldl writeItem rows) =
      applyAll (rowContents rows) (l.map fun item => .put item.1 item.2) := by
  induction l generalizing rows with
  | nil => rfl
  | cons item l ih =>
    rw [List.foldl_cons,ih,rowContents_writeItem]
    rfl

/-- The order of the hash table does not matter to what is written. -/
theorem rowContents_foldl_order (items : Items) :
    rowContents ((hashOrder.order items).foldl writeItem rows) =
      (rowContents rows).overlay (changedContents items) := by
  have hp := hashOrder.order_perm items
  have hn : (hashOrder.order items).NodupKeys := (List.perm_nodupKeys hp).mpr items.nodupKeys
  rw [rowContents_foldl_writeItem,applyAll_puts hn]
  congr 1
  funext k
  exact List.perm_dlookup k hn hp

theorem openDatabase_createIfNonExistent :
    d.openDatabase .createIfNonExistent = {d with isOpen := true, file := some d.rows} :=
  if_neg fun h => nomatch h.2

theorem updateDatabaseWithChangedItems_eq :
    d.updateDatabaseWithChangedItems hashOrder changedItems = {d with
        isOpen := true
        shouldClearItems := false
        file := some ((hashOrder.order changedItems).foldl writeItem
          (if d.shouldClearItems then ∅ else d.rows))} := by
  unfold updateDatabaseWithChangedItems
  by_cases ho : d.isOpen
  · simp [ho]
  · rw [if_neg ho,openDatabase_createIfNonExistent]
    rfl

theorem stored_updateDatabaseWithChangedItems :
    (d.updateDatabaseWithChangedItems hashOrder changedItems).stored =
      d.stored.overlay (changedContents changedItems) := by
  rw [updateDatabaseWithChangedItems_eq]
  refine (rowContents_foldl_order _ _).trans ?_
  unfold stored
  split <;> rfl

theorem contents_updateDatabaseWithChangedItems :
    (d.updateDatabaseWithChangedItems hashOrder changedItems).contents =
      (d.stored.overlay (changedContents changedItems)).overlay (changedContents d.changedItems) :=
        by
  rw [contents,stored_updateDatabaseWithChangedItems,updateDatabaseWithChangedItems_eq]

/-! ### Taking some of the items -/

/-- Every item is in one of the two parts. -/
def Split (items taken : Items) (whole : Contents Text (Option Text)) : Prop :=
  ∀ k, items.lookup k = whole k ∧ taken.lookup k = none ∨
    items.lookup k = none ∧ taken.lookup k = whole k

theorem split_empty (items : Items) : Split items ∅ (changedContents items) :=
  fun k => .inl ⟨rfl,AList.lookup_empty k⟩

theorem Split.overlay (h : Split items taken whole) (b : Contents Text Text) :
    (b.overlay (changedContents taken)).overlay (changedContents items) = b.overlay whole := by
  funext k
  rcases h k with ⟨hi,ht⟩ | ⟨hi,ht⟩
  · simp [Contents.overlay,changedContents,hi,ht]
  · simp [Contents.overlay,changedContents,hi,ht]

theorem Split.take (h : Split items taken whole) {key : Text}
    {value : Option Text} (hitem : items.lookup key = some value) :
    Split (items.erase key) (if key ∈ taken then taken else taken.insert key value) whole := by
  have hkey : whole key = some value ∧ taken.lookup key = none := by
    rcases h key with ⟨hi,ht⟩ | ⟨hi,ht⟩
    · exact ⟨hi.symm.trans hitem,ht⟩
    · rw [hitem] at hi
      cases hi
  rw [if_neg (AList.lookup_eq_none.mp hkey.2)]
  intro k
  by_cases hk : k = key
  · subst hk
    exact .inr ⟨AList.lookup_erase _ _,(AList.lookup_insert _).trans hkey.1.symm⟩
  · rw [AList.lookup_erase_ne hk,AList.lookup_insert_ne hk]
    exact h k

theorem split_takeItems (hashOrder : HashOrder) (n : ℕ) (h : Split items taken whole) :
    Split (takeItems hashOrder n items taken).1 (takeItems hashOrder n items taken).2 whole := by
  induction n generalizing items taken with
  | zero => exact h
  | succ n ih =>
    unfold takeItems
    cases ho : hashOrder.order items with
    | nil => exact h
    | cons item l =>
      have hm : item ∈ items.entries := by
        rw [← (hashOrder.order_perm items).mem_iff,ho]
        exact List.mem_cons_self
      exact ih (h.take (AList.mem_lookup_iff.mpr hm))

theorem contents_updateDatabase (hc : d.isClosed = false) (hashOrder : HashOrder) :
    (d.updateDatabase hashOrder).contents = d.contents := by
  unfold updateDatabase
  simp only [hc,Bool.false_eq_true,if_false]
  split
  next => exact contents_updateDatabaseWithChangedItems _
  next =>
    have hs := split_takeItems hashOrder maximumItemsToUpdate (split_empty d.changedItems)
    rw [contents_updateDatabaseWithChangedItems,stored_scheduleDatabaseUpdate,
      changedItems_scheduleDatabaseUpdate]
    exact hs.overlay d.stored

end Lemmas

end LocalStorageDatabase

end QPlusWeb.Storage
