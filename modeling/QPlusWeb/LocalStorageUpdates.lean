import QPlusWeb.LocalStorageDatabase

/-!
# Updates of the database of a local storage area

Every run keeps the contents of the area: what the calls of the area have changed is in the table or
among the collected changes, and an update is scheduled until everything has been written.
-/

namespace QPlusWeb.Storage

open MapUpdates Runs

namespace LocalStorageDatabase

section Lemmas
variable {d : LocalStorageDatabase} {hashOrder : HashOrder}

/-- There is one delayed call exactly if one has been scheduled, and what has not been written yet has
one. -/
structure Active (d : LocalStorageDatabase) : Prop where
  not_closed : d.isClosed = false
  not_deleted : d.deleted = false
  tasks_eq : d.tasks = d.didScheduleDatabaseUpdate.toNat
  scheduled : d.Pending → d.didScheduleDatabaseUpdate = true

/-- Everything has been written. -/
structure Finished (d : LocalStorageDatabase) : Prop where
  closed : d.isClosed = true
  not_pending : ¬d.Pending

theorem not_pending_empty (hi : d.changedItems = ∅) (hc : d.shouldClearItems = false) :
    ¬d.Pending := by
  rintro (h | h)
  · exact h hi
  · exact absurd h (by simp [hc])

theorem active_create (file : Option Rows) : (create file).Active :=
  ⟨rfl,rfl,rfl,fun h => absurd h (not_pending_empty rfl rfl)⟩

theorem active_scheduleDatabaseUpdate (hc : d.isClosed = false) (hd : d.deleted = false)
    (ht : d.tasks = d.didScheduleDatabaseUpdate.toNat) : d.scheduleDatabaseUpdate.Active := by
  unfold scheduleDatabaseUpdate
  split
  next hs => exact ⟨hc,hd,ht,fun _ => hs⟩
  next hs =>
    refine ⟨hc,hd,?_,fun _ => rfl⟩
    have hf : d.didScheduleDatabaseUpdate = false := Bool.not_eq_true _ ▸ hs
    simp only [ht,hf]
    rfl

theorem Active.openDatabase (h : d.Active) (openingStrategy : DatabaseOpeningStrategy) :
    (d.openDatabase openingStrategy).Active := by
  unfold LocalStorageDatabase.openDatabase
  split
  · exact h
  · exact {h with}

theorem Active.importItems (h : d.Active) (storageMap : StorageMap) :
    (d.importItems storageMap).1.Active := by
  have hi : {d with didImportItems := true}.Active := {h with}
  have ho := hi.openDatabase .skipIfNonExistent
  unfold LocalStorageDatabase.importItems
  split
  · exact h
  · simp only
    split
    · exact ho
    · exact ho

theorem contents_importItems (storageMap : StorageMap) :
    (d.importItems storageMap).1.contents = d.contents := by
  have ho : ({d with didImportItems := true}.openDatabase .skipIfNonExistent).contents =
      d.contents := contents_openDatabase _
  unfold LocalStorageDatabase.importItems
  split
  · rfl
  · simp only
    split
    · exact ho
    · exact ho

theorem Active.itemDidChange (h : d.Active) (key : Text) (value : Option Text) :
    (d.itemDidChange key value).Active :=
  active_scheduleDatabaseUpdate h.not_closed h.not_deleted h.tasks_eq

theorem Active.clear (h : d.Active) : d.clear.Active :=
  active_scheduleDatabaseUpdate h.not_closed h.not_deleted h.tasks_eq

/-- Writing items leaves less to be written. -/
theorem Active.updateDatabaseWithChangedItems (h : d.Active) (changedItems : Items) :
    (d.updateDatabaseWithChangedItems hashOrder changedItems).Active := by
  rw [updateDatabaseWithChangedItems_eq]
  refine {h with scheduled := ?_}
  rintro (hi | hc)
  · exact h.scheduled (.inl hi)
  · cases hc

theorem Active.updateDatabase (h : d.Active) (hashOrder : HashOrder) :
    ({d with tasks := d.tasks-1}.updateDatabase hashOrder).Active := by
  have hz : d.tasks-1 = 0 := by
    have hle := Bool.toNat_le d.didScheduleDatabaseUpdate
    rw [← h.tasks_eq] at hle
    omega
  unfold LocalStorageDatabase.updateDatabase
  simp only [h.not_closed,Bool.false_eq_true,if_false,hz]
  split
  next =>
    rw [updateDatabaseWithChangedItems_eq]
    exact ⟨rfl,h.not_deleted,rfl,fun hp => absurd hp (not_pending_empty rfl rfl)⟩
  next =>
    refine Active.updateDatabaseWithChangedItems ?_ _
    exact active_scheduleDatabaseUpdate rfl h.not_deleted rfl

/-! ### Closing -/

theorem not_pending_flush (h : d.Pending → d.didScheduleDatabaseUpdate) :
    ¬(d.flush hashOrder).Pending := by
  unfold flush
  split
  next =>
    rw [updateDatabaseWithChangedItems_eq]
    exact not_pending_empty rfl rfl
  next hs => exact fun hp => hs (h hp)

theorem contents_flush : (d.flush hashOrder).contents = d.contents := by
  unfold flush
  split
  next => exact stored_updateDatabaseWithChangedItems _
  next => rfl

theorem isOpen_flush : (d.flush hashOrder).isOpen ↔ d.isOpen ∨ d.didScheduleDatabaseUpdate := by
  unfold flush
  split
  next hs => simp [updateDatabaseWithChangedItems_eq,hs]
  next hs => simp [hs]

theorem rowContents_eq_empty {rows : Rows} : rowContents rows = .empty ↔ rows.entries = [] := by
  constructor
  · intro he
    refine List.eq_nil_iff_forall_not_mem.mpr fun row hr => ?_
    have hl : rows.lookup row.1 = some row.2 := AList.mem_lookup_iff.mpr hr
    have hn : rows.lookup row.1 = none := congrFun he row.1
    rw [hl] at hn
    cases hn
  · intro hnil
    funext k
    unfold rowContents AList.lookup
    rw [hnil]
    rfl

theorem databaseIsEmpty_iff (h : ¬d.Pending) :
    d.databaseIsEmpty ↔ d.isOpen ∧ d.contents = .empty := by
  rw [databaseIsEmpty,Bool.and_eq_true,contents_of_not_pending h,List.isEmpty_iff,
    rowContents_eq_empty]

theorem flush_unchanged : (d.flush hashOrder).isClosed = d.isClosed ∧
    (d.flush hashOrder).deleted = d.deleted := by
  unfold flush
  split
  next => simp [updateDatabaseWithChangedItems_eq]
  next => exact ⟨rfl,rfl⟩

theorem Active.close (h : d.Active) (hashOrder : HashOrder) :
    (d.close hashOrder).Finished ∧ (d.close hashOrder).contents = d.contents ∧
      ((d.close hashOrder).deleted ↔
        (d.isOpen ∨ d.didScheduleDatabaseUpdate) ∧ d.contents = .empty) := by
  have hp : ¬({d with isClosed := true}.flush hashOrder).Pending := not_pending_flush h.scheduled
  have hc : ({d with isClosed := true}.flush hashOrder).contents = d.contents := contents_flush
  have he := databaseIsEmpty_iff hp
  rw [isOpen_flush,hc] at he
  unfold LocalStorageDatabase.close
  simp only
  split
  next hi =>
    refine ⟨⟨flush_unchanged.1,hp⟩,?_,fun _ => he.mp hi,fun _ => rfl⟩
    -- the file without rows and no file have the same contents
    rw [(he.mp hi).2]
    refine (contents_of_not_pending ?_).trans rfl
    exact hp
  next hi =>
    refine ⟨⟨flush_unchanged.1,hp⟩,hc,fun hd => ?_,fun ho => ?_⟩
    · have hn : ({d with isClosed := true}.flush hashOrder).deleted = false :=
        flush_unchanged.2.trans h.not_deleted
      rw [hn] at hd
      cases hd
    · exact absurd (he.mpr ho) hi

theorem Finished.updateDatabase (h : d.Finished) (n : ℕ) (hashOrder : HashOrder) :
    {d with tasks := n}.updateDatabase hashOrder = {d with tasks := n} :=
  if_pos h.closed

end Lemmas

/-! ### Runs -/

/-- The change that a call makes to the contents of the area. -/
def Action.change : Action → Option (Change Text Text)
  | .setItem key value => some (.put key value)
  | .removeItem key => some (.put key none)
  | .clear => some .clear
  | _ => none

/-- The rows of the table at the start, changed by all calls. -/
def logicalContents (file : Option Rows) (actions : List Action) : Contents Text Text :=
  applyAll (rowContents (file.getD ∅)) (actions.filterMap Action.change)

section Runs
variable {d d' : LocalStorageDatabase} {a : Action} {actions : List Action}

theorem step_spec (h : d.Active ∨ d.Finished) (ha : d.CallsBeforeClose a)
    (hs : d.step a = some d') :
    (d'.Active ∨ d'.Finished) ∧ d'.contents = applyAll d.contents a.change.toList := by
  have hactive : d.isClosed = false → d.Active := fun hc => by
    refine h.resolve_right fun hf => ?_
    rw [hf.closed] at hc
    cases hc
  cases a with
  | importItems storageMap =>
    cases hs
    exact ⟨.inl ((hactive ha).importItems storageMap),contents_importItems storageMap⟩
  | setItem key value =>
    cases hs
    exact ⟨.inl ((hactive ha).itemDidChange key value),contents_itemDidChange key value⟩
  | removeItem key =>
    cases hs
    exact ⟨.inl ((hactive ha).itemDidChange key none),contents_itemDidChange key none⟩
  | clear =>
    cases hs
    exact ⟨.inl (hactive ha).clear,contents_clear⟩
  | updateDatabase hashOrder =>
    simp only [step] at hs
    split at hs
    next => cases hs
    next =>
      cases hs
      rcases h with h | h
      · refine ⟨.inl (h.updateDatabase hashOrder),(contents_updateDatabase ?_ hashOrder).trans rfl⟩
        exact h.not_closed
      · rw [h.updateDatabase]
        exact ⟨.inr ⟨h.closed,h.not_pending⟩,rfl⟩
  | close hashOrder =>
    cases hs
    obtain ⟨hf,hcont,-⟩ := (hactive ha).close hashOrder
    exact ⟨.inr hf,hcont⟩

theorem run_spec (h : d.Active ∨ d.Finished) (ha : Allowed step CallsBeforeClose actions d)
    (hrun : run step actions d = some d') :
    (d'.Active ∨ d'.Finished) ∧
      d'.contents = applyAll d.contents (actions.filterMap Action.change) := by
  induction actions generalizing d with
  | nil =>
    cases hrun
    exact ⟨h,rfl⟩
  | cons a actions ih =>
    obtain ⟨s,hs,hr⟩ := Option.bind_eq_some_iff.mp hrun
    obtain ⟨hsound,hcont⟩ := step_spec h ha.1 hs
    obtain ⟨hsound',hcont'⟩ := ih hsound (ha.2 s hs) hr
    refine ⟨hsound',?_⟩
    rw [hcont',hcont,← applyAll_append]
    cases hc : a.change with
    | none =>
      rw [List.filterMap_cons_none hc]
      rfl
    | some c =>
      rw [List.filterMap_cons_some hc]
      rfl

end Runs

/-- A run in which the area is cleared and a key is set again between two updates. -/
def clearBetweenUpdates : List Action :=
  let hashOrder : HashOrder := ⟨AList.entries, fun _ => .refl _⟩
  [.setItem [0] (some [1]), .setItem [2] (some []), .removeItem [3], .updateDatabase hashOrder,
    .clear, .setItem [0] (some [4])]

end LocalStorageDatabase

end QPlusWeb.Storage
