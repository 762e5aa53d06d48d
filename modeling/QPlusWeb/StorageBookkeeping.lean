import QPlusWeb.StorageChannels

/-!
# The bookkeeping of pending changes

A process counts its changes that are not answered and knows whether a clear or a request for the
values is not answered, for the requests of its current seed.  So the assertions of the handlers of
answers hold.
-/

namespace QPlusWeb.Storage

open MapUpdates Runs List Bool Option

/-! ### Local calls -/

/-- The key that a request sets or removes. -/
def Request.changedKey : Request → Option Text
  | .setItem _ _ key _ => some key
  | .removeItem _ _ key => some key
  | _ => none

/-- What a call with loaded values does to the copy, and what it asks for. -/
inductive Performs (c : StorageAreaMap) : StorageAreaMap → Option Request → Prop
  | nothing : Performs c c none
  | unchanged {m m' key value} : c.storageMap = some m →
      m.Puts key value m' → m.getItem key = value → Performs c { c with storageMap := some m' } none
  | changed {m m' key value r} :
      c.storageMap = some m → m.Puts key value m' → r.storageMapSeed = c.currentSeed →
      r.changedKey = some key → r.change = some (.put key value) →
      Performs c { c with
        storageMap := some m'
        pendingValueChanges := key :: c.pendingValueChanges } (some r)
  | clear (sourceArea : ℕ+) : Performs c (c.clear sourceArea).1 (c.clear sourceArea).2

theorem performs_perform (c : StorageAreaMap) (call : LocalCall) :
    Performs c (c.perform call).1 (c.perform call).2 := by
  cases call with
  | read => exact .nothing
  | clear sourceArea => exact .clear sourceArea
  | setItem sourceArea key value =>
    simp only [StorageAreaMap.perform,StorageAreaMap.setItem]
    split
    next => exact .nothing
    next m hm =>
      split
      next => exact .nothing
      next hq =>
        have hp := StorageMap.puts_of_insert (StorageMap.items_setItem (eq_false_of_not_eq_true hq))
        split
        next hold => exact .unchanged hm hp (StorageMap.oldValue_setItem.symm.trans hold)
        next => exact .changed hm hp rfl rfl rfl
  | removeItem sourceArea key =>
    simp only [StorageAreaMap.perform,StorageAreaMap.removeItem]
    split
    next => exact .nothing
    next m hm =>
      split
      next hold => exact .unchanged hm (m.puts_removeItem key) hold
      next => exact .changed hm (m.puts_removeItem key) rfl rfl rfl

/-! ### Counting requests -/

def Request.changesKey (k : Text) (r : Request) : Bool := decide (r.changedKey = some k)

def Request.isClear : Request → Bool
  | .clear _ _ => true
  | _ => false

def Request.isGetValues : Request → Bool
  | .getValues _ => true
  | _ => false

/-- The number of requests of a kind and a seed. -/
def countOf (kind : Request → Bool) (seed : ℕ) (requests : List Request) : ℕ :=
  requests.countP fun r => decide (r.storageMapSeed = seed) && kind r

section
variable {kind : Request → Bool} {seed : ℕ} {r : Request} {R : List Request}

theorem countOf_cons : countOf kind seed (r::R) =
    countOf kind seed R+(decide (r.storageMapSeed = seed) && kind r).toNat := by
  rw [countOf,countP_cons]
  cases decide (r.storageMapSeed = seed) && kind r <;> rfl

theorem countOf_concat : countOf kind seed (R++[r]) =
    countOf kind seed R+(decide (r.storageMapSeed = seed) && kind r).toNat := by
  rw [countOf,countP_append,countP_singleton]
  cases decide (r.storageMapSeed = seed) && kind r <;> rfl

theorem countOf_cons_of_not (h : (decide (r.storageMapSeed = seed) && kind r) = false) :
    countOf kind seed (r::R) = countOf kind seed R := by
  rw [countOf_cons,h]
  rfl

theorem countOf_concat_of_not (h : kind r = false) :
    countOf kind seed (R++[r]) = countOf kind seed R := by
  rw [countOf_concat,h,Bool.and_false]
  rfl

/-- A change of a key is neither a clear nor a request for the values. -/
theorem Request.not_of_changedKey {key : Text} (h : r.changedKey = some key) :
    r.isClear = false ∧ r.isGetValues = false := by
  cases r with
  | setItem id seed key value | removeItem id seed key => exact ⟨rfl,rfl⟩
  | getValues seed | clear id seed => cases h

theorem countOf_eq_zero (h : ∀ r ∈ R, r.storageMapSeed ≤ seed) : countOf kind (seed+1) R = 0 := by
  rw [countOf,countP_eq_zero]
  intro r hr
  have hle := h r hr
  have hne : r.storageMapSeed ≠ seed+1 := by omega
  simp [hne]

theorem countOf_pos : 0 < countOf kind seed R ↔ ∃ r ∈ R, r.storageMapSeed = seed ∧ kind r := by
  simp [countOf]

end

/-! ### Books -/

/-- What a process knows about its requests `R` that are not answered. -/
structure Books (c : StorageAreaMap) (waiting : Bool) (R : List Request) : Prop where
  seeds : ∀ r ∈ R, r.storageMapSeed ≤ c.currentSeed
  sorted : R.Pairwise (·.storageMapSeed ≤ ·.storageMapSeed)
  changes : ∀ k, c.pendingValueChanges.count k = countOf (Request.changesKey k) c.currentSeed R
  clears : countOf Request.isClear c.currentSeed R = c.hasPendingClear.toNat
  gets : countOf Request.isGetValues c.currentSeed R = (c.hasPendingGetValues || waiting).toNat
  unloaded : c.storageMap = none → c.pendingValueChanges = [] ∧ c.hasPendingClear = false ∧
    c.hasPendingGetValues = false
  waiting_unloaded : waiting = true → c.storageMap = none

namespace Books
variable {c : StorageAreaMap} {waiting : Bool} {R R' : List Request} {b b' : Contents Text Text}
  {m : Message} {r : Request} {key : Text}

theorem create (quotaInBytes : ℕ) : Books (.create quotaInBytes) false [] where
  seeds := fun _ hr => absurd hr not_mem_nil
  sorted := .nil
  changes := fun _ => rfl
  clears := rfl
  gets := rfl
  unloaded := fun _ => ⟨rfl,rfl,rfl⟩
  waiting_unloaded := fun _ => rfl

theorem hasPendingClear_iff (h : Books c waiting R) :
    c.hasPendingClear ↔ ∃ id, Request.clear id c.currentSeed ∈ R := by
  have hp : c.hasPendingClear ↔ 0 < countOf Request.isClear c.currentSeed R := by
    rw [h.clears]
    cases c.hasPendingClear <;> decide
  rw [hp,countOf_pos]
  constructor
  · rintro ⟨r,hr,hseed,hk⟩
    cases r with
    | clear id seed => exact ⟨id,hseed ▸ hr⟩
    | getValues seed | setItem id seed key value | removeItem id seed key => cases hk
  · rintro ⟨id,hid⟩
    exact ⟨_,hid,rfl,rfl⟩

theorem hasPendingGetValues_iff (h : Books c false R) :
    c.hasPendingGetValues ↔ Request.getValues c.currentSeed ∈ R := by
  have hp : c.hasPendingGetValues ↔ 0 < countOf Request.isGetValues c.currentSeed R := by
    rw [h.gets]
    cases c.hasPendingGetValues <;> decide
  rw [hp,countOf_pos]
  constructor
  · rintro ⟨r,hr,hseed,hk⟩
    cases r with
    | getValues seed => exact hseed ▸ hr
    | clear id seed | setItem id seed key value | removeItem id seed key => cases hk
  · intro hg
    exact ⟨_,hg,rfl,rfl⟩

theorem sorted_concat (h : Books c waiting R) (hseed : c.currentSeed ≤ r.storageMapSeed) :
    (R++[r]).Pairwise (·.storageMapSeed ≤ ·.storageMapSeed) := by
  refine pairwise_append.mpr ⟨h.sorted,pairwise_singleton _ _,fun q hq r' hr' => ?_⟩
  rw [mem_singleton.mp hr']
  exact (h.seeds q hq).trans hseed

/-- A process that has forgotten its values has no requests of its new seed. -/
theorem reset (h : Books c waiting R) (hR : R'.Sublist R) : Books c.resetValues false R' where
  seeds := fun r hr => (h.seeds r (hR.subset hr)).trans (Nat.le_succ _)
  sorted := h.sorted.sublist hR
  changes := fun _ => (countOf_eq_zero fun r hr => h.seeds r (hR.subset hr)).symm
  clears := countOf_eq_zero fun r hr => h.seeds r (hR.subset hr)
  gets := countOf_eq_zero fun r hr => h.seeds r (hR.subset hr)
  unloaded := fun _ => ⟨rfl,rfl,rfl⟩
  waiting_unloaded := fun _ => rfl

theorem withMap (h : Books c false R) (m : StorageMap) :
    Books {c with storageMap := some m} false R :=
  {h with unloaded := nofun, waiting_unloaded := nofun}

theorem change (h : Books c false R) (m : StorageMap)
    (hseed : r.storageMapSeed = c.currentSeed) (hkey : r.changedKey = some key) :
    Books {c with
      storageMap := some m
      pendingValueChanges := key::c.pendingValueChanges} false (R++[r]) where
  seeds := forall_mem_append.mpr ⟨h.seeds,forall_mem_singleton.mpr hseed.le⟩
  sorted := h.sorted_concat hseed.ge
  changes := fun k => by
    rw [countOf_concat,count_cons,h.changes k,hseed]
    simp only [Request.changesKey,hkey,some_inj,beq_iff_eq,decide_true,Bool.true_and]
    by_cases hk : key = k
    · simp [hk]
    · simp [hk]
  clears := (countOf_concat_of_not (Request.not_of_changedKey hkey).1).trans h.clears
  gets := (countOf_concat_of_not (Request.not_of_changedKey hkey).2).trans h.gets
  unloaded := nofun
  waiting_unloaded := nofun

theorem clear (h : Books c waiting R) (sourceArea : ℕ+) :
    Books (c.clear sourceArea).1 false (R++[.clear sourceArea (c.currentSeed+1)]) where
  seeds := forall_mem_append.mpr ⟨fun q hq => (h.seeds q hq).trans (Nat.le_succ _),
    forall_mem_singleton.mpr le_rfl⟩
  sorted := h.sorted_concat (Nat.le_succ _)
  changes := fun k => by
    simp [StorageAreaMap.clear,StorageAreaMap.resetValues,countOf_concat,
      countOf_eq_zero h.seeds,Request.changesKey,Request.changedKey]
  clears := by
    simp [StorageAreaMap.clear,StorageAreaMap.resetValues,countOf_concat,
      countOf_eq_zero h.seeds,Request.isClear,Request.storageMapSeed]
  gets := by
    simp [StorageAreaMap.clear,StorageAreaMap.resetValues,countOf_concat,
      countOf_eq_zero h.seeds,Request.isGetValues]
  unloaded := nofun
  waiting_unloaded := nofun

theorem perform {c' : StorageAreaMap} {request : Option Request} (h : Books c false R)
    (hp : Performs c c' request) : Books c' false (R++request.toList) := by
  cases hp with
  | nothing => exact (append_nil R).symm ▸ h
  | unchanged _ _ _ => exact (append_nil R).symm ▸ h.withMap _
  | changed _ _ hseed hk _ => exact h.change _ hseed hk
  | clear sourceArea => exact h.clear sourceArea

theorem wait (h : Books c false R) (hn : c.storageMap = none) :
    Books c true (R++[.getValues c.currentSeed]) where
  seeds := forall_mem_append.mpr ⟨h.seeds,forall_mem_singleton.mpr le_rfl⟩
  sorted := h.sorted_concat le_rfl
  changes := fun k => (h.changes k).trans (countOf_concat_of_not rfl).symm
  clears := (countOf_concat_of_not rfl).trans h.clears
  gets := by
    rw [countOf_concat,h.gets,(h.unloaded hn).2.2]
    simp [Request.isGetValues,Request.storageMapSeed]
  unloaded := h.unloaded
  waiting_unloaded := fun _ => hn

theorem load (h : Books c true R) (values : Items) : Books (c.loadValues values) false R := {h with
    gets := by rw [StorageAreaMap.loadValues,h.gets,Bool.or_true,Bool.or_false]
    unloaded := nofun
    waiting_unloaded := nofun}

/-- An answer to a request of an older seed is ignored. -/
theorem tail (h : Books c waiting (r::R)) (hseed : c.currentSeed ≠ r.storageMapSeed) :
    Books c waiting R := by
  have hc : ∀ kind, countOf kind c.currentSeed (r::R) = countOf kind c.currentSeed R := by
    intro kind
    refine countOf_cons_of_not ?_
    rw [decide_eq_false hseed.symm,Bool.false_and]
  exact {h with
    seeds := (forall_mem_cons.mp h.seeds).2
    sorted := (pairwise_cons.mp h.sorted).2
    changes := fun k => (h.changes k).trans (hc _)
    clears := (hc _).symm.trans h.clears
    gets := (hc _).symm.trans h.gets}

section
variable (h : Books c waiting (r :: R)) (hseed : c.currentSeed = r.storageMapSeed)
include h hseed

/-- An answer to a change of a key that was pending. -/
theorem settled (hkey : r.changedKey = some key) :
    Books {c with pendingValueChanges := c.pendingValueChanges.erase key} waiting R where
  seeds := (forall_mem_cons.mp h.seeds).2
  sorted := (pairwise_cons.mp h.sorted).2
  changes := fun k => by
    have hc := h.changes k
    rw [countOf_cons,← hseed] at hc
    simp only [Request.changesKey,hkey,some_inj,decide_true,Bool.true_and] at hc
    simp only [count_erase]
    by_cases hk : key = k
    · simp only [hk,decide_true,toNat_true,beq_self_eq_true,if_true] at hc ⊢
      exact Nat.sub_eq_of_eq_add hc
    · have hne : (key == k) = false := beq_eq_false_iff_ne.mpr hk
      simp only [hk,decide_false,toNat_false] at hc
      rw [hne]
      exact hc
  clears := by
    rw [← h.clears,countOf_cons_of_not]
    rw [(Request.not_of_changedKey hkey).1,Bool.and_false]
  gets := by
    rw [← h.gets,countOf_cons_of_not]
    rw [(Request.not_of_changedKey hkey).2,Bool.and_false]
  unloaded := fun hn => by
    obtain ⟨hp,hf⟩ := h.unloaded hn
    exact ⟨by rw [hp]; rfl,hf⟩
  waiting_unloaded := h.waiting_unloaded

theorem mem_pending (hk : r.changedKey = some key) : key ∈ c.pendingValueChanges := by
  have hc := h.changes key
  rw [countOf_cons,← hseed] at hc
  simp only [Request.changesKey,hk,decide_true,Bool.true_and,toNat_true] at hc
  exact count_pos_iff.mp (by omega)

end

theorem cleared {id : ℕ+} (h : Books c waiting (.clear id c.currentSeed::R)) :
    c.hasPendingClear ∧ Books {c with hasPendingClear := false} waiting R := by
  have hc := h.clears
  rw [countOf_cons] at hc
  simp only [Request.storageMapSeed,Request.isClear,decide_true,Bool.and_true,toNat_true]
    at hc
  have hle := toNat_le c.hasPendingClear
  refine ⟨toNat_eq_one.mp (by omega),?_,?_,?_,?_,?_,?_,h.waiting_unloaded⟩
  · exact (forall_mem_cons.mp h.seeds).2
  · exact (pairwise_cons.mp h.sorted).2
  · exact fun k => (h.changes k).trans (countOf_cons_of_not (Bool.and_false _))
  · simp only [toNat_false]
    omega
  · rw [← h.gets,countOf_cons_of_not (Bool.and_false _)]
  · exact fun hn => ⟨(h.unloaded hn).1,rfl,(h.unloaded hn).2.2⟩

theorem loaded (h : Books c false (.getValues c.currentSeed::R)) :
    c.hasPendingGetValues ∧ Books {c with hasPendingGetValues := false} false R := by
  have hc := h.gets
  rw [countOf_cons,Bool.or_false] at hc
  simp only [Request.storageMapSeed,Request.isGetValues,decide_true,Bool.and_true,toNat_true] at hc
  have hle := toNat_le c.hasPendingGetValues
  refine ⟨toNat_eq_one.mp (by omega),?_,?_,?_,?_,?_,?_,h.waiting_unloaded⟩
  · exact (forall_mem_cons.mp h.seeds).2
  · exact (pairwise_cons.mp h.sorted).2
  · exact fun k => (h.changes k).trans (countOf_cons_of_not (Bool.and_false _))
  · rw [← h.clears,countOf_cons_of_not (Bool.and_false _)]
  · simp only [Bool.or_false,toNat_false]
    omega
  · exact fun hn => ⟨(h.unloaded hn).1,(h.unloaded hn).2.1,rfl⟩

theorem applyChange (h : Books c false R) (key newValue : Option Text) :
    Books (c.applyChange key newValue) false R := by
  unfold StorageAreaMap.applyChange
  split
  next => exact h
  next =>
    cases key with
    | none => exact h.withMap _
    | some key =>
      simp only
      split
      next => exact h
      next =>
        split
        next => exact h
        next =>
          split
          next => exact h.withMap _
          next => exact h.withMap _

/-- The handlers keep the books, and their assertions hold. -/
theorem receive (h : Books c false R) (hm : m.replay b R = some (b',R')) :
    c.Asserts m ∧ Books (c.receive m) false R' := by
  rcases replay_cases hm with ⟨⟨id,key,newValue,rfl,-⟩,rfl⟩ | ⟨⟨rfl,-⟩,rfl⟩ |
    ⟨r,rfl,ha,-⟩
  · refine ⟨trivial,?_⟩
    simp only [StorageAreaMap.receive,StorageAreaMap.dispatchStorageEvent]
    split
    next => exact h.applyChange key newValue
    next => exact h
  · exact ⟨trivial,h.reset (List.Sublist.refl _)⟩
  · cases answers_cases ha
    · simp only [StorageAreaMap.receive,StorageAreaMap.didGetValues,StorageAreaMap.Asserts]
      split
      next hseed => exact ⟨fun heq => absurd heq hseed,h.tail hseed⟩
      next hseed =>
        obtain rfl := not_not.mp hseed
        exact ⟨fun _ => h.loaded.1,h.loaded.2⟩
    · simp only [StorageAreaMap.receive,StorageAreaMap.didSetItem,StorageAreaMap.Asserts]
      split
      next hseed => exact ⟨fun heq => absurd heq hseed,h.tail hseed⟩
      next hseed =>
        refine ⟨fun heq => h.mem_pending heq rfl,?_⟩
        split
        next => exact h.reset (sublist_cons_self _ _)
        next => exact h.settled (not_not.mp hseed) rfl
    · simp only [StorageAreaMap.receive,StorageAreaMap.didRemoveItem,StorageAreaMap.Asserts]
      split
      next hseed => exact ⟨fun heq => absurd heq hseed,h.tail hseed⟩
      next hseed =>
        exact ⟨fun heq => h.mem_pending heq rfl,h.settled (not_not.mp hseed) rfl⟩
    · simp only [StorageAreaMap.receive,StorageAreaMap.didClear,StorageAreaMap.Asserts]
      split
      next hseed => exact ⟨fun heq => absurd heq hseed,h.tail hseed⟩
      next hseed =>
        obtain rfl := not_not.mp hseed
        exact ⟨fun _ => h.cleared.1,h.cleared.2⟩

end Books

/-! ### Books of a process -/

def Process.Books (p : Process) : Prop := Storage.Books p.map p.call.isSome p.unanswered

section
variable {p : Process} {s b : Contents Text Text}

theorem Process.Books.begin (h : p.Books) (call : LocalCall) (hc : p.call = none) :
    (p.begin call).Books := by
  unfold Process.Books at h
  rw [hc] at h
  unfold Process.begin
  split
  next hl =>
    rw [and_eq_true,isNone_iff_eq_none] at hl
    exact h.wait hl.2
  next =>
    have hp := h.perform (performs_perform _ call)
    simp only [Process.perform,Process.send,hc]
    exact hp

theorem Process.Books.resume (h : p.Books) {call : LocalCall} {values : Items}
    (hc : p.call = some (call,some values)) : ((p.resumed values).perform call).Books := by
  unfold Process.Books at h
  rw [hc] at h
  exact (h.load values).perform (performs_perform _ call)

theorem Process.Books.deliver {m : Message} {rest : List Message} (h : p.Books)
    (hl : p.Linked s b) (hc : p.call = none) (hm : p.messages = m::rest) :
    p.map.Asserts m ∧ (p.deliver m rest).Books := by
  obtain ⟨b',hn,-⟩ := hl.deliver hm
  unfold Process.Books at h ⊢
  simp only [Process.deliver,hc] at h hn ⊢
  exact h.receive hn

theorem Process.Books.answered (h : p.Books) (items : Items) (r : Request) (rest : List Request)
    (event : Option Event) (answer : Message) : (p.answered items r rest event answer).Books := by
  have hc : (p.answered items r rest event answer).call.isSome = p.call.isSome := by
    cases r with
    | getValues seed => exact isSome_map
    | setItem id seed key value | removeItem id seed key | clear id seed => rfl
  unfold Process.Books
  rw [hc]
  exact h

/-- The link and the books are kept by all steps. -/
theorem processInvariant_books :
    ProcessInvariant (fun _ => True) fun s p => (∃ b, p.Linked s b) ∧ p.Books where
  initial s quotaInBytes := ⟨⟨s,linked_create s quotaInBytes⟩,Books.create quotaInBytes⟩
  begin := by
    rintro s p call ⟨⟨b,hl⟩,hb⟩ hc
    exact ⟨⟨b,hl.begin call⟩,hb.begin call hc⟩
  resume := by
    rintro s p call values ⟨⟨b,hl⟩,hb⟩ hc
    exact ⟨⟨b,hl.resume call values⟩,hb.resume hc⟩
  deliver := by
    rintro s p m rest ⟨⟨b,hl⟩,hb⟩ - hc hm
    obtain ⟨b',-,hlink'⟩ := hl.deliver hm
    exact ⟨⟨b',hlink'⟩,(hb.deliver hl hc hm).2⟩
  answered := by
    rintro s p r rest a event answer items ⟨⟨b,hl⟩,hb⟩ hr hh -
    exact ⟨⟨b,hl.answered hr hh items⟩,hb.answered items r rest event answer⟩
  informed := by
    rintro s p event ⟨⟨b,hl⟩,hb⟩
    exact ⟨⟨b,hl.informed event⟩,hb⟩
  cleared := by
    rintro s p ⟨⟨b,hl⟩,hb⟩
    exact ⟨⟨b,hl.cleared⟩,hb⟩

end

end QPlusWeb.Storage
