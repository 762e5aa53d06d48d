import QPlusWeb.StorageBookkeeping
import Mathlib.Data.List.Dedup

/-!
# Values of pending changes

A value that was set locally is kept until its answer has arrived, whatever other processes do,
unless a remote clear is applied while a pending change has a value: the clear then writes the null
string in its place.
-/

namespace QPlusWeb.Storage

open MapUpdates Runs List StorageAreaMap Option

/-! ### Changes of keys -/

/-- The change of a key that a request asks for. -/
def Request.keyChange (r : Request) : Option (Change Text Text) :=
  if r.changedKey.isSome then r.change else none

/-- The changes of keys that requests of a seed ask for. -/
def changesOf (seed : ℕ) (requests : List Request) : List (Change Text Text) :=
  requests.filterMap fun r => if r.storageMapSeed = seed then r.keyChange else none

section
variable {seed : ℕ} {r : Request} {R : List Request} {k key : Text} {c : Change Text Text}

theorem changesOf_concat (hs : r.storageMapSeed = seed)
    (hc : r.keyChange = some c) : changesOf seed (R++[r]) = changesOf seed R++[c] := by
  simp [changesOf,hs,hc]

theorem changesOf_cons (hs : r.storageMapSeed = seed)
    (hc : r.keyChange = some c) : changesOf seed (r::R) = c::changesOf seed R := by
  simp [changesOf,hs,hc]

theorem changesOf_cons_of_ne (h : seed ≠ r.storageMapSeed ∨ r.keyChange = none) :
    changesOf seed (r::R) = changesOf seed R := by
  rcases h with h | h
  · simp [changesOf,h.symm]
  · simp [changesOf,h]

/-- The change of a request for a key touches this key only. -/
theorem keyChange_of_changedKey (h : r.changedKey = some key) :
    ∃ value, r.keyChange = some (.put key value) := by
  cases r with
  | setItem id seed key' value =>
    cases h
    exact ⟨some value,rfl⟩
  | removeItem id seed key' =>
    cases h
    exact ⟨none,rfl⟩
  | getValues seed | clear id seed => cases h

theorem touches_changesOf :
    (∃ c ∈ changesOf seed R, c.Touches k) ↔ 0 < countOf (Request.changesKey k) seed R := by
  rw [countOf,countP_pos_iff]
  constructor
  · rintro ⟨c,hc,ht⟩
    obtain ⟨r,hr,hrc⟩ := mem_filterMap.mp hc
    refine ⟨r,hr,?_⟩
    split at hrc
    next hs =>
      cases hkey : r.changedKey with
      | none => simp [Request.keyChange,hkey] at hrc
      | some key =>
        obtain ⟨value,hv⟩ := keyChange_of_changedKey hkey
        rw [hv] at hrc
        cases hrc
        obtain rfl : key = k := ht
        simp [hs,Request.changesKey,hkey]
    next => cases hrc
  · rintro ⟨r,hr,hk⟩
    rw [Bool.and_eq_true,decide_eq_true_eq,Request.changesKey,decide_eq_true_eq] at hk
    obtain ⟨value,hv⟩ := keyChange_of_changedKey hk.2
    exact ⟨.put k value,mem_filterMap.mpr ⟨r,hr,by rw [if_pos hk.1,hv]⟩,rfl⟩

end

/-- Whether a message is a remote clear that is applied to the copy. -/
def StorageAreaMap.appliesClear (c : StorageAreaMap) : Message → Bool
  | .dispatchStorageEvent 0 none _ => !c.hasPendingClear && !c.hasPendingGetValues
  | _ => false

/-- The map has the values that the pending changes ask for. -/
def Held (c : StorageAreaMap) (R : List Request) : Prop :=
  ∀ m, c.storageMap = some m → ∀ k ∈ c.pendingValueChanges,
    m.items.lookup k = (applyAll .empty (changesOf c.currentSeed R) k).map some

namespace Held
variable {c : StorageAreaMap} {R R' : List Request} {b b' : Contents Text Text} {m m' : StorageMap}
  {r : Request} {key k : Text} {waiting : Bool}

theorem of_pending_eq_nil (h : c.pendingValueChanges = []) : Held c R := by
  intro m _ k hk
  rw [h] at hk
  cases hk

theorem of_unloaded (h : c.storageMap = none) : Held c R := by
  intro m hm
  rw [h] at hm
  cases hm

section
variable (h : Held c R) (hm : c.storageMap = some m)
include h hm

/-- A map that has the same values for the pending changes. -/
theorem withMap (hl : ∀ k ∈ c.pendingValueChanges, m'.items.lookup k = m.items.lookup k) :
    Held {c with storageMap := some m'} R := by
  intro m'' hm'' k hk
  cases hm''
  rw [hl k hk]
  exact h m hm k hk

/-- A pending change does not store the null string. -/
theorem lookup_eq (hk : k ∈ c.pendingValueChanges) : m.items.lookup k = (m.getItem k).map some := by
  rw [StorageMap.getItem,h m hm k hk]
  cases applyAll .empty (changesOf c.currentSeed R) k <;> rfl

theorem change {value : Option Text} (hs : r.storageMapSeed = c.currentSeed)
    (hc : r.keyChange = some (.put key value)) (hp : m.Puts key value m') :
    Held {c with
      storageMap := some m'
      pendingValueChanges := key::c.pendingValueChanges} (R++[r]) := by
  intro m'' hm'' k hk
  cases hm''
  rw [changesOf_concat hs hc,applyAll_concat]
  by_cases hk' : k = key
  · subst hk'
    rw [hp.self,Change.put_apply_self]
  · rw [hp.other k hk',Change.put_apply_of_ne value hk']
    exact h m hm k ((mem_cons.mp hk).resolve_left hk')

end

theorem perform {c' : StorageAreaMap} {request : Option Request} (h : Held c R)
    (hperforms : Performs c c' request) : Held c' (R++request.toList) := by
  cases hperforms with
  | nothing => exact (append_nil R).symm ▸ h
  | @unchanged m m' key value hm hp hold =>
    rw [toList_none,append_nil]
    refine h.withMap hm fun k hk => ?_
    by_cases hkey : k = key
    · subst hkey
      rw [hp.self,h.lookup_eq hm hk,hold]
    · exact hp.other k hkey
  | changed hm hp hs hkey hc =>
    exact h.change hm hs (by rw [Request.keyChange,hkey]; exact hc) hp
  | clear sourceArea => exact of_pending_eq_nil rfl

/-- An answer to a request that is not a change of the current seed. -/
theorem tail (h : Held c (r::R)) (hr : c.currentSeed ≠ r.storageMapSeed ∨ r.keyChange = none) :
    Held c R := by
  intro m hm k hk
  rw [h m hm k hk,changesOf_cons_of_ne hr]

/-- Once a change is answered the later changes of the key still decide its value. -/
theorem settled (h : Held c (r::R)) (hb : Books c waiting (r::R))
    (hs : c.currentSeed = r.storageMapSeed) (hkey : r.changedKey = some key) :
    Held {c with pendingValueChanges := c.pendingValueChanges.erase key} R := by
  intro m hm k hk
  obtain ⟨value,hv⟩ := keyChange_of_changedKey hkey
  have hc := (hb.settled hs hkey).changes k
  have ht : ∃ d ∈ changesOf c.currentSeed R, d.Touches k := by
    rw [touches_changesOf,← hc]
    exact count_pos_iff.mpr hk
  rw [h m hm k (mem_of_mem_erase hk),changesOf_cons hs.symm hv,applyAll_cons,
    applyAll_of_touched _ .empty ht]

theorem keepPendingChanges_eq (h : ∀ key ∈ c.pendingValueChanges, c.item key = none) :
    c.keepPendingChanges = .create c.quotaInBytes := by
  have hf : ∀ keys : List Text, (∀ key ∈ keys, c.item key = none) →
      ∀ m : StorageMap, keys.foldl (fun newStorageMap key =>
        if c.item key = none then newStorageMap else newStorageMap.setItemIgnoringQuota key none) m =
        m := by
    intro keys
    induction keys with
    | nil => exact fun _ _ => rfl
    | cons key keys ih =>
      intro hk m
      rw [foldl_cons,if_pos (hk key mem_cons_self)]
      exact ih (fun key' hkey' => hk key' (mem_cons_of_mem _ hkey')) m
  exact hf _ (fun key hkey => h key (mem_dedup.mp hkey)) _

/-- A remote change of a key that has no pending change. -/
theorem applyChange_key (h : Held c R) (key : Text) (newValue : Option Text) :
    Held (c.applyChange (some key) newValue) R := by
  unfold applyChange
  split
  next => exact h
  next =>
    simp only
    split
    next => exact h
    next m hm =>
      split
      next => exact h
      next hp =>
        have hne : ∀ k ∈ c.pendingValueChanges, k ≠ key := fun k hk heq => hp (heq ▸ hk)
        split
        next => exact h.withMap hm fun k hk => (m.puts_removeItem key).other k (hne k hk)
        next value =>
          exact h.withMap hm fun k hk => (m.puts_setItemIgnoringQuota key value).other k (hne k hk)

/-- A remote clear when no pending change has a value. -/
theorem applyChange_clear (h : Held c R) (hb : Books c waiting R) (newValue : Option Text)
    (hp : c.hasPendingClear = false → c.hasPendingGetValues = false →
      ∀ key ∈ c.pendingValueChanges, c.item key = none) :
    Held (c.applyChange none newValue) R := by
  unfold applyChange
  split
  next => exact h
  next hf =>
    rw [Bool.or_eq_true,not_or,Bool.not_eq_true,Bool.not_eq_true] at hf
    have hn := hp hf.1 hf.2
    cases hm : c.storageMap with
    | none => exact of_pending_eq_nil (hb.unloaded hm).1
    | some m =>
      rw [keepPendingChanges_eq hn]
      refine h.withMap hm fun k hk => ?_
      have hi := hn k hk
      rw [item,hm,bind_some] at hi
      rw [h.lookup_eq hm hk,hi]
      rfl

theorem receive {message : Message} (h : Held c R) (hb : Books c false R)
    (hm : message.replay b R = some (b',R'))
    (hok : c.appliesClear message → ∀ key ∈ c.pendingValueChanges, c.item key = none) :
    Held (c.receive message) R' := by
  rcases replay_cases hm with ⟨⟨id,key,newValue,rfl,-⟩,rfl⟩ | ⟨⟨rfl,-⟩,rfl⟩ |
    ⟨r,rfl,ha,-⟩
  · simp only [receive,dispatchStorageEvent]
    split
    next hid =>
      subst hid
      cases key with
      | none =>
        refine h.applyChange_clear hb newValue fun hc hg => hok ?_
        simp [appliesClear,hc,hg]
      | some key => exact h.applyChange_key key newValue
    next => exact h
  · exact of_unloaded rfl
  · cases answers_cases ha
    · have ht : Held c R' := h.tail (.inr rfl)
      simp only [receive,didGetValues]
      split
      next => exact ht
      next => exact ht
    · simp only [receive,didSetItem]
      split
      next hs => exact h.tail (.inl hs)
      next hs =>
        split
        next => exact of_unloaded rfl
        next => exact h.settled hb (not_not.mp hs) rfl
    · simp only [receive,didRemoveItem]
      split
      next hs => exact h.tail (.inl hs)
      next hs => exact h.settled hb (not_not.mp hs) rfl
    · have ht : Held c R' := h.tail (.inr rfl)
      simp only [receive,didClear]
      split
      next => exact ht
      next => exact ht

end Held

/-! ### Processes that keep their changes -/

/-- If the next message is a remote clear that is applied, no pending change has a value. -/
def Process.KeepsChanges (p : Process) : Prop :=
  ∀ m ∈ p.messages.head?, p.map.appliesClear m = true →
    ∀ key ∈ p.map.pendingValueChanges, p.map.item key = none

instance (p : Process) : Decidable p.KeepsChanges := by
  unfold Process.KeepsChanges
  infer_instance

/-- A process that waits for its values has no pending changes. -/
theorem Process.Books.pending_eq_nil {p : Process} (h : p.Books) {call : LocalCall × Option Items}
    (hc : p.call = some call) : p.map.pendingValueChanges = [] := by
  unfold Process.Books at h
  rw [hc] at h
  exact (h.unloaded (h.waiting_unloaded rfl)).1

theorem processInvariant_held : ProcessInvariant Process.KeepsChanges fun s p =>
      ((∃ b, p.Linked s b) ∧ p.Books) ∧ Held p.map p.unanswered where
  initial s quotaInBytes := ⟨processInvariant_books.initial s quotaInBytes,Held.of_unloaded rfl⟩
  begin := by
    rintro s p call ⟨hb,hh⟩ hc
    refine ⟨processInvariant_books.begin s p call hb hc,?_⟩
    unfold Process.begin
    split
    next hload =>
      rw [Bool.and_eq_true,isNone_iff_eq_none] at hload
      exact Held.of_unloaded hload.2
    next => exact hh.perform (performs_perform _ call)
  resume := by
    rintro s p call values ⟨hb,-⟩ hc
    refine ⟨processInvariant_books.resume s p call values hb hc,?_⟩
    have hl : Held (p.resumed values).map (p.resumed values).unanswered :=
      Held.of_pending_eq_nil (hb.2.pending_eq_nil hc)
    exact hl.perform (performs_perform _ call)
  deliver := by
    rintro s p m rest ⟨hb,hh⟩ hok hc hm
    refine ⟨processInvariant_books.deliver s p m rest hb trivial hc hm,?_⟩
    obtain ⟨⟨b,hlink⟩,hbooks⟩ := hb
    obtain ⟨b',hn,-⟩ := hlink.deliver hm
    unfold Process.Books at hbooks
    rw [hc] at hbooks
    exact hh.receive hbooks hn (hok m (by rw [hm]; rfl))
  answered := by
    rintro s p r rest a event answer items ⟨hb,hh⟩ hr hhandled hi
    exact ⟨processInvariant_books.answered s p r rest a event answer items hb hr hhandled hi,hh⟩
  informed := by
    rintro s p event ⟨hb,hh⟩
    exact ⟨processInvariant_books.informed s p event hb,hh⟩
  cleared := by
    rintro s p ⟨hb,hh⟩
    exact ⟨processInvariant_books.cleared s p hb,hh⟩

/-! ### Runs -/

/-- The bookkeeping of a process agrees with its requests that are not answered, and the assertion of
the next answer holds. -/
structure Process.KeepsBooks (p : Process) : Prop where
  changes : ∀ k, p.map.pendingValueChanges.count k =
    p.unanswered.countP fun r =>
      decide (r.storageMapSeed = p.map.currentSeed) && decide (r.changedKey = some k)
  clear : p.map.hasPendingClear = true ↔
    ∃ id, Request.clear id p.map.currentSeed ∈ p.unanswered
  getValues : p.call = none →
    (p.map.hasPendingGetValues = true ↔ Request.getValues p.map.currentSeed ∈ p.unanswered)
  asserts : ∀ m rest, p.call = none → p.messages = m :: rest → p.map.Asserts m

theorem Process.Books.keepsBooks {p : Process} {s b : Contents Text Text} (h : p.Books)
    (hl : p.Linked s b) : p.KeepsBooks where
  changes := h.changes
  clear := h.hasPendingClear_iff
  getValues := fun hc => by
    unfold Process.Books at h
    rw [hc] at h
    exact h.hasPendingGetValues_iff
  asserts := fun m rest hc hm => (h.deliver hl hc hm).1

theorem changesOf_append {seed : ℕ} {R R' : List Request} :
    changesOf seed (R++R') = changesOf seed R++changesOf seed R' :=
  filterMap_append

/-- The last local change of a key decides its value. -/
theorem Held.item_eq {c : StorageAreaMap} {l l' : List Request} {id : ℕ+} {k v : Text}
    {waiting : Bool} (h : Held c (l++.setItem id c.currentSeed k v::l'))
    (hb : Books c waiting (l++.setItem id c.currentSeed k v::l'))
    (hlast : ∀ r ∈ l', r.storageMapSeed = c.currentSeed → r.changedKey ≠ some k) :
    c.item k = some v := by
  have hp : k ∈ c.pendingValueChanges := by
    rw [← count_pos_iff,hb.changes k,countOf_pos]
    exact ⟨_,mem_append_right _ mem_cons_self,rfl,decide_eq_true rfl⟩
  have hu : ∀ d ∈ changesOf c.currentSeed l', ¬d.Touches k := by
    intro d hd ht
    obtain ⟨r,hr,hs,hk⟩ := countOf_pos.mp (touches_changesOf.mp ⟨d,hd,ht⟩)
    exact hlast r hr hs (of_decide_eq_true hk)
  cases hm : c.storageMap with
  | none =>
    rw [(hb.unloaded hm).1] at hp
    cases hp
  | some m =>
    have hl := h m hm k hp
    have hh : changesOf c.currentSeed (.setItem id c.currentSeed k v::l') =
        .put k (some v)::changesOf c.currentSeed l' := changesOf_cons rfl rfl
    rw [changesOf_append,hh,applyAll_append,applyAll_cons,
      applyAll_of_not_touched hu,Change.put_apply_self] at hl
    rw [item,hm,bind_some,StorageMap.getItem,hl]
    rfl

section
variable {ι : Type*} [DecidableEq ι]

end

section

/-- Two processes with a copy of an empty area. -/
def twoCopies : System Bool where
  area := ⟨1000, .create 1000⟩
  process := fun _ => ⟨.create 1000, [], [], none, []⟩

theorem initial_twoCopies : twoCopies.Initial where
  items := nofun
  process := fun _ => ⟨1000,rfl⟩

/-- The first process sets the key 1. -/
def setFirst : List (Action Bool) :=
  [.call true (.setItem 1 [1] [10]), .handleRequest true, .resume true]

/-- The first process forgets its values while its change of the key 1 is on the way; a remote clear
then makes an empty copy. -/
def clearForgotten : List (Action Bool) :=
  setFirst ++ [.deleteEntries, .deliver true, .deliver true,
    .call false (.setItem 1 [2] [20]), .handleRequest false, .resume false, .handleRequest false,
    .call false (.clear 1), .handleRequest false, .deliver true, .deliver true,
    .handleRequest true, .deliver true, .deliver true, .deliver false, .deliver false,
    .deliver false, .deliver false, .deliver false, .deliver false, .deliver false]

/-- The second process clears the area when the change of the key 1 has been answered, and then sets
the key 2 while the first process waits for the answer to its own change of it. -/
def clearThenSet : List (Action Bool) :=
  setFirst ++ [.handleRequest true, .deliver true, .deliver true, .deliver true,
    .call false (.clear 1), .handleRequest false, .deliver true,
    .call true (.setItem 1 [2] [20]), .call false (.setItem 1 [2] [30]), .handleRequest false,
    .deliver true]

/-- When the key 1 is set, the first process sets the key 2, and the second process clears the
area. -/
def setAndClear : List (Action Bool) :=
  setFirst ++ [.handleRequest true, .call false (.clear 1), .call true (.setItem 1 [2] [20]),
    .handleRequest false, .deliver true, .deliver true, .deliver true, .deliver true]

end

end QPlusWeb.Storage
