import QPlusWeb.StoragePendingValues

/-!
# Copies in step with the area

A loaded copy is what the process has been told about, with its own requests that are not answered
applied to it.  Local calls, answers and events keep it so, with two exceptions: a remote clear that
meets pending changes with values, and a remote clear that makes an empty copy in a process which
has forgotten its values while changes of an older seed are not answered.
-/

namespace QPlusWeb.Storage

open MapUpdates Runs List Option

/-! ### Effects of requests -/

def effects (requests : List Request) : List (Change Text Text) := requests.filterMap Request.change

section
variable {R R' : List Request} {r : Request} {b : Contents Text Text}

theorem effects_append : effects (R++R') = effects R++effects R' := filterMap_append

theorem applyAll_effects_cons : applyAll b (effects (r::R)) =
    applyAll (match r.change with | none => b | some c => c.apply b) (effects R) := by
  unfold effects
  cases h : r.change with
  | none => rw [filterMap_cons_none h]
  | some c =>
    rw [filterMap_cons_some h]
    rfl

theorem effects_eq_nil (h : ∀ r ∈ R, r.isGetValues) : effects R = [] := by
  rw [effects,filterMap_eq_nil_iff]
  intro r hr
  cases r with
  | getValues seed => rfl
  | setItem id seed key value | removeItem id seed key | clear id seed => cases h _ hr

theorem clear_mem_effects {id : ℕ+} {seed : ℕ} (h : Request.clear id seed ∈ R) :
    Change.clear ∈ effects R :=
  mem_filterMap.mpr ⟨_,h,rfl⟩

end

/-! ### The values of a reply -/

/-- The contents `x` when the request for the values was handled, with the requests `R₂` sent
afterwards. -/
def Snapshot (b : Contents Text Text) (D : List Message) (R : List Request) (seed : ℕ)
    (x : Contents Text Text) (R₂ : List Request) : Prop :=
  ∃ D₁ D₂, D = D₁ ++ .didGetValues seed :: D₂ ∧
    replayAll b R D₁ = some (x, .getValues seed :: R₂)

namespace Snapshot
variable {b b' x s : Contents Text Text} {D : List Message} {R R' R₂ : List Request} {seed : ℕ}
  {m : Message}

theorem append_messages (h : Snapshot b D R seed x R₂) (D' : List Message) :
    Snapshot b (D++D') R seed x R₂ := by
  obtain ⟨D₁,D₂,rfl,hr⟩ := h
  exact ⟨D₁,D₂++D',by rw [append_assoc,cons_append],hr⟩

theorem append_requests (h : Snapshot b D R seed x R₂) (rs : List Request) :
    Snapshot b D (R++rs) seed x (R₂++rs) := by
  obtain ⟨D₁,D₂,hD,hr⟩ := h
  exact ⟨D₁,D₂,hD,replayAll_append_requests hr rs⟩

theorem mem_requests (h : replayAll b R D = some (s,R')) {r : Request} (hr : r ∈ R') : r ∈ R := by
  induction D generalizing b R with
  | nil =>
    cases h
    exact hr
  | cons m D ih =>
    obtain ⟨⟨b',R''⟩,hn,hrest⟩ := bind_eq_some_iff.mp h
    have hm := ih hrest
    rcases replay_cases hn with ⟨-,rfl⟩ | ⟨-,rfl⟩ | ⟨q,rfl,-⟩
    · exact hm
    · exact hm
    · exact mem_cons_of_mem _ hm

theorem getValues_mem (h : Snapshot b D R seed x R₂) : Request.getValues seed ∈ R := by
  obtain ⟨D₁,D₂,-,hr⟩ := h
  exact mem_requests hr mem_cons_self

/-- Either the answer arrives now, or it is still on the way. -/
theorem deliver (h : Snapshot b (m::D) R seed x R₂) (hm : m.replay b R = some (b',R')) :
    (m = .didGetValues seed ∧ R = .getValues seed::R₂ ∧ x = b) ∨ Snapshot b' D R' seed x R₂ := by
  obtain ⟨D₁,D₂,hD,hr⟩ := h
  cases D₁ with
  | nil =>
    cases hD
    cases hr
    exact .inl ⟨rfl,rfl,rfl⟩
  | cons m' D₁ =>
    cases hD
    rw [replayAll,hm] at hr
    exact .inr ⟨D₁,D₂,rfl,hr⟩

end Snapshot

/-! ### Copies in step with the area -/

/-- A copy `c` with the unanswered requests `R` follows the contents `b` that the process has been
told about, with the messages `D` on the way. -/
structure Follows (b : Contents Text Text) (D : List Message) (c : StorageAreaMap)
    (R : List Request) : Prop where
  holds : ∀ m, c.storageMap = some m → c.hasPendingGetValues = false →
    m.Holds (applyAll b (effects R))
  current : c.storageMap ≠ none → c.hasPendingGetValues = false → c.hasPendingClear = false →
    ∀ r ∈ R, r.isGetValues = false → r.storageMapSeed = c.currentSeed
  loading : ∀ m, c.storageMap = some m → c.hasPendingGetValues = true →
    ∃ x R₂, Snapshot b D R c.currentSeed x R₂ ∧ m.Holds (applyAll x (effects R₂))

namespace Follows
variable {b b' : Contents Text Text} {D : List Message} {c : StorageAreaMap} {R R' : List Request}
  {m : StorageMap} {request : Option Request}

theorem of_unloaded (h : c.storageMap = none) : Follows b D c R where
  holds := fun _ hm => nomatch h.symm.trans hm
  current := fun hne => absurd h hne
  loading := fun _ hm => nomatch h.symm.trans hm

theorem of_loaded (hg : c.hasPendingGetValues = false) (hh : m.Holds (applyAll b (effects R)))
    (hc : c.hasPendingClear = false → ∀ r ∈ R, r.isGetValues = false →
      r.storageMapSeed = c.currentSeed) : Follows b D {c with storageMap := some m} R where
  holds := fun _ heq _ => by
    cases heq
    exact hh
  current := fun _ _ => hc
  loading := fun _ _ ht => nomatch hg.symm.trans ht

theorem append_messages (h : Follows b D c R) (D' : List Message) : Follows b (D++D') c R where
  __ := h
  loading := fun m hm hg => by
    obtain ⟨x,R₂,hs,hh⟩ := h.loading m hm hg
    exact ⟨x,R₂,hs.append_messages D',hh⟩

theorem clear (sourceArea : ℕ+) :
    Follows b D (c.clear sourceArea).1 (R++(c.clear sourceArea).2.toList) where
  holds := fun m hm _ => by
    cases hm
    rw [effects_append,applyAll_append]
    exact StorageMap.holds_create _
  current := nofun
  loading := nofun

theorem performed (h : Follows b D c R) (hm : c.storageMap = some m) {m' : StorageMap}
    (pendingValueChanges : List Text)
    (hmap : ∀ X, m.Holds X → m'.Holds (applyAll X (effects request.toList)))
    (hs : ∀ r ∈ request.toList, r.storageMapSeed = c.currentSeed) :
    Follows b D {c with storageMap := some m', pendingValueChanges} (R++request.toList) where
  holds := fun _ heq hg => by
    cases heq
    rw [effects_append,applyAll_append]
    exact hmap _ (h.holds m hm hg)
  current := fun _ hg hc => forall_mem_append.mpr
    ⟨h.current (hm ▸ some_ne_none m) hg hc,fun r hr _ => hs r hr⟩
  loading := fun _ heq hg => by
    cases heq
    obtain ⟨x,R₂,hsnap,hh⟩ := h.loading m hm hg
    refine ⟨x,_,hsnap.append_requests _,?_⟩
    rw [effects_append,applyAll_append]
    exact hmap _ hh

theorem perform {c' : StorageAreaMap} (h : Follows b D c R)
    (hp : Performs c c' request) : Follows b D c' (R++request.toList) := by
  cases hp with
  | nothing => exact (append_nil R).symm ▸ h
  | unchanged hm hputs hold =>
    refine h.performed hm c.pendingValueChanges (fun X hX => ?_) (by simp)
    have hX' := hX.put hputs
    rwa [Change.put_self ((hX.getItem _).symm.trans hold)] at hX'
  | changed hm hputs hs _ hc =>
    refine h.performed hm _ (fun X hX => ?_) (by simpa using hs)
    simpa [effects,hc] using hX.put hputs
  | clear sourceArea => exact clear sourceArea

/-- A message that neither changes the copy nor is the answer to the request for the values. -/
theorem of_messages {message : Message} (h : Follows b (message::D) c R)
    (hm : message.replay b R = some (b',R'))
    (hsub : ∀ r ∈ R', r ∈ R) (hne : message ≠ .didGetValues c.currentSeed)
    (hv : ∀ m, c.storageMap = some m → c.hasPendingGetValues = false →
      ∀ k, applyAll b (effects R) k = applyAll b' (effects R') k) : Follows b' D c R' where
  holds := fun m hm hg => (h.holds m hm hg).of_eq (hv m hm hg)
  current := fun hne hg hc r hr => h.current hne hg hc r (hsub r hr)
  loading := fun m hm' hg => by
    obtain ⟨x,R₂,hs,hh⟩ := h.loading m hm' hg
    rcases hs.deliver hm with ⟨heq,-⟩ | hs
    · exact absurd heq hne
    · exact ⟨x,R₂,hs,hh⟩

end Follows

/-! ### Answers -/

section
variable {b b' : Contents Text Text} {D : List Message} {c : StorageAreaMap} {R : List Request}
  {r : Request} {message : Message} {waiting : Bool}

theorem settle_eq (h : ∀ seed key, message ≠ .didSetItem seed key true) :
    applyAll b (effects (r::R)) = applyAll (message.settle b r) (effects R) := by
  rw [applyAll_effects_cons]
  cases message with
  | didSetItem seed key quotaError =>
    cases quotaError with
    | false => rfl
    | true => exact absurd rfl (h seed key)
  | didGetValues seed | didRemoveItem seed key | didClear seed
  | dispatchStorageEvent id key newValue | clearCache => rfl

/-- The requests behind one of the current seed are of the current seed. -/
theorem Books.seed_eq (h : Books c waiting (r::R)) (hs : r.storageMapSeed = c.currentSeed)
    {q : Request} (hq : q ∈ R) : q.storageMapSeed = c.currentSeed := by
  have hge := (pairwise_cons.mp h.sorted).1 q hq
  have hle := h.seeds q (mem_cons_of_mem _ hq)
  omega

/-- While a clear is not answered the contents that the process knows about do not matter. -/
theorem Books.applyAll_of_pendingClear (h : Books c waiting R) (hc : c.hasPendingClear)
    (b b' : Contents Text Text) : applyAll b (effects R) = applyAll b' (effects R) := by
  obtain ⟨id,hid⟩ := h.hasPendingClear_iff.mp hc
  exact applyAll_of_clear_mem b b' (clear_mem_effects hid)

theorem Follows.old_answer (h : Follows b (message::D) c (r::R)) (hb : Books c false (r::R))
    (hm : message.replay b (r::R) = some (b',R)) (ha : message.answers r)
    (hk : r.isGetValues = false) (hs : c.currentSeed ≠ r.storageMapSeed) :
    Follows b' D c R := by
  refine h.of_messages hm (fun q hq => mem_cons_of_mem _ hq) ?_ fun m hmap hg k => ?_
  · rintro rfl
    cases r with
    | getValues seed => cases hk
    | setItem id seed key value | removeItem id seed key | clear id seed => cases ha
  · cases hc : c.hasPendingClear with
    | false =>
      have hcurrent := h.current (by rw [hmap]; exact some_ne_none m) hg hc r mem_cons_self hk
      exact absurd hcurrent.symm hs
    | true =>
      rw [applyAll_effects_cons,(hb.tail hs).applyAll_of_pendingClear hc _ b']

/-- An answer that a change was made, to a request of the current seed. -/
theorem Follows.new_answer (h : Follows b (message::D) c (r::R))
    (hm : message.replay b (r::R) = some (message.settle b r,R))
    (hquota : ∀ seed key, message ≠ .didSetItem seed key true)
    (hne : message ≠ .didGetValues c.currentSeed) (pendingValueChanges : List Text) :
    Follows (message.settle b r) D {c with pendingValueChanges} R := by
  have hf := h.of_messages hm (fun q hq => mem_cons_of_mem _ hq) hne
    fun m hmap hg k => by rw [settle_eq hquota]
  exact ⟨hf.holds,hf.current,hf.loading⟩

/-- The answer to the clear: what follows are changes of the current seed. -/
theorem Follows.didClear {id : ℕ+}
    (h : Follows b (.didClear c.currentSeed::D) c (.clear id c.currentSeed::R))
    (hb : Books c false (.clear id c.currentSeed::R))
    (hm : (Message.didClear c.currentSeed).replay b (.clear id c.currentSeed::R) =
      some (.empty,R)) : Follows .empty D {c with hasPendingClear := false} R := by
  have hf := h.of_messages hm (fun q hq => mem_cons_of_mem _ hq)
    Message.noConfusion fun m hmap hg k => by rw [applyAll_effects_cons]; rfl
  exact ⟨hf.holds,fun _ _ _ q hq _ => hb.seed_eq rfl hq,hf.loading⟩

theorem Follows.didGetValues
    (h : Follows b (.didGetValues c.currentSeed::D) c (.getValues c.currentSeed::R))
    (hb : Books c false (.getValues c.currentSeed::R))
    (hm : (Message.didGetValues c.currentSeed).replay b (.getValues c.currentSeed::R) =
      some (b,R)) : Follows b D {c with hasPendingGetValues := false} R where
  holds := fun m hmap _ => by
    obtain ⟨x,R₂,hs,hh⟩ := h.loading m hmap hb.loaded.1
    rcases hs.deliver hm with ⟨-,hR,rfl⟩ | hs
    · cases hR
      exact hh
    · have hg := hb.loaded.2.hasPendingGetValues_iff.mpr hs.getValues_mem
      cases hg
  current := fun _ _ _ q hq _ => hb.seed_eq rfl hq
  loading := nofun

end

/-! ### Events of other processes -/

section
variable {b : Contents Text Text} {D : List Message} {c : StorageAreaMap} {R : List Request}
  {message : Message} {newValue : Option Text}

/-- Without a pending clear the requests change the keys with pending changes only. -/
theorem Follows.touches_iff (h : Follows b D c R) (hb : Books c false R)
    (hl : c.storageMap ≠ none) (hg : c.hasPendingGetValues = false)
    (hc : c.hasPendingClear = false) (k : Text) :
    (∃ d ∈ effects R, d.Touches k) ↔ k ∈ c.pendingValueChanges := by
  rw [← count_pos_iff,hb.changes k,countOf_pos]
  constructor
  · rintro ⟨d,hd,ht⟩
    obtain ⟨r,hr,hrd⟩ := mem_filterMap.mp hd
    refine ⟨r,hr,?_⟩
    cases r with
    | getValues seed => cases hrd
    | setItem id seed key value | removeItem id seed key =>
      cases hrd
      obtain rfl : key = k := ht
      exact ⟨h.current hl hg hc _ hr rfl,decide_eq_true rfl⟩
    | clear id seed =>
      obtain rfl : seed = c.currentSeed := h.current hl hg hc _ hr rfl
      have htrue := hb.hasPendingClear_iff.mpr ⟨id,hr⟩
      rw [hc] at htrue
      cases htrue
  · rintro ⟨r,hr,-,hk⟩
    obtain ⟨value,hv⟩ := keyChange_of_changedKey (of_decide_eq_true hk)
    refine ⟨.put k value,mem_filterMap.mpr ⟨r,hr,?_⟩,rfl⟩
    unfold Request.keyChange at hv
    split at hv
    next => exact hv
    next => cases hv

/-- The event is ignored: a clear or the values are pending, or the copy is not loaded. -/
theorem Follows.ignored (change : Change Text Text) (h : Follows b (message::D) c R)
    (hb : Books c false R) (hm : message.replay b R = some (change.apply b,R))
    (hne : message ≠ .didGetValues c.currentSeed)
    (hf : c.storageMap = none ∨ c.hasPendingClear ∨ c.hasPendingGetValues) :
    Follows (change.apply b) D c R := by
  refine h.of_messages hm (fun _ hq => hq) hne fun m hmap hg k => ?_
  rcases hf with hn | hc | ht
  · rw [hn] at hmap
    cases hmap
  · rw [hb.applyAll_of_pendingClear hc b (change.apply b)]
  · rw [hg] at ht
    cases ht

theorem applyAll_put_apply {changes : List (Change Text Text)} {key k : Text} {value : Option Text}
    (h : k ≠ key ∨ ∃ d ∈ changes, d.Touches k) :
    applyAll b changes k = applyAll ((Change.put key value).apply b) changes k := by
  rcases h with hne | ht
  · exact applyAll_congr (Change.put_apply_of_ne value hne).symm
  · exact applyAll_of_touched _ _ ht

theorem Follows.applyChange_key {key : Text} (h : Follows b (message::D) c R) (hb : Books c false R)
    (hm : message.replay b R = some ((Change.put key newValue).apply b,R))
    (hne : message ≠ .didGetValues c.currentSeed) :
    Follows ((Change.put key newValue).apply b) D (c.applyChange (some key) newValue) R := by
  unfold StorageAreaMap.applyChange
  split
  next hf => exact h.ignored _ hb hm hne (.inr (Bool.or_eq_true _ _ ▸ hf))
  next hf =>
    rw [Bool.or_eq_true,not_or,Bool.not_eq_true,Bool.not_eq_true] at hf
    obtain ⟨hc,hg⟩ := hf
    simp only
    split
    next hn => exact h.ignored _ hb hm hne (.inl hn)
    next m hmap =>
      have hl : c.storageMap ≠ none := by
        rw [hmap]
        exact some_ne_none m
      have ht := h.touches_iff hb hl hg hc key
      split
      next hp =>
        refine h.of_messages hm (fun _ hq => hq) hne fun m' _ _ k => applyAll_put_apply ?_
        by_cases hk : k = key
        · exact .inr (hk ▸ ht.mpr hp)
        · exact .inl hk
      next hp =>
        have hh := h.holds m hmap hg
        -- The key is not touched by the requests, so the event and the requests commute.
        have hv : ∀ k, (Change.put key newValue).apply (applyAll b (effects R)) k =
            applyAll ((Change.put key newValue).apply b) (effects R) k := by
          intro k
          by_cases hk : k = key
          · subst hk
            have hnot : ∀ d ∈ effects R, ¬d.Touches k := fun d hd hd' =>
              hp (ht.mp ⟨d,hd,hd'⟩)
            rw [applyAll_of_not_touched hnot,Change.put_apply_self,Change.put_apply_self]
          · rw [Change.put_apply_of_ne newValue hk]
            exact applyAll_put_apply (.inl hk)
        have hputs : ∀ m', m.Puts key newValue m' →
            Follows ((Change.put key newValue).apply b) D {c with storageMap := some m'} R :=
          fun m' h' => of_loaded hg ((hh.put h').of_eq hv) (h.current hl hg)
        split
        next => exact hputs _ (m.puts_removeItem key)
        next value => exact hputs _ (m.puts_setItemIgnoringQuota key value)

/-- A remote clear, with no pending change that has a value; a copy that is not loaded becomes an
empty one, if no change is unanswered. -/
theorem Follows.applyChange_clear (h : Follows b (message::D) c R)
    (hb : Books c false R) (hm : message.replay b R = some (.empty,R))
    (hne : message ≠ .didGetValues c.currentSeed)
    (hp : c.hasPendingClear = false → c.hasPendingGetValues = false →
      ∀ key ∈ c.pendingValueChanges, c.item key = none)
    (hu : c.hasPendingClear = false → c.hasPendingGetValues = false →
      c.storageMap = none → ∀ r ∈ R, r.isGetValues) :
    Follows .empty D (c.applyChange none newValue) R := by
  unfold StorageAreaMap.applyChange
  split
  next hf =>
    exact h.ignored .clear hb hm hne (.inr (Bool.or_eq_true _ _ ▸ hf))
  next hf =>
    rw [Bool.or_eq_true,not_or,Bool.not_eq_true,Bool.not_eq_true] at hf
    obtain ⟨hc,hg⟩ := hf
    rw [Held.keepPendingChanges_eq (hp hc hg)]
    cases hmap : c.storageMap with
    | none =>
      have ha := hu hc hg hmap
      refine of_loaded hg ?_ fun _ r hr hkind => nomatch (ha r hr).symm.trans hkind
      rw [effects_eq_nil ha]
      exact StorageMap.holds_create _
    | some m =>
      have hl : c.storageMap ≠ none := by
        rw [hmap]
        exact some_ne_none m
      refine of_loaded hg ((StorageMap.holds_create _).of_eq fun k => ?_) (h.current hl hg)
      by_cases hk : k ∈ c.pendingValueChanges
      · have hi := hp hc hg k hk
        have ht := (h.touches_iff hb hl hg hc k).mpr hk
        rw [StorageAreaMap.item,hmap,bind_some,(h.holds m hmap hg).getItem,
          applyAll_of_touched b .empty ht] at hi
        exact hi.symm
      · have hn : ∀ d ∈ effects R, ¬d.Touches k := fun d hd hd' =>
          hk ((h.touches_iff hb hl hg hc k).mp ⟨d,hd,hd'⟩)
        rw [applyAll_of_not_touched hn]

end

/-- Every message keeps the copy in step. -/
theorem Follows.receive {b b' : Contents Text Text} {D : List Message} {c : StorageAreaMap}
    {R R' : List Request} {message : Message} (h : Follows b (message::D) c R)
    (hb : Books c false R) (hm : message.replay b R = some (b',R'))
    (hk : c.appliesClear message → ∀ key ∈ c.pendingValueChanges, c.item key = none)
    (hl : c.appliesClear message → c.storageMap = none →
      ∀ r ∈ R, r.isGetValues) : Follows b' D (c.receive message) R' := by
  rcases replay_cases hm with ⟨⟨id,key,newValue,rfl,rfl⟩,rfl⟩ | ⟨⟨rfl,-⟩,rfl⟩ |
    ⟨r,rfl,ha,rfl⟩
  · simp only [StorageAreaMap.receive,StorageAreaMap.dispatchStorageEvent]
    split
    next hid =>
      subst hid
      cases key with
      | none =>
        have happlies : c.hasPendingClear = false → c.hasPendingGetValues = false →
            c.appliesClear (.dispatchStorageEvent 0 none newValue) := by
          intro hc hg
          simp [StorageAreaMap.appliesClear,hc,hg]
        exact h.applyChange_clear hb hm Message.noConfusion (fun hc hg => hk (happlies hc hg))
          (fun hc hg => hl (happlies hc hg))
      | some key => exact h.applyChange_key hb hm Message.noConfusion
    next hid =>
      have ho : (Message.dispatchStorageEvent id key newValue).replay b R' = some (b,R') := by
        rw [Message.replay,if_neg hid]
      exact h.of_messages ho (fun _ hq => hq) Message.noConfusion fun _ _ _ _ => rfl
  · exact Follows.of_unloaded rfl
  · cases answers_cases ha
    · simp only [StorageAreaMap.receive,StorageAreaMap.didGetValues]
      split
      next hs =>
        refine h.of_messages hm (fun q hq => mem_cons_of_mem _ hq) ?_ fun _ _ _ _ => rfl
        rintro ⟨⟩
        exact hs rfl
      next hs =>
        obtain rfl := not_not.mp hs
        exact h.didGetValues hb hm
    · simp only [StorageAreaMap.receive,StorageAreaMap.didSetItem]
      split
      next hs => exact h.old_answer hb hm ha rfl hs
      next hs =>
        split
        next => exact Follows.of_unloaded rfl
        next hquota =>
          refine h.new_answer hm (fun seed' key' => ?_) Message.noConfusion _
          rintro ⟨⟩
          exact hquota rfl
    · simp only [StorageAreaMap.receive,StorageAreaMap.didRemoveItem]
      split
      next hs => exact h.old_answer hb hm ha rfl hs
      next => exact h.new_answer hm (fun _ _ => Message.noConfusion) Message.noConfusion _
    · simp only [StorageAreaMap.receive,StorageAreaMap.didClear]
      split
      next hs => exact h.old_answer hb hm ha rfl hs
      next hs =>
        obtain rfl := not_not.mp hs
        exact h.didClear hb hm

end QPlusWeb.Storage
