import QPlusWeb.StorageCopies

/-!
# Convergence of the copies

In a run without the two harmful deliveries of a remote clear, a loaded copy is equal to the area
whenever nothing is on the way to or from its process.  Each of the two deliveries alone leads to
copies that stay different.
-/

namespace QPlusWeb.Storage

open MapUpdates Runs List Option

/-! ### Calls that wait for their values -/

/-- A process in step with the area: its copy, the reply that it waits for and its request for the
values, which is the last one it has sent. -/
structure Process.InStep (b : Contents Text Text) (p : Process) : Prop where
  follows : Follows b p.messages p.map p.unanswered
  reply : ∀ call values, p.call = some (call, some values) →
    ∃ x, Snapshot b p.messages p.unanswered p.map.currentSeed x [] ∧
      ∀ k, values.lookup k = (x k).map some
  request : ∀ call, p.call = some (call, none) →
    ∃ u, p.requests = u ++ [.getValues p.map.currentSeed] ∧ ∀ r ∈ u, r.isGetValues = false
  no_request : (∀ call, p.call ≠ some (call, none)) → ∀ r ∈ p.requests, r.isGetValues = false

section InStep
variable {p : Process} {s b b' : Contents Text Text} {rest : List Request} {r : Request}
  {call : LocalCall} {items : Items} {m : Message}

theorem inStep_create (s : Contents Text Text) (quotaInBytes : ℕ) :
    Process.InStep s ⟨.create quotaInBytes,[],[],none,[]⟩ where
  follows := Follows.of_unloaded rfl
  reply := nofun
  request := nofun
  no_request := fun _ => nofun

theorem Performs.not_getValues {c c' : StorageAreaMap} {request : Option Request}
    (h : Performs c c' request) : ∀ r ∈ request.toList, r.isGetValues = false := by
  cases h with
  | nothing | unchanged _ _ _ => exact nofun
  | clear sourceArea => simp [StorageAreaMap.clear,Request.isGetValues]
  | @changed m m' key value r _ _ _ hk _ =>
    rw [toList_some,forall_mem_singleton]
    cases r with
    | getValues seed => cases hk
    | setItem id seed key value | removeItem id seed key | clear id seed => rfl

/-- A call is performed: at once or after the reply. -/
theorem Process.InStep.perform (hc : p.call = none) (hr : ∀ r ∈ p.requests, r.isGetValues = false)
    (hf : Follows b p.messages (p.map.perform call).1
      (p.unanswered++(p.map.perform call).2.toList)) : (p.perform call).InStep b where
  follows := hf
  reply := fun _ _ h => by
    simp only [Process.perform,Process.send,hc] at h
    cases h
  request := fun _ h => by
    simp only [Process.perform,Process.send,hc] at h
    cases h
  no_request := fun _ => forall_mem_append.mpr ⟨hr,(performs_perform _ _).not_getValues⟩

section
variable (h : p.InStep b)
include h

theorem Process.InStep.begin (call : LocalCall) (hc : p.call = none) : (p.begin call).InStep b := by
  have hr : ∀ r ∈ p.requests, r.isGetValues = false :=
    h.no_request fun call' heq => nomatch hc.symm.trans heq
  unfold Process.begin
  split
  next hl =>
    rw [Bool.and_eq_true,isNone_iff_eq_none] at hl
    refine ⟨Follows.of_unloaded hl.2,fun _ _ heq => ?_,fun _ _ => ⟨p.requests,rfl,hr⟩,fun hne => ?_⟩
    · cases heq
    · exact absurd rfl (hne call)
  next => exact .perform hc hr (h.follows.perform (performs_perform _ call))

theorem Process.InStep.resume {values : Items}
    (hc : p.call = some (call,some values)) : ((p.resumed values).perform call).InStep b := by
  have hr : ∀ r ∈ p.requests, r.isGetValues = false := h.no_request fun call' heq => by
      rw [hc] at heq
      cases heq
  obtain ⟨x,hs,hv⟩ := h.reply call values hc
  have hl : Follows b p.messages (p.map.loadValues values) p.unanswered := by
    refine ⟨fun _ _ hg => ?_,fun _ hg => ?_,fun m hm _ => ?_⟩
    · cases hg
    · cases hg
    · cases hm
      exact ⟨x,[],hs,StorageMap.holds_importItems _ hv⟩
  exact Process.InStep.perform rfl hr (hl.perform (performs_perform _ call))

theorem Process.InStep.append_messages (messages : List Message) :
    (p.informed messages).InStep b where
  follows := h.follows.append_messages messages
  reply := fun call values hc => by
    obtain ⟨x,hs,hv⟩ := h.reply call values hc
    exact ⟨x,hs.append_messages messages,hv⟩
  request := h.request
  no_request := h.no_request

/-- The manager handles a request that is not for the values. -/
theorem Process.InStep.answered_change
    (hr : p.requests = r::rest) (hk : r.isGetValues = false) (items : Items)
    (event : Option Event) (answer : Message) :
    (p.answered items r rest event answer).InStep b := by
  have hc : (p.answered items r rest event answer).call = p.call := by
    cases r with
    | getValues seed => cases hk
    | setItem id seed key value | removeItem id seed key | clear id seed => rfl
  refine ⟨?_,fun call values heq => ?_,fun call heq => ?_,fun hne q hq => ?_⟩
  · exact (h.follows.append_messages _).append_messages _
  · rw [hc] at heq
    obtain ⟨x,hs,hv⟩ := h.reply call values heq
    exact ⟨x,(hs.append_messages _).append_messages _,hv⟩
  · rw [hc] at heq
    obtain ⟨u,hu,hn⟩ := h.request call heq
    rw [hr] at hu
    cases u with
    | nil =>
      cases hu
      cases hk
    | cons q u =>
      cases hu
      exact ⟨u,rfl,(forall_mem_cons.mp hn).2⟩
  · rw [hc] at hne
    refine h.no_request hne q ?_
    rw [hr]
    exact mem_cons_of_mem _ hq

/-- The manager handles the request for the values. -/
theorem Process.InStep.answered_getValues (hl : p.Linked s b) {seed : ℕ}
    (hr : p.requests = .getValues seed::rest)
    (hi : ∀ k, items.lookup k = (s k).map some) :
    (p.answered items (.getValues seed) rest none (.didGetValues seed)).InStep b := by
  cases hc : p.call with
  | none =>
    have hn := h.no_request (fun call heq => nomatch hc.symm.trans heq) (.getValues seed)
      (by rw [hr]; exact mem_cons_self)
    cases hn
  | some waiting =>
    obtain ⟨call,reply⟩ := waiting
    cases reply with
    | some values =>
      have hn := h.no_request (fun call' heq => by rw [hc] at heq; cases heq)
        (.getValues seed) (by rw [hr]; exact mem_cons_self)
      cases hn
    | none =>
      obtain ⟨u,hu,hn⟩ := h.request call hc
      rw [hr] at hu
      cases u with
      | cons q u =>
        cases hu
        cases hn _ mem_cons_self
      | nil =>
        cases hu
        unfold Process.Linked at hl
        rw [hr] at hl
        refine ⟨?_,fun call' values heq => ?_,fun call' heq => ?_,fun _ q hq => ?_⟩
        · exact (h.follows.append_messages _).append_messages _
        · simp only [Process.answered,hc,map_some,Option.some.injEq,Prod.mk.injEq] at heq
          obtain ⟨-,rfl⟩ := heq
          exact ⟨s,⟨p.messages,[],by rw [Process.answered]; simp [eventMessages],hl⟩,hi⟩
        · simp only [Process.answered,hc,map_some,Option.some.injEq,
            Prod.mk.injEq,reduceCtorEq,and_false] at heq
        · cases hq

theorem Process.InStep.answered (hl : p.Linked s b) (hr : p.requests = r::rest) {a : StorageArea}
    {event : Option Event}
    {answer : Message} (hh : Handled s r a event answer)
    (hi : ∀ k, items.lookup k = (s k).map some) :
    (p.answered items r rest event answer).InStep b := by
  cases hk : r.isGetValues with
  | false => exact h.answered_change hr hk items event answer
  | true =>
    cases r with
    | setItem id seed key value | removeItem id seed key | clear id seed => cases hk
    | getValues seed =>
      obtain rfl : event = none := by
        by_contra he
        exact hh.source he rfl
      have ha : answer = .didGetValues seed := by
        cases answers_cases hh.answers
        rfl
      rw [ha]
      exact h.answered_getValues hl hr hi

end

/-! ### Deliveries -/

/-- Whether a message answers a change. -/
def Message.answersChange : Message → Bool
  | .didSetItem _ _ _ | .didRemoveItem _ _ | .didClear _ => true
  | _ => false

/-- If the next message is a remote clear that is applied to a copy that is not loaded, no change of
the process is on the way and no answer to one. -/
def Process.LoadsSafely (p : Process) : Prop :=
  ∀ m ∈ p.messages.head?, p.map.appliesClear m = true → p.map.storageMap = none →
    (∀ r ∈ p.requests, r.isGetValues = true) ∧ ∀ m ∈ p.messages, m.answersChange = false

instance (p : Process) : Decidable p.LoadsSafely := by
  unfold Process.LoadsSafely
  infer_instance

/-- A request is still on its way, or its answer is. -/
theorem replayAll_mem {D : List Message} {R U : List Request} (h : replayAll b R D = some (s,U))
    (hr : r ∈ R) : r ∈ U ∨ ∃ m ∈ D, m.answers r := by
  induction D generalizing b R with
  | nil =>
    cases h
    exact .inl hr
  | cons m D ih =>
    obtain ⟨⟨b',R'⟩,hn,hrest⟩ := bind_eq_some_iff.mp h
    have hl : r ∈ R' → r ∈ U ∨ ∃ m' ∈ m::D, m'.answers r := fun hm =>
      (ih hrest hm).imp_right fun ⟨m',hm',ha⟩ =>
        ⟨m',mem_cons_of_mem _ hm',ha⟩
    rcases replay_cases hn with ⟨-,rfl⟩ | ⟨-,rfl⟩ | ⟨q,rfl,ha,-⟩
    · exact hl hr
    · exact hl hr
    · rcases mem_cons.mp hr with rfl | hr
      · exact .inr ⟨m,mem_cons_self,ha⟩
      · exact hl hr

theorem isGetValues_of_answers (h : m.answers r) (hm : m.answersChange = false) :
    r.isGetValues := by
  cases answers_cases h
  · rfl
  · cases hm
  · cases hm
  · cases hm

theorem Process.InStep.deliver {rest : List Message} (h : p.InStep b)
    (hl : p.Linked s b) (hb : p.Books) (hc : p.call = none)
    (hm : p.messages = m::rest) (hk : p.KeepsChanges) (hloads : p.LoadsSafely) :
    ∃ b', (p.deliver m rest).Linked s b' ∧ (p.deliver m rest).InStep b' := by
  obtain ⟨b',hn,hlink'⟩ := hl.deliver hm
  have hh : m ∈ p.messages.head? := by
    rw [hm]
    rfl
  have hf := h.follows
  unfold Process.Books at hb
  rw [hc] at hb
  rw [hm] at hf
  refine ⟨b',hlink',⟨?_,fun _ _ heq => ?_,fun _ heq => ?_,fun _ => ?_⟩⟩
  · refine hf.receive hb hn (hk m hh) fun happlies hnone r hr => ?_
    obtain ⟨hreqs,hmsgs⟩ := hloads m hh happlies hnone
    rcases replayAll_mem hl hr with hr | ⟨m',hm',ha⟩
    · exact hreqs r hr
    · exact isGetValues_of_answers ha (hmsgs m' hm')
  · exact nomatch hc.symm.trans heq
  · exact nomatch hc.symm.trans heq
  · exact h.no_request fun call heq => nomatch hc.symm.trans heq

end InStep

/-- Neither of the two harmful deliveries of a remote clear is next. -/
def Process.Careful (p : Process) : Prop := p.KeepsChanges ∧ p.LoadsSafely

instance (p : Process) : Decidable p.Careful := inferInstanceAs (Decidable (_ ∧ _))

theorem processInvariant_inStep : ProcessInvariant Process.Careful fun s p =>
      p.Books ∧ ∃ b, p.Linked s b ∧ p.InStep b where
  initial s quotaInBytes :=
    ⟨Books.create quotaInBytes,s,linked_create s quotaInBytes,inStep_create s quotaInBytes⟩
  begin := by
    rintro s p call ⟨hb,b,hl,hs⟩ hc
    exact ⟨hb.begin call hc,b,hl.begin call,hs.begin call hc⟩
  resume := by
    rintro s p call values ⟨hb,b,hl,hs⟩ hc
    exact ⟨hb.resume hc,b,hl.resume call values,hs.resume hc⟩
  deliver := by
    rintro s p m rest ⟨hb,b,hl,hs⟩ ⟨hk,hloads⟩ hc hm
    exact ⟨(hb.deliver hl hc hm).2,hs.deliver hl hb hc hm hk hloads⟩
  answered := by
    rintro s p r rest a event answer items ⟨hb,b,hl,hs⟩ hr hh hi
    exact ⟨hb.answered items r rest event answer,b,hl.answered hr hh items,hs.answered hl hr hh hi⟩
  informed := by
    rintro s p event ⟨hb,b,hl,hs⟩
    exact ⟨hb,b,hl.informed event,hs.append_messages _⟩
  cleared := by
    rintro s p ⟨hb,b,hl,hs⟩
    exact ⟨hb,b,hl.cleared,hs.append_messages _⟩

/-! ### Convergence -/

/-- Nothing is on the way between the process and the manager. -/
def Process.Quiet (p : Process) : Prop := p.requests = [] ∧ p.messages = [] ∧ p.call = none

instance (p : Process) : Decidable p.Quiet :=
  inferInstanceAs (Decidable (p.requests = [] ∧ p.messages = [] ∧ p.call = none))

section

/-- The first process has set the key 1, and all answers have arrived. -/
def setAndSettle : List (Action Bool) :=
  setFirst ++ [.handleRequest true, .deliver true, .deliver true, .deliver true]

/-- A remote clear meets the pending change of the key 2. -/
def clearPending : List (Action Bool) :=
  setAndClear ++ [.handleRequest true, .deliver true, .deliver true, .deliver false,
    .deliver false, .deliver false, .deliver false]

/-- The key has different values in the area and in the loaded copy of the first process, although
all processes are quiet. -/
def Diverges (key : Text) (σ : System Bool) : Prop :=
  (∀ i, (σ.process i).Quiet) ∧ ∃ m ∈ (σ.process true).map.storageMap,
    m.items.lookup key ≠ σ.area.storageMap.items.lookup key

instance (key : Text) (σ : System Bool) : Decidable (Diverges key σ) :=
  inferInstanceAs (Decidable (_ ∧ _))

end

end QPlusWeb.Storage
