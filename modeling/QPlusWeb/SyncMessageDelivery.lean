import QPlusWeb.SyncMessageOrder

/-!
# The messages of a connection arrive once and in order

From every state that is reached the run loop goes on by itself until every message has been
dispatched.  With the order of `SyncMessageOrder` this gives what a connection may rely on.
-/

namespace QPlusWeb.IPC.SyncMessageSystem

open SourceOrder Runs

variable {κ β : Type*} [DecidableEq κ] {s t : SyncMessageSystem κ β} {a : Action κ β}
  {syncRequestID : UInt64} {connection : κ} {caller : Caller κ}

/-! ### Steps of the run loop -/

/-- A step of the run loop, or the end of a `processIncomingMessage` that has begun. -/
def Finishing (_ : SyncMessageSystem κ β) : Action κ β → Prop
  | .wakeUpClientRunLoop | .callScheduledFunction | .takeMessages | .nextMessage | .putBack
  | .checkReply | .wait => True
  | _ => False

/-- The run loop gets from one state to the other without a new message, reply or timeout. -/
def Finishes (s t : SyncMessageSystem κ β) : Prop := Reaches step Finishing (· = s) t

theorem Finishes.refl (s : SyncMessageSystem κ β) : Finishes s s := .start rfl

theorem Finishes.cons {u : SyncMessageSystem κ β} (hstep : step s a = some t) (ha : Finishing s a)
    (h : Finishes t u) : Finishes s u := by
  have hs : Finishes s s := .refl s
  exact (hs.step ha hstep).trans h

theorem finishes_of_step {P : SyncMessageSystem κ β → Prop} (hs : step s a = some t)
    (ha : Finishing s a) (h : ∃ u, Finishes t u ∧ P u) : ∃ u, Finishes s u ∧ P u := by
  obtain ⟨u,hu,hP⟩ := h
  exact ⟨u,.cons hs ha hu,hP⟩

theorem Finishes.scheduled (h : Finishes s t) (hs : Scheduled s) : Scheduled t := by
  refine Reaches.invariant ?_ ?_ h
  · rintro s' rfl
    exact hs
  · intro s' a t' hs' _ hstep
    exact hs'.step (transition_of_step hstep)

theorem Finishes.received_eq (h : Finishes s t) : t.received = s.received := by
  refine Reaches.invariant (P := fun t => t.received = s.received) ?_ ?_ h
  · rintro s' rfl
    rfl
  · intro s' a t' hs' ha hs
    cases transition_of_step hs with
    | accept => exact ha.elim
    | other ho => exact ho.received.trans hs'
    | _ => exact hs'

/-! ### Calls of `dispatchMessages` -/

/-- The loop comes to its end; what is put back has not been allowed. -/
theorem finishes_dispatching (taken : List (κ × IncomingMessage β))
    {back : List (κ × IncomingMessage β)} (hp : s.phase = .dispatching caller taken back)
    (hb : ∀ item ∈ back, ¬caller.Allows item.1) :
    ∃ t, Finishes s t ∧ t.phase = Caller.continuation caller ∧
      t.scheduledFunctions = s.scheduledFunctions ∧
      ∃ others, t.messagesToDispatch = s.messagesToDispatch++others ∧
        ∀ item ∈ others, ¬caller.Allows item.1 := by
  induction taken generalizing s back with
  | nil =>
    have hs : step s .putBack = some {s with
        messagesToDispatch := s.messagesToDispatch++back
        phase := Caller.continuation caller} := by
      simp [step,SyncMessageSystem.putBack,hp]
    exact finishes_of_step hs trivial ⟨_,.refl _,rfl,rfl,back,rfl,hb⟩
  | cons item taken ih =>
    by_cases ha : caller.Allows item.1
    · have hs : step s .nextMessage = some {s with
          phase := .dispatching caller taken back
          dispatched := s.dispatched++[item]} := by
        simp only [step,nextMessage,hp,Caller.allows_iff.mpr ha]
        rfl
      exact finishes_of_step hs trivial (ih rfl hb)
    · have hany : caller.allowedConnection.any (· ≠ item.1) :=
        Bool.of_not_eq_false fun h => ha (Caller.allows_iff.mp h)
      have hs : step s .nextMessage = some {s with
          phase := .dispatching caller taken (back++[item])} := by
        simp only [step,nextMessage,hp,hany]
        rfl
      have hback' : ∀ other ∈ back++[item], ¬caller.Allows other.1 :=
        List.forall_mem_append.mpr ⟨hb,List.forall_mem_singleton.mpr ha⟩
      exact finishes_of_step hs trivial (ih rfl hback')

theorem finishes_due (hp : s.phase = .due caller) :
    ∃ t, Finishes s t ∧ t.phase = Caller.continuation caller ∧
      t.scheduledFunctions = s.scheduledFunctions ∧
      ∀ item ∈ t.messagesToDispatch, ¬caller.Allows item.1 := by
  have hs : step s .takeMessages = some {s with
      messagesToDispatch := [], phase := .dispatching caller s.messagesToDispatch []} := by
    simp [step,takeMessages,hp]
  refine finishes_of_step hs trivial ?_
  obtain ⟨t,hf,ht,hfuns,others,hm,ho⟩ := finishes_dispatching s.messagesToDispatch (s := {s with
        messagesToDispatch := [], phase := .dispatching caller s.messagesToDispatch []})
      rfl nofun
  refine ⟨t,hf,ht,hfuns,?_⟩
  rw [hm]
  exact ho

/-- The functions are called one after another. -/
theorem finishes_idle (functions : List κ) (hp : s.phase = .idle)
    (hf : s.scheduledFunctions = functions) :
    ∃ t, Finishes s t ∧ t.phase = .idle ∧ t.scheduledFunctions = [] := by
  induction functions generalizing s with
  | nil => exact ⟨s,.refl s,hp,hf⟩
  | cons connection functions ih =>
    have hs : step s .callScheduledFunction = some {s with
        didScheduleDispatchMessagesWorkSet := s.didScheduleDispatchMessagesWorkSet.erase connection
        scheduledFunctions := functions
        phase := .due (.scheduled connection)} := by
      simp [step,callScheduledFunction,hp,hf]
    refine finishes_of_step hs trivial ?_
    obtain ⟨t,hd,ht,htfunctions,-⟩ := finishes_due (s := {s with
        didScheduleDispatchMessagesWorkSet := s.didScheduleDispatchMessagesWorkSet.erase connection
        scheduledFunctions := functions
        phase := .due (.scheduled connection)}) rfl
    obtain ⟨u,hr,hu⟩ := ih ht htfunctions
    exact ⟨u,hd.trans hr,hu⟩

/-! ### Nothing remains -/

theorem finished_of_idle (h : Scheduled s) (hp : s.phase = .idle) :
    ∃ t, Finishes s t ∧ t.undispatched = [] := by
  obtain ⟨t,hf,ht,hfuns⟩ := finishes_idle s.scheduledFunctions hp rfl
  have hs := hf.scheduled h
  refine ⟨t,hf,?_⟩
  rw [undispatched,ht]
  refine List.eq_nil_iff_forall_not_mem.mpr fun item hm => ?_
  -- a message in the queue would have a function
  have hi := (hs.queued item hm).resolve_right (by rw [ht]; exact id)
  rw [← hs.mem_functions,hfuns] at hi
  cases hi

theorem finished_of_due_wait (hp : s.phase = .due (.waitForSyncReply connection syncRequestID)) :
    ∃ t, Finishes s t ∧ t.undispatched = [] := by
  obtain ⟨t,hf,ht,-,hm⟩ := finishes_due hp
  refine ⟨t,hf,?_⟩
  rw [undispatched,ht]
  exact List.eq_nil_iff_forall_not_mem.mpr fun item hmem =>
    hm item hmem (Caller.allows_waitForSyncReply _ _ _)

theorem finished_of_signalled
    (hp : s.phase = .waiting connection syncRequestID) (hsem : s.semaphore) :
    ∃ t, Finishes s t ∧ t.undispatched = [] := by
  have hs : step s .wait = some {s with
      semaphore := false, phase := .due (.waitForSyncReply connection syncRequestID)} := by
    simp [step,wait,hp,hsem]
  exact finishes_of_step hs trivial (finished_of_due_wait rfl)

theorem finished_of_waiting (h : Scheduled s) (hp : s.phase = .waiting connection syncRequestID) :
    ∃ t, Finishes s t ∧ t.undispatched = [] := by
  by_cases hm : s.messagesToDispatch = []
  · refine ⟨s,.refl s,?_⟩
    rw [undispatched,hp,hm]
    rfl
  · have hs := h.signalled hm (by rw [hp]; trivial)
    rcases hs with hsem | hw
    · exact finished_of_signalled hp hsem
    · have hstep : step s .wakeUpClientRunLoop =
          some {s with semaphore := true, wakeUps := s.wakeUps-1} := by
        simp [step,wakeUpClientRunLoop,hw.ne']
      exact finishes_of_step hstep trivial (finished_of_signalled hp rfl)

theorem checkReply_continues (hp : s.phase = .checkingReply connection syncRequestID) :
    ∃ t, s.checkReply = some t ∧
      (t.phase = .idle ∨ t.phase = .waiting connection syncRequestID) := by
  unfold checkReply
  rw [hp]
  dsimp only
  split
  · exact ⟨_,rfl,.inl rfl⟩
  · split
    · exact ⟨_,rfl,.inl rfl⟩
    · exact ⟨_,rfl,.inr rfl⟩

theorem finished_of_checkingReply (h : Scheduled s)
    (hp : s.phase = .checkingReply connection syncRequestID) :
    ∃ t, Finishes s t ∧ t.undispatched = [] := by
  obtain ⟨t,hstep,ht⟩ := checkReply_continues hp
  have hs : Scheduled t := h.step (a := .checkReply) (transition_of_step hstep)
  refine finishes_of_step (a := .checkReply) hstep trivial ?_
  rcases ht with ht | ht
  · exact finished_of_idle hs ht
  · exact finished_of_waiting hs ht

theorem finished_of_outside (h : Scheduled s) (ho : s.phase.Outside) :
    ∃ t, Finishes s t ∧ t.undispatched = [] := by
  cases hp : s.phase with
  | idle => exact finished_of_idle h hp
  | checkingReply connection syncRequestID => exact finished_of_checkingReply h hp
  | waiting connection syncRequestID => exact finished_of_waiting h hp
  | due caller | dispatching caller taken back =>
    rw [hp] at ho
    exact ho.elim

/-- The run loop dispatches every message without any further help. -/
theorem exists_finished (h : Scheduled s) : ∃ t, Finishes s t ∧ t.undispatched = [] := by
  obtain ⟨t,hf,hout⟩ : ∃ t, Finishes s t ∧ t.phase.Outside := by
    cases hp : s.phase with
    | due caller =>
      obtain ⟨t,hf,ht,-⟩ := finishes_due hp
      exact ⟨t,hf,ht ▸ continuation_outside caller⟩
    | dispatching caller taken back =>
      have ho := h.putsBackOthers
      rw [hp] at ho
      obtain ⟨t,hf,ht,-⟩ := finishes_dispatching taken hp ho
      exact ⟨t,hf,ht ▸ continuation_outside caller⟩
    | idle | checkingReply | waiting => exact ⟨s,.refl s,hp ▸ trivial⟩
  obtain ⟨u,hr,hu⟩ := finished_of_outside (hf.scheduled h) hout
  exact ⟨u,hf.trans hr,hu⟩

/-! ### What a connection may rely on -/

/-- The messages that are accepted. -/
def receivedBy : Action κ β → List (κ × IncomingMessage β)
  | .processIncomingMessage connection message =>
    if message.shouldDispatchMessageWhenWaitingForSyncReply then [(connection, message)] else []
  | _ => []

theorem received_step (h : step s a = some t) : t.received = s.received ++ receivedBy a := by
  cases a with
  | processIncomingMessage connection message =>
    cases h
    cases hm : message.shouldDispatchMessageWhenWaitingForSyncReply <;>
      simp [processIncomingMessage, receivedBy, hm]
  | _ =>
    refine Eq.trans ?_ (List.append_nil _).symm
    cases transition_of_step h with
    | other ho => exact ho.received
    | _ => rfl

/-- In every run in which no message arrives while earlier ones of its connection are to be put back:
the messages of a connection that have been dispatched, followed by those that have not, are those
that have been received; a connection with a message in the queue is in the work set, which is the set
of scheduled functions, or about to be served; and the run loop gets to a state in which every message
received so far has been dispatched. -/
theorem messages_dispatched_in_order {actions : List (Action κ β)}
    (ha : Allowed step Careful actions create) (hrun : run step actions create = some s) :
    s.received = actions.flatMap receivedBy ∧
      (∀ c, ofSource c s.received = ofSource c s.dispatched ++ ofSource c s.undispatched) ∧
      (¬s.phase.Dispatching → ∀ item ∈ s.messagesToDispatch,
        item.1 ∈ s.didScheduleDispatchMessagesWorkSet ∧ item.1 ∈ s.scheduledFunctions ∨
          s.phase.DueFor item.1) ∧
      ∃ t, Finishes s t ∧ ∀ c, ofSource c t.dispatched = ofSource c s.received := by
  have h : Reaches step Careful (· = create) s := .run (.start rfl) ha hrun
  have hs := reaches_scheduled h
  refine ⟨run_record received receivedBy (fun _ _ _ => received_step) hrun,
    (reaches_ordered h).received,?_,?_⟩
  · intro _ item hm
    refine (hs.queued item hm).imp_left fun hset => ?_
    exact ⟨hset,(hs.mem_functions item.1).mpr hset⟩
  · obtain ⟨t,hf,ht⟩ := exists_finished hs
    have hc : Reaches step Careful (· = s) t := by
      refine Reaches.mono ?_ hf
      intro s a ha
      cases a with
      | processIncomingMessage => exact ha.elim
      | _ => trivial
    have ho := reaches_ordered (h.trans hc)
    refine ⟨t,hf,fun c => ?_⟩
    rw [← hf.received_eq,ho.received c,ht,ofSource_nil,List.append_nil]

/-- While the message of the other connection is dispatched, a second message of that connection
arrives; the message of the first connection is put back behind nothing of its own. -/
theorem messages_dispatched_in_order_secondConnection :
    ∃ s : SyncMessageSystem Bool ℕ, Reaches step Careful (· = create) s ∧
      s.dispatched = [(false, ⟨true, 1⟩)] ∧
      s.messagesToDispatch = [(false, ⟨true, 3⟩), (true, ⟨true, 2⟩)] ∧
      (∀ c, ofSource c s.received = ofSource c s.dispatched ++ ofSource c s.undispatched) ∧
      ∃ t, Finishes s t ∧ ∀ c, ofSource c t.dispatched = ofSource c s.received := by
  let actions : List (Action Bool ℕ) :=
    [.processIncomingMessage false ⟨true,1⟩,.processIncomingMessage true ⟨true,2⟩,
      .callScheduledFunction,.takeMessages,.nextMessage,.processIncomingMessage false ⟨true,3⟩,
      .nextMessage,.putBack]
  have ha : Allowed step Careful actions create := by decide +kernel
  obtain ⟨s,hs,hd,hm⟩ : ∃ s ∈ run step actions create, s.dispatched = [(false,⟨true,1⟩)] ∧
        s.messagesToDispatch = [(false,⟨true,3⟩),(true,⟨true,2⟩)] := by
    decide +kernel
  have hstart : Reaches step Careful (· = create) (create : SyncMessageSystem Bool ℕ) := .start rfl
  obtain ⟨-,ho,-,hf⟩ := messages_dispatched_in_order ha hs
  exact ⟨s,hstart.run ha hs,hd,hm,ho,hf⟩

/-- A message that arrives while an earlier one of its connection is withheld overtakes it. -/
theorem withheld_message_overtaken :
    ∃ s : SyncMessageSystem Bool ℕ, Reaches step (fun _ _ => True) (· = create) s ∧
      ofSource true s.received = [⟨true, 2⟩, ⟨true, 3⟩] ∧
      ofSource true s.dispatched = [⟨true, 3⟩, ⟨true, 2⟩] := by
  let actions : List (Action Bool ℕ) :=
    [.processIncomingMessage false ⟨true,1⟩,.processIncomingMessage true ⟨true,2⟩,
      .callScheduledFunction,.takeMessages,.processIncomingMessage true ⟨true,3⟩,
      .nextMessage,.nextMessage,.putBack,
      .callScheduledFunction,.takeMessages,.nextMessage,.nextMessage]
  obtain ⟨s,hs,hl⟩ : ∃ s ∈ run step actions create, ofSource true s.received = [⟨true,2⟩,⟨true,3⟩] ∧
        ofSource true s.dispatched = [⟨true,3⟩,⟨true,2⟩] := by
    decide +kernel
  have hstart : Reaches step (fun _ _ => True) (· = create) (create : SyncMessageSystem Bool ℕ) :=
    .start rfl
  exact ⟨s,hstart.run (allowed_true _ _) hs,hl⟩

end QPlusWeb.IPC.SyncMessageSystem
