import QPlusWeb.SyncMessageSteps

/-!
# The order in which a run loop dispatches messages

A message is never lost or dispatched twice, and a connection with messages in the queue has a
function scheduled that will dispatch them.  The order of the messages of one connection is kept as
long as none arrives while `dispatchMessages` is going to put earlier ones back: they are put back
behind it.
-/

namespace QPlusWeb.IPC.SyncMessageSystem

open SourceOrder Runs List

/-! ### The phases -/

section

variable {κ β : Type*} {s : SyncMessageSystem κ β} {c : κ}
  {before after phase : RunLoopPhase κ β}

/-- The messages to put back are not those that are being dispatched. -/
def PutsBackOthers : RunLoopPhase κ β → Prop
  | .dispatching caller _ messagesToPutBack => ∀ item ∈ messagesToPutBack, ¬caller.Allows item.1
  | _ => True

theorem PutsBackOthers.of_not_dispatching (h : ¬phase.Dispatching) : PutsBackOthers phase := by
  cases phase with
  | dispatching => exact (h trivial).elim
  | _ => trivial

theorem held_of_not_dispatching (h : ¬phase.Dispatching) : phase.held = [] := by
  cases phase with
  | dispatching => exact (h trivial).elim
  | _ => rfl

theorem not_withholds_of_not_dispatching (h : ¬phase.Dispatching) (c : κ) : ¬phase.Withholds c := by
  cases phase with
  | dispatching => exact (h trivial).elim
  | _ => exact id

theorem continuation_outside (caller : Caller κ) :
    (Caller.continuation caller : RunLoopPhase κ β).Outside := by
  cases caller <;> trivial

section
variable (h : Moves before after)
include h

theorem Moves.not_dispatching : after = before ∨ ¬before.Dispatching ∧ ¬after.Dispatching := by
  cases h with
  | stays => exact .inl rfl
  | outside hb ha => exact .inr ⟨hb.not_dispatching,ha.not_dispatching⟩
  | calls _ _ hb => exact .inr ⟨hb.not_dispatching,id⟩

theorem Moves.held_eq : after.held = before.held := by
  rcases h.not_dispatching with rfl | ⟨hb,ha⟩
  · rfl
  · rw [held_of_not_dispatching hb,held_of_not_dispatching ha]

theorem Moves.withholds (hw : after.Withholds c) : before.Withholds c := by
  rcases h.not_dispatching with rfl | ⟨-,ha⟩
  · exact hw
  · exact (not_withholds_of_not_dispatching ha c hw).elim

theorem Moves.dueFor (hd : before.DueFor c) : after.DueFor c := by
  cases h with
  | stays => exact hd
  | outside hb | calls _ _ hb => exact (hb.not_dueFor c hd).elim

theorem Moves.awaitsReply (ha : after.AwaitsReply) : before.AwaitsReply := by
  cases h with
  | stays => exact ha
  | outside _ _ hb => exact hb ha
  | calls => exact ha.elim

end

/-- A loop iteration withholds no message that was not withheld before. -/
theorem withholds_of_next {caller : Caller κ} {item : κ × IncomingMessage β}
    {taken back back' : List (κ × IncomingMessage β)}
    (hp : s.phase = .dispatching caller (item::taken) back)
    (hb : ∀ other ∈ back', other ∈ back ∨ other = item)
    (h : (RunLoopPhase.dispatching caller taken back').Withholds c) : s.phase.Withholds c := by
  obtain ⟨ha,other,hm,hc⟩ := h
  rw [hp]
  refine ⟨ha,other,?_,hc⟩
  rcases mem_append.mp hm with hm | hm
  · rcases hb other hm with hm | rfl
    · exact mem_append_left _ hm
    · exact mem_append_right _ mem_cons_self
  · exact mem_append_right _ (mem_cons_of_mem _ hm)

end

variable {κ β : Type*} [DecidableEq κ] {s t : SyncMessageSystem κ β} {a : Action κ β}
  {allowed : SyncMessageSystem κ β → Action κ β → Prop} {caller : Caller κ}

theorem PutsBackOthers.step (h : PutsBackOthers s.phase) (hs : Transition s a t) :
    PutsBackOthers t.phase := by
  cases hs with
  | accept => exact h
  | call => trivial
  | take => exact nofun
  | hold hp ha =>
    rw [hp] at h
    exact forall_mem_append.mpr ⟨h,forall_mem_singleton.mpr ha⟩
  | dispatch hp =>
    rw [hp] at h
    exact h
  | putBack => exact .of_not_dispatching (continuation_outside _).not_dispatching
  | other ho =>
    rcases ho.moves.not_dispatching with hp | ⟨-,hafter⟩
    · rwa [hp]
    · exact .of_not_dispatching hafter

/-! ### Scheduled functions -/

/-- The work set is the set of connections with a scheduled function.  Every message in the queue has
a function or is about to be dispatched, and so will have the messages that are put back. -/
structure Scheduled (s : SyncMessageSystem κ β) : Prop where
  mem_functions : ∀ c, c ∈ s.scheduledFunctions ↔ c ∈ s.didScheduleDispatchMessagesWorkSet
  nodup : s.scheduledFunctions.Nodup
  queued : ∀ item ∈ s.messagesToDispatch,
    item.1 ∈ s.didScheduleDispatchMessagesWorkSet ∨ s.phase.DueFor item.1
  withheld : ∀ c, s.phase.Withholds c → c ∈ s.didScheduleDispatchMessagesWorkSet
  putsBackOthers : PutsBackOthers s.phase
  signalled : s.messagesToDispatch ≠ [] → s.phase.AwaitsReply → s.Signalled

omit [DecidableEq κ] in
theorem scheduled_create : Scheduled (create : SyncMessageSystem κ β) where
  mem_functions := fun c => by simp [create]
  nodup := nodup_nil
  queued := nofun
  withheld := fun _ h => h.elim
  putsBackOthers := trivial
  signalled := fun h => (h rfl).elim

section
variable (h : Scheduled s)
include h

theorem Scheduled.accept (connection : κ) (message : IncomingMessage β) : Scheduled {s with
      didScheduleDispatchMessagesWorkSet := insert connection s.didScheduleDispatchMessagesWorkSet
      scheduledFunctions :=
        if connection ∈ s.didScheduleDispatchMessagesWorkSet then s.scheduledFunctions
        else s.scheduledFunctions++[connection]
      messagesToDispatch := s.messagesToDispatch++[(connection,message)]
      wakeUps := s.wakeUps+1
      received := s.received++[(connection,message)]} where
  mem_functions := by
    intro c
    have hm := h.mem_functions c
    split
    next hs => rw [hm,Finset.insert_eq_of_mem hs]
    next => rw [mem_append,hm,mem_singleton,Finset.mem_insert,or_comm]
  nodup := by
    split
    next => exact h.nodup
    next hs =>
      refine nodup_append.mpr ⟨h.nodup,nodup_singleton _,?_⟩
      intro c hc c' hc' heq
      rw [mem_singleton.mp hc'] at heq
      exact hs ((h.mem_functions connection).mp (heq ▸ hc))
  queued := forall_mem_append.mpr
    ⟨fun item hm => (h.queued item hm).imp_left (Finset.mem_insert_of_mem ·),
      forall_mem_singleton.mpr (.inl (Finset.mem_insert_self _ _))⟩
  withheld := fun c hc => Finset.mem_insert_of_mem (h.withheld c hc)
  putsBackOthers := h.putsBackOthers
  signalled := fun _ _ => .inr (Nat.succ_pos _)

theorem Scheduled.call {connection : κ} {functions : List κ}
    (hp : s.phase = .idle) (hf : s.scheduledFunctions = connection::functions) :
    Scheduled {s with
      didScheduleDispatchMessagesWorkSet := s.didScheduleDispatchMessagesWorkSet.erase connection
      scheduledFunctions := functions
      phase := .due (.scheduled connection)} := by
  have hn := h.nodup
  rw [hf,nodup_cons] at hn
  constructor
  case mem_functions =>
    intro c
    rw [Finset.mem_erase,← h.mem_functions c,hf,mem_cons]
    constructor
    · intro hc
      exact ⟨fun heq => hn.1 (heq ▸ hc),.inr hc⟩
    · rintro ⟨hne,hc⟩
      exact hc.resolve_left hne
  case nodup => exact hn.2
  case queued =>
    intro item hm
    by_cases hc : connection = item.1
    · exact .inr (Caller.allows_scheduled.mpr hc)
    · have hi := (h.queued item hm).resolve_right (by rw [hp]; exact id)
      exact .inl (Finset.mem_erase.mpr ⟨Ne.symm hc,hi⟩)
  case withheld => exact fun _ hc => hc.elim
  case putsBackOthers => trivial
  case signalled => exact fun _ ha => ha.elim

omit [DecidableEq κ] in
theorem Scheduled.take (hp : s.phase = .due caller) : Scheduled {s with
      messagesToDispatch := [], phase := .dispatching caller s.messagesToDispatch []} where
  mem_functions := h.mem_functions
  nodup := h.nodup
  queued := nofun
  withheld := by
    rintro c ⟨ha,item,hm,rfl⟩
    have hi := h.queued item hm
    rw [hp] at hi
    exact hi.resolve_right ha
  putsBackOthers := nofun
  signalled := fun hne => (hne rfl).elim

omit [DecidableEq κ] in
/-- The iterations of the loop leave the queue and the functions as they are. -/
theorem Scheduled.next {item : κ × IncomingMessage β}
    {taken back back' dispatched : List (κ × IncomingMessage β)}
    (hp : s.phase = .dispatching caller (item::taken) back)
    (hb : ∀ other ∈ back', other ∈ back ∨ other = item)
    (hothers : PutsBackOthers (.dispatching caller taken back')) :
    Scheduled {s with phase := .dispatching caller taken back', dispatched := dispatched} where
  mem_functions := h.mem_functions
  nodup := h.nodup
  queued := by
    intro other hm
    have ho := h.queued other hm
    rw [hp] at ho
    exact ho
  withheld := fun c hc => h.withheld c (withholds_of_next hp hb hc)
  putsBackOthers := hothers
  signalled := by
    intro hne ha
    refine h.signalled hne ?_
    rw [hp]
    cases caller with
    | scheduled => exact ha.elim
    | waitForSyncReply => trivial

omit [DecidableEq κ] in
theorem Scheduled.putBack
    {back : List (κ × IncomingMessage β)} (hp : s.phase = .dispatching caller [] back) :
    Scheduled {s with
      messagesToDispatch := s.messagesToDispatch++back, phase := Caller.continuation caller} := by
  have hout : (Caller.continuation caller : RunLoopPhase κ β).Outside := continuation_outside caller
  have ho := h.putsBackOthers
  rw [hp] at ho
  constructor
  case mem_functions => exact h.mem_functions
  case nodup => exact h.nodup
  case queued =>
    intro item hm
    rcases mem_append.mp hm with hm | hm
    · have hi := h.queued item hm
      rw [hp] at hi
      exact .inl (hi.resolve_right id)
    · refine .inl (h.withheld item.1 ?_)
      rw [hp]
      exact ⟨ho item hm,item,mem_append_left _ hm,rfl⟩
  case withheld =>
    exact fun c hc => (not_withholds_of_not_dispatching hout.not_dispatching c hc).elim
  case putsBackOthers => exact .of_not_dispatching hout.not_dispatching
  case signalled =>
    intro hne ha
    cases caller with
    | scheduled => exact ha.elim
    | waitForSyncReply connection syncRequestID =>
      -- nothing is put back, so the messages have arrived during the call
      have hn : back = [] := eq_nil_iff_forall_not_mem.mpr fun item hm =>
          ho item hm (Caller.allows_waitForSyncReply _ _ _)
      rw [hn,append_nil] at hne
      refine h.signalled hne ?_
      rw [hp]
      trivial

omit [DecidableEq κ] in
theorem Scheduled.unaffected (ho : Unaffected s t)
    (hothers : PutsBackOthers t.phase) : Scheduled t where
  mem_functions := by
    rw [ho.functions,ho.workSet]
    exact h.mem_functions
  nodup := by
    rw [ho.functions]
    exact h.nodup
  queued := by
    rw [ho.messages,ho.workSet]
    exact fun item hm => (h.queued item hm).imp_right ho.moves.dueFor
  withheld := by
    rw [ho.workSet]
    exact fun c hc => h.withheld c (ho.moves.withholds hc)
  putsBackOthers := hothers
  signalled := by
    intro hne ha
    rw [ho.messages] at hne
    exact ho.signalled (h.signalled hne (ho.moves.awaitsReply ha)) ha

theorem Scheduled.step (hs : Transition s a t) : Scheduled t := by
  have ho := h.putsBackOthers.step hs
  cases hs with
  | accept => exact h.accept _ _
  | call hp hf => exact h.call hp hf
  | take hp => exact h.take hp
  | hold hp =>
    refine h.next hp (fun other hm => ?_) ho
    exact (mem_append.mp hm).imp_right mem_singleton.mp
  | dispatch hp => exact h.next hp (fun _ => .inl) ho
  | putBack hp => exact h.putBack hp
  | other hother => exact h.unaffected hother ho

end

/-! ### Every message is dispatched once -/

/-- The messages that have not been dispatched. -/
def undispatched (s : SyncMessageSystem κ β) : List (κ × IncomingMessage β) :=
  s.phase.held ++ s.messagesToDispatch

/-! ### The order of the messages of a connection -/

/-- The message arrives while no earlier message of its connection is going to be put back. -/
def Careful (s : SyncMessageSystem κ β) : Action κ β → Prop
  | .processIncomingMessage connection message =>
    message.shouldDispatchMessageWhenWaitingForSyncReply = true → ¬s.phase.Withholds connection
  | _ => True

instance (s : SyncMessageSystem κ β) (a : Action κ β) : Decidable (s.Careful a) :=
  match a with
  | .processIncomingMessage connection message =>
    inferInstanceAs (Decidable (message.shouldDispatchMessageWhenWaitingForSyncReply = true →
      ¬s.phase.Withholds connection))
  | .wakeUpClientRunLoop | .processIncomingSyncReply _ _ _ | .connectionDidClose _ | .invalidate _
  | .callScheduledFunction | .sendSyncMessage _ _ | .takeMessages | .nextMessage | .putBack
  | .checkReply | .wait | .waitTimesOut => inferInstanceAs (Decidable True)

/-- What has been dispatched of a connection, what is held and what is in the queue is what has been
received, in this order. -/
structure Ordered (s : SyncMessageSystem κ β) : Prop where
  received : ∀ c, ofSource c s.received = ofSource c s.dispatched ++ ofSource c s.undispatched
  apart : ∀ c, s.phase.Withholds c → ofSource c s.messagesToDispatch = []

theorem ordered_create : Ordered (create : SyncMessageSystem κ β) :=
  ⟨fun _ => rfl,fun _ h => h.elim⟩

theorem Ordered.received_step (h : Ordered s) (ho : PutsBackOthers s.phase)
    (hs : Transition s a t) (c : κ) :
    ofSource c t.received = ofSource c t.dispatched++ofSource c t.undispatched := by
  have hr := h.received c
  unfold undispatched at hr ⊢
  cases hs with
  | accept => simp [hr]
  | call hp => rwa [hp] at hr
  | take hp =>
    rw [hp] at hr
    simpa only [RunLoopPhase.held,nil_append,append_nil] using hr
  | hold hp =>
    rw [hp] at hr
    simpa only [RunLoopPhase.held,append_assoc,singleton_append] using hr
  | @dispatch caller item taken back hp hallows =>
    rw [hp] at hr ho
    simp only [RunLoopPhase.held,ofSource_append,ofSource_cons c item taken,append_assoc] at hr ⊢
    rw [hr]
    by_cases hc : item.1 = c
    · -- no earlier message of the connection is put back
      have hb : ofSource c back = [] := by
        refine ofSource_eq_nil.mpr fun other hm heq => ho other hm ?_
        rwa [heq,← hc]
      rw [hb,nil_append,nil_append]
    · rw [ofSource_singleton_of_ne hc,nil_append,nil_append]
  | @putBack caller back hp =>
    have ha := h.apart c
    rw [hp] at hr ho ha
    rw [(continuation_outside _).held_eq,nil_append]
    simp only [RunLoopPhase.held,ofSource_append,append_nil] at hr ⊢
    rw [hr]
    by_cases hb : ofSource c back = []
    · rw [hb,nil_append,append_nil]
    · obtain ⟨item,hm,hc⟩ : ∃ item ∈ back, item.1 = c := by
        by_contra hn
        exact hb (ofSource_eq_nil.mpr fun item hm hc => hn ⟨item,hm,hc⟩)
      have hw : (RunLoopPhase.dispatching caller [] back).Withholds c :=
        ⟨hc ▸ ho item hm,item,mem_append_left _ hm,hc⟩
      rw [ha hw,append_nil,nil_append]
  | other hother => rwa [hother.dispatched,hother.received,hother.messages,hother.moves.held_eq]

theorem Ordered.apart_step (h : Ordered s) (hcareful : s.Careful a) (hs : Transition s a t) (c : κ)
    (hc : t.phase.Withholds c) : ofSource c t.messagesToDispatch = [] := by
  cases hs with
  | @accept connection message hm =>
    have hne : connection ≠ c := by
      rintro rfl
      exact hcareful hm hc
    rw [ofSource_append,h.apart c hc,ofSource_singleton_of_ne hne,nil_append]
  | call => exact hc.elim
  | take => rfl
  | hold hp =>
    refine h.apart c (withholds_of_next hp (fun other hmem => ?_) hc)
    exact (mem_append.mp hmem).imp_right mem_singleton.mp
  | dispatch hp => exact h.apart c (withholds_of_next hp (fun _ => .inl) hc)
  | putBack =>
    exact (not_withholds_of_not_dispatching (continuation_outside _).not_dispatching c hc).elim
  | other ho =>
    rw [ho.messages]
    exact h.apart c (ho.moves.withholds hc)

theorem Ordered.step (h : Ordered s) (ho : PutsBackOthers s.phase) (hc : s.Careful a)
    (hs : Transition s a t) : Ordered t :=
  ⟨h.received_step ho hs,h.apart_step hc hs⟩

/-! ### Runs -/

theorem reaches_scheduled (h : Reaches step allowed (· = create) s) : Scheduled s := by
  refine Reaches.invariant ?_ ?_ h
  · rintro s rfl
    exact scheduled_create
  · intro s a t hs _ hstep
    exact hs.step (transition_of_step hstep)

theorem reaches_ordered (h : Reaches step Careful (· = create) s) : Ordered s := by
  refine (Reaches.invariant (P := fun s => Scheduled s ∧ Ordered s) ?_ ?_ h).2
  · rintro s rfl
    exact ⟨scheduled_create,ordered_create⟩
  · intro s a t hs hc hstep
    have ht := transition_of_step hstep
    exact ⟨hs.1.step ht,hs.2.step hs.1.putsBackOthers hc ht⟩

end QPlusWeb.IPC.SyncMessageSystem
