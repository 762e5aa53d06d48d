import QPlusWeb.SyncMessages

/-!
# The steps of a `SyncMessageState`

What a step can do to the messages, to the functions scheduled for them and to the semaphore.
-/

namespace QPlusWeb.IPC

open SourceOrder

section Phases

variable {κ β : Type*} {phase : RunLoopPhase κ β}

/-- The messages of the connection are dispatched by this call. -/
def Caller.Allows (caller : Caller κ) (connection : κ) : Prop :=
  ∀ allowed ∈ caller.allowedConnection, allowed = connection

theorem Caller.allows_waitForSyncReply (connection : κ) (syncRequestID : UInt64) (c : κ) :
    (Caller.waitForSyncReply connection syncRequestID).Allows c :=
  nofun

theorem Caller.allows_scheduled {connection c : κ} :
    (Caller.scheduled connection).Allows c ↔ connection = c := by
  constructor
  · intro h
    exact h connection rfl
  · rintro rfl allowed h
    exact (Option.some.inj h).symm

instance [DecidableEq κ] (caller : Caller κ) (connection : κ) :
    Decidable (caller.Allows connection) :=
  inferInstanceAs (Decidable (∀ allowed ∈ caller.allowedConnection, allowed = connection))

theorem Caller.allows_iff [DecidableEq κ] {caller : Caller κ} {connection : κ} :
    caller.allowedConnection.any (· ≠ connection) = false ↔ caller.Allows connection := by
  cases caller with
  | scheduled allowed =>
    simp [allows_scheduled,allowedConnection]
  | waitForSyncReply waiting syncRequestID =>
    exact ⟨fun _ => allows_waitForSyncReply _ _ _,fun _ => rfl⟩

namespace RunLoopPhase

/-- The messages that have been taken from the queue, in the order in which they were in it. -/
def held : RunLoopPhase κ β → List (κ × IncomingMessage β)
  | .dispatching _ taken messagesToPutBack => messagesToPutBack ++ taken
  | _ => []

/-- `dispatchMessages` is not running and not about to be called. -/
def Outside : RunLoopPhase κ β → Prop
  | .idle | .checkingReply _ _ | .waiting _ _ => True
  | .due _ | .dispatching _ _ _ => False

/-- `dispatchMessages` is running. -/
def Dispatching : RunLoopPhase κ β → Prop
  | .dispatching _ _ _ => True
  | _ => False

/-- `dispatchMessages` is about to be called and will dispatch the messages of the connection. -/
def DueFor (connection : κ) : RunLoopPhase κ β → Prop
  | .due caller => caller.Allows connection
  | _ => False

/-- The run loop is in `waitForSyncReply`, behind the beginning of a `dispatchMessages`. -/
def AwaitsReply : RunLoopPhase κ β → Prop
  | .checkingReply _ _ | .waiting _ _ | .dispatching (.waitForSyncReply _ _) _ _ => True
  | _ => False

/-- `dispatchMessages` has taken messages of the connection and will put them back. -/
def Withholds (connection : κ) : RunLoopPhase κ β → Prop
  | .dispatching caller taken messagesToPutBack =>
    ¬caller.Allows connection ∧ ∃ item ∈ messagesToPutBack ++ taken, item.1 = connection
  | _ => False

instance [DecidableEq κ] (connection : κ) (phase : RunLoopPhase κ β) :
    Decidable (phase.Withholds connection) :=
  match phase with
  | .dispatching caller taken messagesToPutBack =>
    inferInstanceAs (Decidable (¬caller.Allows connection ∧
      ∃ item ∈ messagesToPutBack ++ taken, item.1 = connection))
  | .idle | .due _ | .checkingReply _ _ | .waiting _ _ => inferInstanceAs (Decidable False)

theorem Outside.held_eq (h : phase.Outside) : phase.held = [] := by
  cases phase with
  | dispatching => exact h.elim
  | _ => rfl

theorem Outside.not_dueFor (h : phase.Outside) (c : κ) : ¬phase.DueFor c := by
  cases phase with
  | due => exact h.elim
  | _ => exact id

theorem Outside.not_dispatching (h : phase.Outside) : ¬phase.Dispatching := by
  cases phase with
  | dispatching => exact h.elim
  | _ => exact id

end RunLoopPhase

end Phases

namespace SyncMessageSystem

variable {κ β : Type*} [DecidableEq κ] {s t : SyncMessageSystem κ β} {a : Action κ β}
  (connection : κ) (syncRequestID : UInt64)

/-- A wait ends at once, or after a queue has ended its `processIncomingMessage`. -/
def Signalled (s : SyncMessageSystem κ β) : Prop := s.semaphore = true ∨ 0 < s.wakeUps

/-- The run loop goes on without a change to the messages. -/
inductive Moves : RunLoopPhase κ β → RunLoopPhase κ β → Prop
  | stays (phase : RunLoopPhase κ β) : Moves phase phase
  | outside {before after : RunLoopPhase κ β} : before.Outside → after.Outside →
      (after.AwaitsReply → before.AwaitsReply) → Moves before after
  | calls {before : RunLoopPhase κ β} (connection : κ) (syncRequestID : UInt64) : before.Outside →
      Moves before (.due (.waitForSyncReply connection syncRequestID))

/-- The step has to do with replies and the semaphore only. -/
structure Unaffected (s t : SyncMessageSystem κ β) : Prop where
  workSet : t.didScheduleDispatchMessagesWorkSet = s.didScheduleDispatchMessagesWorkSet
  functions : t.scheduledFunctions = s.scheduledFunctions
  messages : t.messagesToDispatch = s.messagesToDispatch
  received : t.received = s.received
  dispatched : t.dispatched = s.dispatched
  moves : Moves s.phase t.phase
  signalled : s.Signalled → t.phase.AwaitsReply → t.Signalled

/-- What a step can do. -/
inductive Transition (s : SyncMessageSystem κ β) : Action κ β → SyncMessageSystem κ β → Prop
  | accept {connection : κ} {message : IncomingMessage β} :
      message.shouldDispatchMessageWhenWaitingForSyncReply = true →
      Transition s (.processIncomingMessage connection message)
        { s with
          didScheduleDispatchMessagesWorkSet := insert connection s.didScheduleDispatchMessagesWorkSet
          scheduledFunctions :=
            if connection ∈ s.didScheduleDispatchMessagesWorkSet then s.scheduledFunctions
            else s.scheduledFunctions ++ [connection]
          messagesToDispatch := s.messagesToDispatch ++ [(connection, message)]
          wakeUps := s.wakeUps + 1
          received := s.received ++ [(connection, message)] }
  | call {connection : κ} {functions : List κ} :
      s.phase = .idle → s.scheduledFunctions = connection :: functions →
      Transition s .callScheduledFunction
        { s with
          didScheduleDispatchMessagesWorkSet := s.didScheduleDispatchMessagesWorkSet.erase connection
          scheduledFunctions := functions
          phase := .due (.scheduled connection) }
  | take {caller : Caller κ} :
      s.phase = .due caller →
      Transition s .takeMessages
        { s with messagesToDispatch := [], phase := .dispatching caller s.messagesToDispatch [] }
  | hold {caller : Caller κ} {item : κ × IncomingMessage β}
      {taken messagesToPutBack : List (κ × IncomingMessage β)} :
      s.phase = .dispatching caller (item :: taken) messagesToPutBack → ¬caller.Allows item.1 →
      Transition s .nextMessage
        { s with phase := .dispatching caller taken (messagesToPutBack ++ [item]) }
  | dispatch {caller : Caller κ} {item : κ × IncomingMessage β}
      {taken messagesToPutBack : List (κ × IncomingMessage β)} :
      s.phase = .dispatching caller (item :: taken) messagesToPutBack → caller.Allows item.1 →
      Transition s .nextMessage
        { s with
          phase := .dispatching caller taken messagesToPutBack
          dispatched := s.dispatched ++ [item] }
  | putBack {caller : Caller κ} {messagesToPutBack : List (κ × IncomingMessage β)} :
      s.phase = .dispatching caller [] messagesToPutBack →
      Transition s .putBack
        { s with
          messagesToDispatch := s.messagesToDispatch ++ messagesToPutBack
          phase := Caller.continuation caller }
  | other {a : Action κ β} {t : SyncMessageSystem κ β} : Unaffected s t → Transition s a t

/-! ### The steps one by one -/

theorem processIncomingMessage_transition (message : IncomingMessage β) :
    Transition s (.processIncomingMessage connection message)
      (s.processIncomingMessage connection message) := by
  unfold processIncomingMessage
  cases hm : message.shouldDispatchMessageWhenWaitingForSyncReply with
  | false => exact .other ⟨rfl,rfl,rfl,rfl,rfl,.stays _,fun h _ => h⟩
  | true => exact .accept hm

omit [DecidableEq κ] in
theorem wakeUpClientRunLoop_unaffected (h : s.wakeUpClientRunLoop = some t) : Unaffected s t := by
  unfold wakeUpClientRunLoop at h
  split at h
  · cases h
  · cases h
    exact ⟨rfl,rfl,rfl,rfl,rfl,.stays _,fun _ _ => .inl rfl⟩

theorem processIncomingSyncReply_unaffected (reply : β) :
    Unaffected s (s.processIncomingSyncReply connection syncRequestID reply) := by
  unfold processIncomingSyncReply
  dsimp only
  split
  · exact ⟨rfl,rfl,rfl,rfl,rfl,.stays _,fun _ _ => .inl rfl⟩
  · exact ⟨rfl,rfl,rfl,rfl,rfl,.stays _,fun h _ => h⟩

theorem connectionDidClose_unaffected : Unaffected s (s.connectionDidClose connection) := by
  unfold connectionDidClose
  dsimp only
  split
  · exact ⟨rfl,rfl,rfl,rfl,rfl,.stays _,fun h _ => h⟩
  · exact ⟨rfl,rfl,rfl,rfl,rfl,.stays _,fun _ _ => .inl rfl⟩

theorem callScheduledFunction_transition (h : s.callScheduledFunction = some t) :
    Transition s .callScheduledFunction t := by
  unfold callScheduledFunction at h
  split at h
  next connection functions hp hf =>
    cases h
    exact .call hp hf
  next => cases h

theorem sendSyncMessage_unaffected {connection : κ} {syncRequestID : UInt64}
    (h : s.sendSyncMessage connection syncRequestID = some t) : Unaffected s t := by
  unfold sendSyncMessage at h
  split at h
  next hp =>
    have ho : s.phase.Outside := by
      rw [hp]
      trivial
    dsimp only at h
    split at h
    · cases h
      exact ⟨rfl,rfl,rfl,rfl,rfl,.stays _,fun h _ => h⟩
    · cases h
      exact ⟨rfl,rfl,rfl,rfl,rfl,.calls _ _ ho,fun _ h => h.elim⟩
  next => cases h

theorem takeMessages_transition (h : s.takeMessages = some t) : Transition s .takeMessages t := by
  unfold takeMessages at h
  split at h
  next caller hp =>
    cases h
    exact .take hp
  next => cases h

theorem nextMessage_transition (h : s.nextMessage = some t) : Transition s .nextMessage t := by
  unfold nextMessage at h
  split at h
  next caller item taken messagesToPutBack hp =>
    cases ha : caller.allowedConnection.any (· ≠ item.1) with
    | false =>
      rw [ha] at h
      cases h
      exact .dispatch hp (Caller.allows_iff.mp ha)
    | true =>
      rw [ha] at h
      cases h
      refine .hold hp fun h => ?_
      rw [Caller.allows_iff.mpr h] at ha
      cases ha
  next => cases h

theorem putBack_transition (h : s.putBack = some t) : Transition s .putBack t := by
  unfold SyncMessageSystem.putBack at h
  split at h
  next caller messagesToPutBack hp =>
    cases h
    exact .putBack hp
  next => cases h

theorem finishSyncMessage_unaffected (reply : Option β) (ho : s.phase.Outside) :
    Unaffected s (s.finishSyncMessage connection syncRequestID reply) :=
  ⟨rfl,rfl,rfl,rfl,rfl,.outside ho trivial fun h => h.elim,fun _ h => h.elim⟩

theorem checkReply_unaffected (h : s.checkReply = some t) : Unaffected s t := by
  unfold checkReply at h
  split at h
  next connection syncRequestID hp =>
    have ho : s.phase.Outside := by
      rw [hp]
      trivial
    have ha : s.phase.AwaitsReply := by
      rw [hp]
      trivial
    dsimp only at h
    split at h
    · cases h
      exact finishSyncMessage_unaffected _ _ _ ho
    · split at h
      · cases h
        exact finishSyncMessage_unaffected _ _ _ ho
      · cases h
        exact ⟨rfl,rfl,rfl,rfl,rfl,.outside ho trivial fun _ => ha,fun h _ => h⟩
  next => cases h

omit [DecidableEq κ] in
theorem wait_unaffected (h : s.wait = some t) : Unaffected s t := by
  unfold wait at h
  split at h
  next connection syncRequestID hp =>
    have ho : s.phase.Outside := by
      rw [hp]
      trivial
    split at h
    · cases h
      exact ⟨rfl,rfl,rfl,rfl,rfl,.calls _ _ ho,fun _ h => h.elim⟩
    · cases h
  next => cases h

theorem waitTimesOut_unaffected (h : s.waitTimesOut = some t) : Unaffected s t := by
  unfold waitTimesOut at h
  split at h
  next connection syncRequestID hp =>
    cases h
    refine finishSyncMessage_unaffected _ _ _ ?_
    rw [hp]
    trivial
  next => cases h

theorem transition_of_step (h : step s a = some t) : Transition s a t := by
  cases a with
  | processIncomingMessage connection message =>
    cases h
    exact processIncomingMessage_transition connection message
  | wakeUpClientRunLoop => exact .other (wakeUpClientRunLoop_unaffected h)
  | processIncomingSyncReply connection syncRequestID reply =>
    cases h
    exact .other (processIncomingSyncReply_unaffected connection syncRequestID reply)
  | connectionDidClose connection =>
    cases h
    exact .other (connectionDidClose_unaffected connection)
  | invalidate connection =>
    cases h
    exact .other ⟨rfl,rfl,rfl,rfl,rfl,.stays _,fun h _ => h⟩
  | callScheduledFunction => exact callScheduledFunction_transition h
  | sendSyncMessage connection syncRequestID => exact .other (sendSyncMessage_unaffected h)
  | takeMessages => exact takeMessages_transition h
  | nextMessage => exact nextMessage_transition h
  | putBack => exact putBack_transition h
  | checkReply => exact .other (checkReply_unaffected h)
  | wait => exact .other (wait_unaffected h)
  | waitTimesOut => exact .other (waitTimesOut_unaffected h)

end SyncMessageSystem

end QPlusWeb.IPC
