import Mathlib.Data.Finset.Erase
import Mathlib.Data.Finset.Insert
import QPlusWeb.Runs
import QPlusWeb.SourceOrder

/-!
# Messages that are dispatched while waiting for a synchronous reply

The connections of a run loop share one `SyncMessageState`.  Their queues append the incoming messages
that must not wait for a synchronous reply and schedule a function on the run loop; the run loop takes
the messages, either in that function or in `waitForSyncReply`.  A step here is a section that holds
the mutex, or what the run loop does between two of them.
-/

namespace QPlusWeb.IPC

open SourceOrder

structure IncomingMessage (β : Type*) where
  shouldDispatchMessageWhenWaitingForSyncReply : Bool
  contents : β
  deriving DecidableEq

/-- `replyDecoder` is null if the other side could not process the message. -/
structure PendingSyncReply (β : Type*) where
  syncRequestID : UInt64
  replyDecoder : Option β
  didReceiveReply : Bool

/-- What `waitForSyncReply` reads of its connection; the top of `pendingSyncReplies` is its head. -/
structure ReplyState (β : Type*) where
  isValid : Bool
  shouldWaitForSyncReplies : Bool
  pendingSyncReplies : List (PendingSyncReply β)

/-- Who calls `dispatchMessages`: the function scheduled for a connection, which allows only the
messages of that connection, or `waitForSyncReply`, which allows all. -/
inductive Caller (κ : Type*) where
  | scheduled (connection : κ)
  | waitForSyncReply (connection : κ) (syncRequestID : UInt64)

def Caller.allowedConnection {κ : Type*} : Caller κ → Option κ
  | .scheduled connection => some connection
  | .waitForSyncReply _ _ => none

/-- Where the run loop is.  In `dispatching` the messages of `taken` are still to be looked at. -/
inductive RunLoopPhase (κ β : Type*) where
  | idle
  | due (caller : Caller κ)
  | dispatching (caller : Caller κ) (taken messagesToPutBack : List (κ × IncomingMessage β))
  | checkingReply (connection : κ) (syncRequestID : UInt64)
  | waiting (connection : κ) (syncRequestID : UInt64)

/-- A `SyncMessageState` with its run loop and its connections.  `scheduledFunctions` are the
connections of the functions that the run loop has still to call, `wakeUps` counts the queues that
have appended a message and not yet signalled the semaphore.  `received` and `dispatched` are records
of what has been accepted and dispatched. -/
structure SyncMessageSystem (κ β : Type*) where
  didScheduleDispatchMessagesWorkSet : Finset κ
  messagesToDispatch : List (κ × IncomingMessage β)
  scheduledFunctions : List κ
  semaphore : Bool
  wakeUps : ℕ
  replyStates : κ → ReplyState β
  phase : RunLoopPhase κ β
  received : List (κ × IncomingMessage β)
  dispatched : List (κ × IncomingMessage β)
  replies : List (UInt64 × Option β)

namespace SyncMessageSystem

variable {κ β : Type*} [DecidableEq κ]

def create : SyncMessageSystem κ β where
  didScheduleDispatchMessagesWorkSet := ∅
  messagesToDispatch := []
  scheduledFunctions := []
  semaphore := false
  wakeUps := 0
  replyStates := fun _ => ⟨true, true, []⟩
  phase := .idle
  received := []
  dispatched := []
  replies := []

/-! ### The queues of the connections -/

variable (s : SyncMessageSystem κ β) (connection : κ)

/-- The section of `SyncMessageState::processIncomingMessage` under the mutex; the message is not
accepted if it may wait. -/
def processIncomingMessage (message : IncomingMessage β) : SyncMessageSystem κ β :=
  if !message.shouldDispatchMessageWhenWaitingForSyncReply then s
  else
    { s with
      didScheduleDispatchMessagesWorkSet := insert connection s.didScheduleDispatchMessagesWorkSet
      scheduledFunctions :=
        if connection ∈ s.didScheduleDispatchMessagesWorkSet then s.scheduledFunctions
        else s.scheduledFunctions ++ [connection]
      messagesToDispatch := s.messagesToDispatch ++ [(connection, message)]
      wakeUps := s.wakeUps + 1
      received := s.received ++ [(connection, message)] }

/-- The end of `processIncomingMessage`. -/
def wakeUpClientRunLoop : Option (SyncMessageSystem κ β) :=
  if s.wakeUps = 0 then none else some { s with semaphore := true, wakeUps := s.wakeUps - 1 }

def setReplyState (state : ReplyState β) : SyncMessageSystem κ β :=
  { s with replyStates := Function.update s.replyStates connection state }

/-- The loop of `processIncomingSyncReply` from the top of the stack. -/
def receiveReply (syncRequestID : UInt64) (reply : β) :
    List (PendingSyncReply β) → List (PendingSyncReply β)
  | [] => []
  | pending :: rest =>
    if pending.syncRequestID ≠ syncRequestID then pending :: receiveReply syncRequestID reply rest
    else { pending with replyDecoder := some reply, didReceiveReply := true } :: rest

/-- Wakes the run loop up if the reply is the one at the top. -/
def processIncomingSyncReply (syncRequestID : UInt64) (reply : β) : SyncMessageSystem κ β :=
  let state := s.replyStates connection
  let s := s.setReplyState connection
    { state with pendingSyncReplies := receiveReply syncRequestID reply state.pendingSyncReplies }
  if (state.pendingSyncReplies.head?.map PendingSyncReply.syncRequestID) = some syncRequestID then
    { s with semaphore := true }
  else s

def connectionDidClose : SyncMessageSystem κ β :=
  let state := s.replyStates connection
  let s := s.setReplyState connection { state with shouldWaitForSyncReplies := false }
  if state.pendingSyncReplies.isEmpty then s else { s with semaphore := true }

/-- The connection has no client any more. -/
def invalidate : SyncMessageSystem κ β :=
  s.setReplyState connection { s.replyStates connection with isValid := false }

/-! ### The run loop -/

/-- The beginning of `dispatchMessageAndResetDidScheduleDispatchMessagesForConnection`, for the first
function that has been scheduled. -/
def callScheduledFunction : Option (SyncMessageSystem κ β) :=
  match s.phase, s.scheduledFunctions with
  | .idle, connection :: functions =>
    some { s with
      didScheduleDispatchMessagesWorkSet := s.didScheduleDispatchMessagesWorkSet.erase connection
      scheduledFunctions := functions
      phase := .due (.scheduled connection) }
  | _, _ => none

/-- A call of `sendSyncMessage` from the run loop, up to the first call of `dispatchMessages`. -/
def sendSyncMessage (syncRequestID : UInt64) : Option (SyncMessageSystem κ β) :=
  match s.phase with
  | .idle =>
    let state := s.replyStates connection
    if !state.isValid || !state.shouldWaitForSyncReplies then
      some { s with replies := s.replies ++ [(syncRequestID, none)] }
    else
      some { s.setReplyState connection
          { state with
            pendingSyncReplies := ⟨syncRequestID, none, false⟩ :: state.pendingSyncReplies } with
        phase := .due (.waitForSyncReply connection syncRequestID) }
  | _ => none

/-- The beginning of `dispatchMessages`: the messages are swapped with an empty vector. -/
def takeMessages : Option (SyncMessageSystem κ β) :=
  match s.phase with
  | .due caller =>
    some { s with messagesToDispatch := [], phase := .dispatching caller s.messagesToDispatch [] }
  | _ => none

/-- One iteration of the loop of `dispatchMessages`. -/
def nextMessage : Option (SyncMessageSystem κ β) :=
  match s.phase with
  | .dispatching caller (item :: taken) messagesToPutBack =>
    if caller.allowedConnection.any (· ≠ item.1) then
      some { s with phase := .dispatching caller taken (messagesToPutBack ++ [item]) }
    else
      some { s with
        phase := .dispatching caller taken messagesToPutBack
        dispatched := s.dispatched ++ [item] }
  | _ => none

/-- Where the caller of `dispatchMessages` goes on. -/
def Caller.continuation : Caller κ → RunLoopPhase κ β
  | .scheduled _ => .idle
  | .waitForSyncReply connection syncRequestID => .checkingReply connection syncRequestID

/-- The end of `dispatchMessages`. -/
def putBack : Option (SyncMessageSystem κ β) :=
  match s.phase with
  | .dispatching caller [] messagesToPutBack =>
    some { s with
      messagesToDispatch := s.messagesToDispatch ++ messagesToPutBack
      phase := Caller.continuation caller }
  | _ => none

/-- The end of `sendSyncMessage`, after `waitForSyncReply` has returned `reply`. -/
def finishSyncMessage (syncRequestID : UInt64) (reply : Option β) : SyncMessageSystem κ β :=
  let state := s.replyStates connection
  { s.setReplyState connection { state with pendingSyncReplies := state.pendingSyncReplies.tail } with
    phase := .idle
    replies := s.replies ++ [(syncRequestID, reply)] }

/-- `waitForSyncReply` between `dispatchMessages` and the semaphore. -/
def checkReply : Option (SyncMessageSystem κ β) :=
  match s.phase with
  | .checkingReply connection syncRequestID =>
    let state := s.replyStates connection
    let pending := state.pendingSyncReplies.head?
    if pending.any PendingSyncReply.didReceiveReply || !state.shouldWaitForSyncReplies then
      some (s.finishSyncMessage connection syncRequestID
        (pending.bind PendingSyncReply.replyDecoder))
    else if !state.isValid then some (s.finishSyncMessage connection syncRequestID none)
    else some { s with phase := .waiting connection syncRequestID }
  | _ => none

/-- The semaphore ends the wait, which goes on with `dispatchMessages`. -/
def wait : Option (SyncMessageSystem κ β) :=
  match s.phase with
  | .waiting connection syncRequestID =>
    if s.semaphore then
      some { s with
        semaphore := false
        phase := .due (.waitForSyncReply connection syncRequestID) }
    else none
  | _ => none

def waitTimesOut : Option (SyncMessageSystem κ β) :=
  match s.phase with
  | .waiting connection syncRequestID => some (s.finishSyncMessage connection syncRequestID none)
  | _ => none

/-! ### Runs -/

inductive Action (κ β : Type*) where
  | processIncomingMessage (connection : κ) (message : IncomingMessage β)
  | wakeUpClientRunLoop
  | processIncomingSyncReply (connection : κ) (syncRequestID : UInt64) (reply : β)
  | connectionDidClose (connection : κ)
  | invalidate (connection : κ)
  | callScheduledFunction
  | sendSyncMessage (connection : κ) (syncRequestID : UInt64)
  | takeMessages
  | nextMessage
  | putBack
  | checkReply
  | wait
  | waitTimesOut

def step : Action κ β → Option (SyncMessageSystem κ β)
  | .processIncomingMessage connection message => some (s.processIncomingMessage connection message)
  | .wakeUpClientRunLoop => s.wakeUpClientRunLoop
  | .processIncomingSyncReply connection syncRequestID reply =>
    some (s.processIncomingSyncReply connection syncRequestID reply)
  | .connectionDidClose connection => some (s.connectionDidClose connection)
  | .invalidate connection => some (s.invalidate connection)
  | .callScheduledFunction => s.callScheduledFunction
  | .sendSyncMessage connection syncRequestID => s.sendSyncMessage connection syncRequestID
  | .takeMessages => s.takeMessages
  | .nextMessage => s.nextMessage
  | .putBack => s.putBack
  | .checkReply => s.checkReply
  | .wait => s.wait
  | .waitTimesOut => s.waitTimesOut

end SyncMessageSystem

end QPlusWeb.IPC
