import QPlusWeb.Runs

/-!
# Waiting for a message

`Connection::waitForMessage` searches the incoming messages and then enters its wait into a map that
the connection queue looks at.  A step here is a section under one of the two locks.  A message that
comes between the search and the entry goes to the incoming messages, where the call does not look
again.
-/

namespace QPlusWeb.IPC

open Runs

/-- `destination` stands for the names of the receiver and of the message and the destination ID. -/
structure Message (κ β : Type*) where
  destination : κ
  contents : β
  deriving DecidableEq

/-- Where the client thread is: `idle` keeps what its last call has returned.  The wait map has no
other entry than that of the call, so it is kept here; `waiting` holds inside of `wait_for`. -/
inductive ClientPhase (κ β : Type*) where
  | idle (returned : Option (κ × Option (Message κ β)))
  | searched (destination : κ)
  | entered (destination : κ) (value : Option (Message κ β)) (waiting : Bool)

/-- `unmatched` is a message for which the connection queue has found no wait and that it has not
yet enqueued. -/
structure WaitSystem (κ β : Type*) where
  incomingMessages : List (Message κ β)
  unmatched : Option (Message κ β)
  phase : ClientPhase κ β

inductive WaitAction (κ β : Type*) where
  | waitForMessage (destination : κ)
  | insertWait
  | checkWait
  | wake
  | timeOut
  | processIncomingMessage (message : Message κ β)
  | enqueueIncomingMessage
  | dispatchOneMessage

namespace WaitSystem

variable {κ β : Type*} [DecidableEq κ] (dispatchedElsewhere : Message κ β → Bool)
  (s : WaitSystem κ β) (destination : κ)

def create : WaitSystem κ β := ⟨[], none, .idle none⟩

/-- The search of the incoming messages. -/
def search : WaitSystem κ β :=
  match s.incomingMessages.find? (·.destination = destination) with
  | some message =>
    { s with
      incomingMessages := s.incomingMessages.eraseP (·.destination = destination)
      phase := .idle (some (destination, some message)) }
  | none => { s with phase := .searched destination }

/-- Replies, messages for work queues and those that must not wait for a synchronous reply are
dispatched elsewhere. -/
def processIncomingMessage (message : Message κ β) : WaitSystem κ β :=
  if dispatchedElsewhere message then s
  else
    match s.phase with
    | .entered destination _ waiting =>
      if message.destination = destination then
        { s with phase := .entered destination (some message) waiting }
      else { s with unmatched := some message }
    | _ => { s with unmatched := some message }

/-- The steps of the client thread and of the connection queue.  A call that finds its message in
the map returns it and otherwise waits.  When it regains the lock after its deadline has passed, it
removes its entry without another look at it. -/
def step (a : WaitAction κ β) : Option (WaitSystem κ β) :=
  match a, s.phase, s.unmatched with
  | .waitForMessage destination, .idle _, _ => some (s.search destination)
  | .insertWait, .searched destination, _ =>
    some { s with phase := .entered destination none false }
  | .checkWait, .entered destination none false, _ =>
    some { s with phase := .entered destination none true }
  | .checkWait, .entered destination (some message) false, _ =>
    some { s with phase := .idle (some (destination, some message)) }
  | .wake, .entered destination value true, _ =>
    some { s with phase := .entered destination value false }
  | .timeOut, .entered destination _ true, _ =>
    some { s with phase := .idle (some (destination, none)) }
  | .processIncomingMessage message, _, none =>
    some (s.processIncomingMessage dispatchedElsewhere message)
  | .enqueueIncomingMessage, _, some message =>
    some { s with unmatched := none, incomingMessages := s.incomingMessages ++ [message] }
  | .dispatchOneMessage, .idle _, _ => some { s with incomingMessages := s.incomingMessages.tail }
  | _, _, _ => none

def WaitsFor : Prop :=
  match s.phase with
  | .entered d _ _ => d = destination
  | _ => False

instance : Decidable (s.WaitsFor destination) := by
  unfold WaitsFor
  split <;> infer_instance

/-- The deadline of the wait passes, or another message for it comes. -/
def disturbs : WaitAction κ β → Bool
  | .timeOut => true
  | .processIncomingMessage m => m.destination = destination && !dispatchedElsewhere m
  | _ => false

variable {dispatchedElsewhere s destination} {s' t : WaitSystem κ β} {a : WaitAction κ β}
  {m : Message κ β}

/-- The call has been given the message: it is in the map, or it has been returned. -/
def Given (destination : κ) (m : Message κ β) (t : WaitSystem κ β) : Prop :=
  (∃ waiting, t.phase = .entered destination (some m) waiting) ∨
    t.phase = .idle (some (destination, some m))

/-- A call that has been given its message keeps it until it returns it. -/
theorem given_step (h : Given destination m s) (hwait : s.WaitsFor destination)
    (ha : disturbs dispatchedElsewhere destination a = false)
    (hs : s.step dispatchedElsewhere a = some t) : Given destination m t := by
  obtain ⟨incomingMessages, unmatched, phase⟩ := s
  obtain ⟨waiting, rfl⟩ | rfl := h
  · cases a with
    | checkWait =>
      cases waiting with
      | true => cases hs
      | false =>
        cases hs
        exact .inr rfl
    | wake =>
      cases waiting with
      | false => cases hs
      | true =>
        cases hs
        exact .inl ⟨false, rfl⟩
    | processIncomingMessage m' =>
      cases unmatched with
      | some _ => cases hs
      | none =>
        cases hs
        left
        unfold processIncomingMessage
        split
        next => exact ⟨waiting, rfl⟩
        next hh =>
          have hne : m'.destination ≠ destination := by simpa [disturbs, hh] using ha
          exact ⟨waiting, by simp [hne]⟩
    | enqueueIncomingMessage =>
      cases unmatched with
      | none => cases hs
      | some _ =>
        cases hs
        exact .inl ⟨waiting, rfl⟩
    | timeOut => cases ha
    | _ => cases hs
  · exact hwait.elim

/-- The wait map takes the message of a call that waits for it. -/
theorem given_processIncomingMessage (hwait : s.WaitsFor destination)
    (hdestination : m.destination = destination) (hhere : dispatchedElsewhere m = false)
    (hstep : s.step dispatchedElsewhere (.processIncomingMessage m) = some s') :
    s'.incomingMessages = s.incomingMessages ∧ s'.unmatched = none ∧ Given destination m s' := by
  obtain ⟨incomingMessages, unmatched, phase⟩ := s
  cases phase with
  | idle returned => exact hwait.elim
  | searched d => exact hwait.elim
  | entered d value waiting =>
    obtain rfl : d = destination := hwait
    cases unmatched with
    | some _ => cases hstep
    | none =>
      cases hstep
      simp [processIncomingMessage, hhere, hdestination, Given]

/-- A message that comes after the wait has been entered is the one that the call returns, if neither
its deadline passes nor another message for it comes before the call returns. -/
theorem waitForMessage_returns (hwait : s.WaitsFor destination)
    (hdestination : m.destination = destination) (hhere : dispatchedElsewhere m = false)
    (hstep : s.step dispatchedElsewhere (.processIncomingMessage m) = some s') :
    s'.incomingMessages = s.incomingMessages ∧ s'.unmatched = none ∧
      ∀ actions t, Allowed (step dispatchedElsewhere) (fun u a => u.WaitsFor destination ∧
          disturbs dispatchedElsewhere destination a = false) actions s' →
        run (step dispatchedElsewhere) actions s' = some t →
        t.phase = .idle (some (destination, some m)) ∨
          ∃ steps ∈ [[.checkWait], [.wake, .checkWait]], run (step dispatchedElsewhere) steps t =
            some { t with phase := .idle (some (destination, some m)) } := by
  obtain ⟨hincoming, hunmatched, hgiven⟩ :=
    given_processIncomingMessage hwait hdestination hhere hstep
  refine ⟨hincoming, hunmatched, fun actions t hallowed hrun => ?_⟩
  have ht : Given destination m t := run_history (P := fun _ u => Given destination m u) hgiven
    (fun _ u a u' hu ha hu' => given_step hu ha.1 ha.2 hu') hallowed hrun
  obtain ⟨waiting, hphase⟩ | hphase := ht
  · right
    cases waiting with
    | false => exact ⟨_, .head _, by simp [run, step, hphase]⟩
    | true => exact ⟨_, .tail _ (.head _), by simp [run, step, hphase]⟩
  · exact .inl hphase

/-- Another message comes before and one after the message of the call, which waits meanwhile. -/
theorem waitForMessage_returns_second :
    ∃ s s' t, run (step fun _ => false) [.waitForMessage 0, .insertWait, .checkWait,
        .processIncomingMessage ⟨1, 'a'⟩, .enqueueIncomingMessage] create = some s ∧
      s.step (fun _ => false) (.processIncomingMessage ⟨0, 'b'⟩) = some s' ∧
      run (step fun _ => false) [.processIncomingMessage ⟨1, 'c'⟩, .wake, .enqueueIncomingMessage,
        .checkWait] s' = some t ∧
      t.phase = .idle (some (0, some ⟨0, 'b'⟩)) ∧
      t.incomingMessages = [⟨1, 'a'⟩, ⟨1, 'c'⟩] := by
  refine ⟨_, _, _, rfl, rfl, rfl, ?_, rfl⟩
  obtain ⟨-, -, hreturns⟩ := @waitForMessage_returns Nat Char _ (fun _ => false)
    ⟨[⟨1, 'a'⟩], none, .entered 0 none true⟩ 0 _ ⟨0, 'b'⟩ rfl rfl rfl rfl
  obtain h | ⟨steps, hsteps, hrun⟩ := hreturns [.processIncomingMessage ⟨1, 'c'⟩, .wake,
    .enqueueIncomingMessage, .checkWait] _ (by decide) rfl
  · exact h
  · obtain rfl | rfl : steps = _ ∨ steps = _ := by simpa using hsteps
    · cases hrun
    · cases hrun

/-- The message comes between the search and the entry: the call times out and the message stays. -/
theorem waitForMessage_misses :
    run (step fun _ => false) [.waitForMessage 0, .processIncomingMessage ⟨0, ()⟩,
        .enqueueIncomingMessage, .insertWait, .checkWait, .timeOut] create =
      some ⟨[⟨0, ()⟩], none, .idle (some (0, none))⟩ := rfl

end WaitSystem

end QPlusWeb.IPC
