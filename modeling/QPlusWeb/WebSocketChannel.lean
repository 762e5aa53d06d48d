import QPlusWeb.WebSocketFrame
import QPlusWeb.Runs

/-!
# The send path of a web socket

The queue of outgoing frames of `WebSocketChannel`.  A frame with a blob waits at the head until the
blob is loaded.  The queue is worked off when a frame is added, when a blob is loaded and when the
peer has closed the connection; after that the socket is closed as soon as the queue is empty.  The
channel is not suspended, and a call that breaks an assertion of the source has no result.
-/

namespace QPlusWeb.WebSockets

open List Runs

def opCodeText : OpCode := 0x1
def opCodeBinary : OpCode := 0x2
def opCodeClose : OpCode := 0x8
def opCodePong : OpCode := 0xA
def closeEventCodeNotSpecified : ℤ := -1

inductive QueuedFrame (β : Type) where
  | string (opCode : OpCode) (stringData : List UInt8)
  | vector (opCode : OpCode) (vectorData : List UInt8)
  | blob (opCode : OpCode) (blobData : β)

inductive OutgoingFrameQueueStatus where
  | queueOpen | queueClosing | queueClosed
  deriving DecidableEq

/-- The loader's status, with the blob it was started for. -/
inductive BlobLoaderStatus (β : Type) where
  | notStarted
  | started (blob : β)
  | finished (blob : β)
  | failed

structure WebSocketChannel (β : Type) where
  outgoingFrameQueue : List (QueuedFrame β) := []
  outgoingFrameQueueStatus : OutgoingFrameQueueStatus := .queueOpen
  blobLoaderStatus : BlobLoaderStatus β := .notStarted
  closing : Bool := false
  receivedClosingHandshake : Bool := false
  /-- The socket was told to close, or it was disconnected. -/
  closed : Bool := false
  /-- `fail` was called. -/
  failed : Bool := false
  /-- What the socket was given, in this order. -/
  sent : List (OpCode × List UInt8) := []
  /-- The frames that were ever put into the queue, for the statements. -/
  enqueued : List (QueuedFrame β) := []

inductive ChannelAction (β : Type) where
  | sendText (utf8 : List UInt8)
  | sendBinary (data : List UInt8)
  | sendBlob (binaryData : β)
  | close (code : ℤ) (reason : List UInt8)
  | receivePing (payload : List UInt8)
  | receiveClose (code : ℤ) (reason : List UInt8)
  | didFinishLoading
  | didFail
  | didCloseSocketStream

variable {β : Type} (contents : β → List UInt8)

/-- What the socket gets for a frame; `contents` is what the loader reads from a blob. -/
def QueuedFrame.message : QueuedFrame β → OpCode × List UInt8
  | string opCode stringData => (opCode, stringData)
  | vector opCode vectorData => (opCode, vectorData)
  | blob opCode blobData => (opCode, contents blobData)

namespace WebSocketChannel

variable {c c' : WebSocketChannel β} {frames : List (QueuedFrame β)}

/-! ### The functions of the channel -/

/-- The socket takes the frame; where it does not, the source fails the channel. -/
def sendFrame (opCode : OpCode) (data : List UInt8) (c : WebSocketChannel β) : WebSocketChannel β :=
  { c with sent := c.sent ++ [(opCode, data)] }

def enqueue (frame : QueuedFrame β) (c : WebSocketChannel β) : Option (WebSocketChannel β) :=
  if c.outgoingFrameQueueStatus = .queueOpen then
    some { c with
      outgoingFrameQueue := c.outgoingFrameQueue ++ [frame], enqueued := c.enqueued ++ [frame] }
  else none

def enqueueTextFrame (string : List UInt8) : WebSocketChannel β → Option (WebSocketChannel β) :=
  enqueue (.string opCodeText string)

def enqueueRawFrame (opCode : OpCode) (data : List UInt8) :
    WebSocketChannel β → Option (WebSocketChannel β) :=
  enqueue (.vector opCode data)

def enqueueBlobFrame (opCode : OpCode) (blob : β) :
    WebSocketChannel β → Option (WebSocketChannel β) :=
  enqueue (.blob opCode blob)

/-- The loop of `processOutgoingFrameQueue` and what follows it; `frames` is the queue. -/
def processFrames : List (QueuedFrame β) → WebSocketChannel β → WebSocketChannel β
  | [], c =>
    if c.outgoingFrameQueueStatus = .queueClosing then
      { c with outgoingFrameQueue := [], outgoingFrameQueueStatus := .queueClosed, closed := true }
    else { c with outgoingFrameQueue := [] }
  | .string opCode stringData :: frames, c => processFrames frames (c.sendFrame opCode stringData)
  | .vector opCode vectorData :: frames, c => processFrames frames (c.sendFrame opCode vectorData)
  | .blob opCode blobData :: frames, c =>
    let putBack := .blob opCode blobData :: frames
    match c.blobLoaderStatus with
    | .notStarted =>
      { c with outgoingFrameQueue := putBack, blobLoaderStatus := .started blobData }
    | .started _ | .failed => { c with outgoingFrameQueue := putBack }
    | .finished blob =>
      processFrames frames
        (sendFrame opCode (contents blob) { c with blobLoaderStatus := .notStarted })

def processOutgoingFrameQueue (c : WebSocketChannel β) : WebSocketChannel β :=
  if c.outgoingFrameQueueStatus = .queueClosed then c
  else processFrames contents c.outgoingFrameQueue c

def startClosingHandshake (code : ℤ) (reason : List UInt8) (c : WebSocketChannel β) :
    Option (WebSocketChannel β) :=
  if c.closing then some c
  else do
    let buf := if !c.receivedClosingHandshake && code ≠ closeEventCodeNotSpecified then
      [UInt8.ofInt (code >>> 8), UInt8.ofInt code] ++ reason else []
    let c ← c.enqueueRawFrame opCodeClose buf
    some { c.processOutgoingFrameQueue contents with closing := true }

/-- A load that is running is cancelled, and that fails the channel. -/
def abortOutgoingFrameQueue (c : WebSocketChannel β) : WebSocketChannel β :=
  let c := { c with outgoingFrameQueue := [], outgoingFrameQueueStatus := .queueClosed }
  match c.blobLoaderStatus with
  | .started _ => { c with blobLoaderStatus := .failed, failed := true }
  | _ => c

def didCloseSocketStream (c : WebSocketChannel β) : WebSocketChannel β :=
  let c := { c with closed := true }
  if c.outgoingFrameQueueStatus = .queueClosed then c else c.abortOutgoingFrameQueue

def fail (c : WebSocketChannel β) : WebSocketChannel β :=
  let c := { c with failed := true }
  if c.closed then c else c.didCloseSocketStream

/-- What can happen to the channel.  After the closing handshake of the peer, data is discarded. -/
def step (c : WebSocketChannel β) : ChannelAction β → Option (WebSocketChannel β)
  | .sendText utf8 => (c.enqueueTextFrame utf8).map (processOutgoingFrameQueue contents)
  | .sendBinary data =>
    (c.enqueueRawFrame opCodeBinary data).map (processOutgoingFrameQueue contents)
  | .sendBlob binaryData =>
    (c.enqueueBlobFrame opCodeBinary binaryData).map (processOutgoingFrameQueue contents)
  | .close code reason => if c.closed then some c else c.startClosingHandshake contents code reason
  | .receivePing payload =>
    if c.receivedClosingHandshake then some c
    else (c.enqueueRawFrame opCodePong payload).map (processOutgoingFrameQueue contents)
  | .receiveClose code reason =>
    if c.receivedClosingHandshake then some c
    else do
      let c ← startClosingHandshake contents code reason { c with receivedClosingHandshake := true }
      some (if c.closing then
        processOutgoingFrameQueue contents { c with outgoingFrameQueueStatus := .queueClosing }
      else c)
  | .didFinishLoading =>
    match c.blobLoaderStatus with
    | .started blob =>
      some (processOutgoingFrameQueue contents { c with blobLoaderStatus := .finished blob })
    | _ => none
  | .didFail =>
    match c.blobLoaderStatus with
    | .started _ => some { c with blobLoaderStatus := .failed }.fail
    | _ => none
  | .didCloseSocketStream => some c.didCloseSocketStream

/-! ### What holds between two calls -/

/-- Every frame was given to the socket or is in the queue, in order, and the queue is only held up
by the load of its first frame. -/
structure Orderly (c : WebSocketChannel β) : Prop where
  sent : c.sent ++ c.outgoingFrameQueue.map (·.message contents) =
    c.enqueued.map (·.message contents)
  closed : c.closed ↔ c.outgoingFrameQueueStatus = .queueClosed
  idle_or_loading : c.outgoingFrameQueue = [] ∧ c.blobLoaderStatus = .notStarted ∧
      c.outgoingFrameQueueStatus ≠ .queueClosing ∨
    c.outgoingFrameQueueStatus ≠ .queueClosed ∧ ∃ opCode blob frames,
      c.outgoingFrameQueue = .blob opCode blob :: frames ∧ c.blobLoaderStatus = .started blob

variable {contents}

/-- The loop, started while no blob is loading. -/
theorem processFrames_orderly (hi : c.blobLoaderStatus = .notStarted)
    (hs : c.outgoingFrameQueueStatus ≠ .queueClosed)
    (hclosed : c.closed → frames = [] ∧ c.outgoingFrameQueueStatus = .queueClosing)
    (hsent : c.sent++frames.map (·.message contents) = c.enqueued.map (·.message contents)) :
    let c' := processFrames contents frames c
    Orderly contents c' ∧ c'.enqueued = c.enqueued ∧ c'.outgoingFrameQueue.length ≤ frames.length ∧
      (c.outgoingFrameQueueStatus ≠ .queueOpen → c'.outgoingFrameQueueStatus ≠ .queueOpen) := by
  induction frames generalizing c with
  | nil =>
    rw [processFrames]
    split
    · exact ⟨⟨hsent,by simp,.inl ⟨rfl,hi,nofun⟩⟩,rfl,le_refl _,nofun⟩
    · next ho =>
      have hc : ¬c.closed := fun hc => ho (hclosed hc).2
      exact ⟨⟨hsent,iff_of_false hc hs,.inl ⟨rfl,hi,ho⟩⟩,rfl,le_refl _,id⟩
  | cons frame frames ih =>
    have hc : ¬c.closed := fun hc => nomatch (hclosed hc).1
    have hr := ih (c := c.sendFrame (frame.message contents).1 (frame.message contents).2)
      hi hs (absurd · hc) (by simpa [sendFrame] using hsent)
    cases frame with
    | string opCode data
    | vector opCode data => exact hr.imp_right (.imp_right (.imp_left (Nat.le_succ_of_le ·)))
    | blob opCode blob =>
      have he : processFrames contents (.blob opCode blob::frames) c = {c with
          outgoingFrameQueue := .blob opCode blob::frames, blobLoaderStatus := .started blob} := by
        simp [processFrames,hi]
      rw [he]
      exact ⟨⟨hsent,iff_of_false hc hs,.inr ⟨hs,_,_,_,rfl,rfl⟩⟩,rfl,le_refl _,id⟩

/-- While the blob of the first frame is loading nothing is sent. -/
theorem processOutgoingFrameQueue_orderly (hs : c.outgoingFrameQueueStatus ≠ .queueClosed)
    (hclosed : c.closed → c.outgoingFrameQueue = [] ∧ c.outgoingFrameQueueStatus = .queueClosing)
    (hsent : c.sent++c.outgoingFrameQueue.map (·.message contents) =
      c.enqueued.map (·.message contents))
    (hl : c.blobLoaderStatus = .notStarted ∨ ∃ opCode blob frames,
      c.outgoingFrameQueue = .blob opCode blob::frames ∧ c.blobLoaderStatus = .started blob) :
    Orderly contents (c.processOutgoingFrameQueue contents) := by
  rw [processOutgoingFrameQueue,if_neg hs]
  obtain hi | ⟨opCode,blob,frames,hq,hstarted⟩ := hl
  · exact And.left (processFrames_orderly hi hs hclosed hsent)
  · have he : processFrames contents c.outgoingFrameQueue c = c := by
      simp only [hq,processFrames,hstarted]
      simp [← hq,← hstarted]
    have hc : ¬c.closed := fun hc => by simpa [hq] using (hclosed hc).1
    rw [he]
    exact ⟨hsent,iff_of_false hc hs,.inr ⟨hs,opCode,blob,frames,hq,hstarted⟩⟩

/-! ### One call -/

theorem Orderly.enqueue {frame : QueuedFrame β} (h : Orderly contents c)
    (hs : (c.enqueue frame).map (processOutgoingFrameQueue contents) = some c') :
    Orderly contents c' := by
  obtain ⟨c₁,he,rfl⟩ := Option.map_eq_some_iff.mp hs
  rw [WebSocketChannel.enqueue] at he
  split_ifs at he with ho
  cases he
  have hc : ¬c.closed := by simp [h.closed,ho]
  refine processOutgoingFrameQueue_orderly (by simp [ho]) (absurd · hc) (by simp [← h.sent]) ?_
  obtain ⟨_,hi,_⟩ | ⟨_,opCode,blob,frames,hq,hl⟩ := h.idle_or_loading
  · exact .inl hi
  · exact .inr ⟨opCode,blob,frames++[frame],by rw [hq,cons_append],hl⟩

theorem Orderly.startClosingHandshake {code : ℤ} {reason : List UInt8} (h : Orderly contents c)
    (hs : c.startClosingHandshake contents code reason = some c') :
    Orderly contents c' ∧ c'.closing := by
  rw [WebSocketChannel.startClosingHandshake] at hs
  split at hs
  · next hc =>
    cases hs
    exact ⟨h,hc⟩
  · obtain ⟨c₁,he,hs⟩ := Option.bind_eq_some_iff.mp hs
    cases hs
    have := h.enqueue (Option.map_eq_some_iff.mpr ⟨c₁,he,rfl⟩)
    exact ⟨⟨this.sent,this.closed,this.idle_or_loading⟩,rfl⟩

/-- The peer has closed: the socket is closed as soon as the queue is empty. -/
theorem Orderly.queueClosing (h : Orderly contents c) :
    Orderly contents (processOutgoingFrameQueue contents
      { c with outgoingFrameQueueStatus := .queueClosing }) := by
  obtain ⟨hq,hi,_⟩ | ⟨hs,hl⟩ := h.idle_or_loading
  · exact processOutgoingFrameQueue_orderly nofun (fun _ => ⟨hq,rfl⟩) h.sent (.inl hi)
  · have hc : ¬c.closed := fun hc => hs (h.closed.mp hc)
    exact processOutgoingFrameQueue_orderly nofun (absurd · hc) h.sent (.inr hl)

/-- The end of a load: the frame that waited is sent. -/
theorem Orderly.didFinishLoading {blob : β} (h : Orderly contents c)
    (hl : c.blobLoaderStatus = .started blob) :
    ∃ c', c.step contents .didFinishLoading = some c' ∧ Orderly contents c' ∧
      c'.enqueued = c.enqueued ∧ c'.outgoingFrameQueue.length < c.outgoingFrameQueue.length ∧
      (c.outgoingFrameQueueStatus ≠ .queueOpen → c'.outgoingFrameQueueStatus ≠ .queueOpen) := by
  obtain ⟨_,hi,_⟩ | ⟨hs,opCode,blob',frames,hq,hload'⟩ := h.idle_or_loading
  · simp [hi] at hl
  cases hload'.symm.trans hl
  have hc : ¬c.closed := fun hc => hs (h.closed.mp hc)
  let c₁ := sendFrame opCode (contents blob) {c with blobLoaderStatus := .notStarted}
  have hsent : c₁.sent++frames.map (·.message contents) = c₁.enqueued.map (·.message contents) := by
    simpa [c₁,sendFrame,hq,QueuedFrame.message] using h.sent
  obtain ⟨ho,he,hlen,hopen⟩ := processFrames_orderly (c := c₁) rfl hs (absurd · hc) hsent
  refine ⟨_,?_,ho,he,Nat.lt_of_le_of_lt hlen (by simp [hq]),hopen⟩
  simp [WebSocketChannel.step,hl,processOutgoingFrameQueue,if_neg hs,hq,processFrames,c₁]

theorem Orderly.didCloseSocketStream (h : Orderly contents c)
    (hf : ¬c.didCloseSocketStream.failed) : Orderly contents c.didCloseSocketStream := by
  rw [WebSocketChannel.didCloseSocketStream] at hf ⊢
  split
  · next hs => exact ⟨h.sent,iff_of_true rfl hs,h.idle_or_loading⟩
  · next hs =>
    rw [if_neg hs] at hf
    obtain ⟨hq,hi,_⟩ | ⟨_,_,_,_,_,hl⟩ := h.idle_or_loading
    · simp only [abortOutgoingFrameQueue,hi]
      exact ⟨by simpa [hq] using h.sent,iff_of_true rfl rfl,.inl ⟨rfl,rfl,nofun⟩⟩
    · simp [abortOutgoingFrameQueue,hl] at hf

theorem fail_failed (c : WebSocketChannel β) : c.fail.failed := by
  simp only [fail,WebSocketChannel.didCloseSocketStream,abortOutgoingFrameQueue]
  split_ifs
  · rfl
  · rfl
  · split <;> rfl

/-- A call that does not fail the channel keeps the order of its frames. -/
theorem Orderly.step {action : ChannelAction β} (h : Orderly contents c)
    (hs : c.step contents action = some c') (hf : ¬c'.failed) : Orderly contents c' := by
  cases action with
  | sendText data | sendBinary data | sendBlob data => exact h.enqueue hs
  | close code reason =>
    rw [WebSocketChannel.step] at hs
    split_ifs at hs
    · cases hs
      exact h
    · exact (h.startClosingHandshake hs).1
  | receivePing payload =>
    rw [WebSocketChannel.step] at hs
    split_ifs at hs
    · cases hs
      exact h
    · exact h.enqueue hs
  | receiveClose code reason =>
    rw [WebSocketChannel.step] at hs
    split at hs
    · cases hs
      exact h
    · obtain ⟨c₁,hc₁,hs⟩ := Option.bind_eq_some_iff.mp hs
      have hr : Orderly contents { c with receivedClosingHandshake := true } :=
        ⟨h.sent,h.closed,h.idle_or_loading⟩
      obtain ⟨h₁,hc⟩ := hr.startClosingHandshake hc₁
      rw [if_pos hc] at hs
      cases hs
      exact h₁.queueClosing
  | didFinishLoading =>
    obtain ⟨_,hi,_⟩ | ⟨_,_,blob,_,_,hl⟩ := h.idle_or_loading
    · simp [WebSocketChannel.step,hi] at hs
    · obtain ⟨c₁,hc₁,h₁,_⟩ := h.didFinishLoading hl
      cases hc₁.symm.trans hs
      exact h₁
  | didFail =>
    rw [WebSocketChannel.step] at hs
    split at hs
    · cases hs
      exact absurd (fail_failed _) hf
    · nomatch hs
  | didCloseSocketStream =>
    cases hs
    exact h.didCloseSocketStream hf

/-! ### Whole runs -/

/-- Once the loads complete, everything is sent and the socket is closed if it is to be. -/
theorem Orderly.loads_complete (h : Orderly contents c) :
    ∃ n c', run (WebSocketChannel.step contents) (replicate n .didFinishLoading) c = some c' ∧
      c'.sent = c.enqueued.map (·.message contents) ∧
      (c.outgoingFrameQueueStatus ≠ .queueOpen → c'.closed) := by
  -- every load that completes shortens the queue
  induction hn : c.outgoingFrameQueue.length using Nat.strong_induction_on generalizing c with
  | _ n ih =>
    obtain ⟨hq,_,hs⟩ | ⟨_,_,blob,_,_,hl⟩ := h.idle_or_loading
    · refine ⟨0,c,rfl,by simpa [hq] using h.sent,fun ho => h.closed.mpr ?_⟩
      cases hstatus : c.outgoingFrameQueueStatus <;> simp_all
    · obtain ⟨c₁,hc₁,h₁,he,hlen,ho⟩ := h.didFinishLoading hl
      obtain ⟨k,c',hr,hsent,hc⟩ := ih _ (hn ▸ hlen) h₁ rfl
      refine ⟨k+1,c',?_,he ▸ hsent,fun hs => hc (ho hs)⟩
      rw [replicate_succ,run,hc₁]
      exact hr

/-- A frame of the application. -/
def isData : QueuedFrame β → Bool
  | .string opCode _ | .vector opCode _ | .blob opCode _ =>
    opCode = opCodeText || opCode = opCodeBinary

/-- The frames that the application sends. -/
def dataSentBy : ChannelAction β → List (QueuedFrame β)
  | .sendText utf8 => [.string opCodeText utf8]
  | .sendBinary data => [.vector opCodeBinary data]
  | .sendBlob binaryData => [.blob opCodeBinary binaryData]
  | _ => []

theorem enqueued_processOutgoingFrameQueue (c : WebSocketChannel β) :
    (c.processOutgoingFrameQueue contents).enqueued = c.enqueued := by
  have hloop : ∀ frames (c : WebSocketChannel β),
      (processFrames contents frames c).enqueued = c.enqueued := by
    intro frames c
    fun_induction processFrames contents frames c <;> simp_all [sendFrame]
  rw [processOutgoingFrameQueue]
  split
  · rfl
  · exact hloop _ c

theorem enqueued_enqueue {frame : QueuedFrame β}
    (h : (c.enqueue frame).map (processOutgoingFrameQueue contents) = some c') :
    c'.enqueued = c.enqueued ++ [frame] := by
  obtain ⟨c₁, h₁, rfl⟩ := Option.map_eq_some_iff.mp h
  rw [enqueued_processOutgoingFrameQueue]
  rw [enqueue] at h₁
  split at h₁
  · cases h₁
    rfl
  · cases h₁

theorem enqueued_startClosingHandshake {code : ℤ} {reason : List UInt8}
    (h : c.startClosingHandshake contents code reason = some c') :
    c'.enqueued.filter isData = c.enqueued.filter isData := by
  rw [startClosingHandshake] at h
  split at h
  · cases h
    rfl
  · obtain ⟨c₁, h₁, h⟩ := Option.bind_eq_some_iff.mp h
    cases h
    have he : (c₁.processOutgoingFrameQueue contents).enqueued = _ :=
      enqueued_enqueue (Option.map_eq_some_iff.mpr ⟨c₁, h₁, rfl⟩)
    dsimp only
    rw [he, filter_append]
    exact append_nil _

theorem enqueued_didCloseSocketStream (c : WebSocketChannel β) :
    c.didCloseSocketStream.enqueued = c.enqueued := by
  simp only [WebSocketChannel.didCloseSocketStream, abortOutgoingFrameQueue]
  repeat' split
  all_goals rfl

theorem enqueued_step {a : ChannelAction β} (h : c.step contents a = some c') :
    c'.enqueued.filter isData = c.enqueued.filter isData ++ dataSentBy a := by
  cases a with
  | sendText | sendBinary | sendBlob =>
    rw [enqueued_enqueue h, filter_append]
    rfl
  | receivePing payload =>
    rw [WebSocketChannel.step] at h
    split at h
    · cases h
      exact (append_nil _).symm
    · rw [enqueued_enqueue h, filter_append]
      rfl
  | receiveClose code reason =>
    refine Eq.trans ?_ (append_nil _).symm
    rw [WebSocketChannel.step] at h
    split at h
    · cases h
      rfl
    · obtain ⟨c₁, h₁, h⟩ := Option.bind_eq_some_iff.mp h
      rw [← enqueued_startClosingHandshake h₁]
      grind [enqueued_processOutgoingFrameQueue]
  | _ =>
    refine Eq.trans ?_ (append_nil _).symm
    simp only [WebSocketChannel.step, fail] at h
    grind [enqueued_startClosingHandshake, enqueued_processOutgoingFrameQueue,
      enqueued_didCloseSocketStream]

end WebSocketChannel

end QPlusWeb.WebSockets
