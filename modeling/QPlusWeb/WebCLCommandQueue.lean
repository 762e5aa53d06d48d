import QPlusWeb.WebCLInputChecker

/-!
# Transfers of a command queue

The `enqueue` functions of `WebCLCommandQueue` that move data.  A function either sets an exception and
returns, or calls the platform's function of the same name; the value is the call that it makes.  Read
and write functions look at the context of their buffer or image before they check that it is not null.
-/

namespace QPlusWeb.WebCL

open WebCLInputChecker

inductive ExceptionCode
  | MEM_COPY_OVERLAP | IMAGE_FORMAT_MISMATCH | INVALID_VALUE | INVALID_CONTEXT
  | INVALID_COMMAND_QUEUE | INVALID_HOST_PTR | INVALID_MEM_OBJECT | INVALID_IMAGE_SIZE
  | INVALID_EVENT_WAIT_LIST | INVALID_EVENT | WEBCL_EXTENSION_NOT_ENABLED
  deriving DecidableEq, Repr

/-- Why no platform call is made. -/
inductive Stop
  | nullDereference
  | exception (code : ExceptionCode)
  deriving DecidableEq, Repr

/-- A function that may stop before its platform call. -/
abbrev Checked := Except Stop

/-- `if (failed) { setExceptionFromComputeErrorCode(code, exception); return; }` -/
def throwIf (failed : Bool) (code : ExceptionCode) : Checked Unit :=
  if failed then .error (.exception code) else .ok ()

/-- `if (willThrowException(exception)) return;` -/
def rethrow : Option ExceptionCode → Checked Unit
  | none => .ok ()
  | some code => .error (.exception code)

def dereference {α : Type} : Option α → Checked α
  | none => .error .nullDereference
  | some a => .ok a

/-- `validateWebCLObject`: the object is there, and so is its platform object, which is returned. -/
def validateWebCLObject {α : Type} (platformObject : α → Option ℕ) (object : Option α) :
    Checked (α × ℕ) :=
  match object with
  | none => .error (.exception .INVALID_MEM_OBJECT)
  | some a =>
    match platformObject a with
    | none => .error (.exception .INVALID_MEM_OBJECT)
    | some compute => .ok (a, compute)

section
variable {α β : Type} {code : ExceptionCode} {stop : Stop} {f : Unit → Checked β} {failed : Bool}

theorem ok_bind (a : α) (f : α → Checked β) : ((.ok a : Checked α) >>= f) = f a := rfl

theorem bind_isOk_iff {x : Checked α} {f : α → Checked β} :
    (x >>= f).isOk = true ↔ ∃ a, x = .ok a ∧ (f a).isOk = true := by
  cases x with
  | error stop => exact ⟨nofun, nofun⟩
  | ok a => exact ⟨fun h => ⟨a, rfl, h⟩, fun ⟨_, ha, h⟩ => Except.ok.inj ha ▸ h⟩

theorem throwIf_bind_isOk :
    (throwIf failed code >>= f).isOk = true ↔ failed = false ∧ (f ()).isOk = true := by
  cases failed
  · exact ⟨fun h => ⟨rfl, h⟩, fun h => h.2⟩
  · exact ⟨nofun, nofun⟩

theorem throwIf_bind_eq_error : (throwIf failed code >>= f) = .error stop ↔
      failed ∧ .exception code = stop ∨ failed = false ∧ f () = .error stop := by
  cases failed
  · exact ⟨fun h => .inr ⟨rfl,h⟩,fun h => (h.resolve_left nofun).2⟩
  · exact ⟨fun h => .inl ⟨rfl,Except.error.inj h⟩,fun h => congrArg _ (h.resolve_right nofun).2⟩

theorem throwIf_ne_error (failed : Bool)
    (h : .exception code ≠ stop) : throwIf failed code ≠ .error stop := by
  cases failed
  · exact nofun
  · exact fun heq => h (Except.error.inj heq)

theorem bind_ne_error {x : Checked α} {f : α → Checked β} (hx : x ≠ .error stop)
    (hf : ∀ a, f a ≠ .error stop) : (x >>= f) ≠ .error stop := by
  cases x with
  | error e => exact fun heq => hx (congrArg _ (Except.error.inj heq))
  | ok a => exact hf a

theorem dereference_bind_isOk {p : Option α} {f : α → Checked β} :
    (dereference p >>= f).isOk = true ↔ ∃ a, p = some a ∧ (f a).isOk = true := by
  cases p with
  | none => exact ⟨nofun, nofun⟩
  | some a => exact ⟨fun h => ⟨a, rfl, h⟩, fun ⟨_, ha, h⟩ => Option.some.inj ha ▸ h⟩

theorem validateWebCLObject_bind_isOk {platformObject : α → Option ℕ} {object : Option α}
    {f : α × ℕ → Checked β} :
    (validateWebCLObject platformObject object >>= f).isOk = true ↔
      ∃ a, object = some a ∧ ∃ compute, platformObject a = some compute ∧
        (f (a, compute)).isOk = true := by
  cases object with
  | none => exact ⟨nofun, nofun⟩
  | some a =>
    simp only [validateWebCLObject, Option.some.injEq, exists_eq_left']
    cases platformObject a with
    | none => exact ⟨nofun, nofun⟩
    | some compute => exact ⟨fun h => ⟨compute, rfl, h⟩, fun ⟨_, hc, h⟩ => Option.some.inj hc ▸ h⟩

end

structure WebCLEvent where
  context : ℕ
  platformObject : ℕ
  isPlatformObjectNeutralized : Bool
  holdsValidCLObject : Bool
  isUserEvent : Bool
  deriving DecidableEq, Repr

/-- Host memory that a script has handed over. -/
structure HostPtr where
  address : Option ℕ
  length : SizeT
  deriving DecidableEq, Repr

/-- The queue, with the largest image its device supports and the extensions its context has enabled. -/
structure WebCLCommandQueue where
  isPlatformObjectNeutralized : Bool
  context : ℕ
  maximumImageWidth : CCuint
  maximumImageHeight : CCuint
  htmlImageEnabled : Bool
  htmlVideoEnabled : Bool
  deriving DecidableEq, Repr

/-- The arguments that OpenCL gets. -/
inductive PlatformCall
  | enqueueWriteBuffer (buffer : ℕ) (blocking : Bool) (offset numBytes : CCuint)
      (hostPtr : Option ℕ) (events : List ℕ) (event : Option WebCLEvent)
  | enqueueReadBuffer (buffer : ℕ) (blocking : Bool) (offset numBytes : CCuint)
      (hostPtr : Option ℕ) (events : List ℕ) (event : Option WebCLEvent)
  | enqueueWriteBufferRect (buffer : ℕ) (blocking : Bool) (bufferOrigin hostOrigin region : List SizeT)
      (bufferRowPitch bufferSlicePitch hostRowPitch hostSlicePitch : CCuint) (hostPtr : Option ℕ)
      (events : List ℕ) (event : Option WebCLEvent)
  | enqueueReadBufferRect (buffer : ℕ) (blocking : Bool) (bufferOrigin hostOrigin region : List SizeT)
      (bufferRowPitch bufferSlicePitch hostRowPitch hostSlicePitch : CCuint) (hostPtr : Option ℕ)
      (events : List ℕ) (event : Option WebCLEvent)
  | enqueueReadImage (image : ℕ) (blocking : Bool) (origin region : List SizeT) (rowPitch : CCuint)
      (hostPtr : Option ℕ) (events : List ℕ) (event : Option WebCLEvent)
  | enqueueWriteImage (image : ℕ) (blocking : Bool) (origin region : List SizeT) (rowPitch : CCuint)
      (hostPtr : Option ℕ) (events : List ℕ) (event : Option WebCLEvent)
  | enqueueCopyImage (source target : ℕ) (sourceOrigin targetOrigin region : List SizeT)
      (events : List ℕ) (event : Option WebCLEvent)
  | enqueueCopyImageToBuffer (source target : ℕ) (sourceOrigin region : List SizeT)
      (targetOffset : CCuint) (events : List ℕ) (event : Option WebCLEvent)
  | enqueueCopyBufferToImage (source target : ℕ) (sourceOffset : CCuint)
      (targetOrigin region : List SizeT) (events : List ℕ) (event : Option WebCLEvent)
  | enqueueCopyBuffer (source target : ℕ) (sourceOffset targetOffset sizeInBytes : CCuint)
      (events : List ℕ) (event : Option WebCLEvent)
  | enqueueCopyBufferRect (source target : ℕ) (sourceOrigin targetOrigin region : List SizeT)
      (sourceRowPitch sourceSlicePitch targetRowPitch targetSlicePitch : CCuint)
      (events : List ℕ) (event : Option WebCLEvent)
  deriving DecidableEq, Repr

/-- The events that a command waits for and the event that it signals. -/
structure EventArguments where
  events : List WebCLEvent
  event : Option WebCLEvent
  deriving DecidableEq, Repr

/-- The arguments of `enqueueReadBuffer` and `enqueueWriteBuffer`. -/
structure LinearTransfer extends EventArguments where
  buffer : Option WebCLBuffer
  blocking : Bool
  offset : CCuint
  numBytes : CCuint
  hostPtr : HostPtr
  deriving DecidableEq, Repr

/-- The arguments of `enqueueReadBufferRect` and `enqueueWriteBufferRect`. -/
structure RectTransfer extends EventArguments where
  buffer : Option WebCLBuffer
  blocking : Bool
  bufferOrigin : List CCuint
  hostOrigin : List CCuint
  region : List CCuint
  bufferRowPitch : CCuint
  bufferSlicePitch : CCuint
  hostRowPitch : CCuint
  hostSlicePitch : CCuint
  hostPtr : HostPtr
  deriving DecidableEq, Repr

/-- The arguments of `enqueueReadImage` and `enqueueWriteImage`. -/
structure ImageTransfer extends EventArguments where
  image : Option WebCLImage
  blocking : Bool
  origin : List CCuint
  region : List CCuint
  hostRowPitch : CCuint
  hostPtr : HostPtr
  deriving DecidableEq, Repr

structure CopyImage extends EventArguments where
  sourceImage : Option WebCLImage
  targetImage : Option WebCLImage
  sourceOrigin : List CCuint
  targetOrigin : List CCuint
  region : List CCuint
  deriving DecidableEq, Repr

/-- The arguments of `enqueueCopyImageToBuffer` and `enqueueCopyBufferToImage`. -/
structure CopyImageBuffer extends EventArguments where
  image : Option WebCLImage
  buffer : Option WebCLBuffer
  origin : List CCuint
  region : List CCuint
  offset : CCuint
  deriving DecidableEq, Repr

structure CopyBuffer extends EventArguments where
  sourceBuffer : Option WebCLBuffer
  targetBuffer : Option WebCLBuffer
  sourceOffset : CCuint
  targetOffset : CCuint
  sizeInBytes : CCuint
  deriving DecidableEq, Repr

structure CopyBufferRect extends EventArguments where
  sourceBuffer : Option WebCLBuffer
  targetBuffer : Option WebCLBuffer
  sourceOrigin : List CCuint
  targetOrigin : List CCuint
  region : List CCuint
  sourceRowPitch : CCuint
  sourceSlicePitch : CCuint
  targetRowPitch : CCuint
  targetSlicePitch : CCuint
  deriving DecidableEq, Repr

/-- `Vector<size_t>::appendVector` of a vector of `CCuint`. -/
def copyVector (v : List CCuint) : List SizeT := v.map (·.toUInt64)

namespace WebCLCommandQueue
variable (queue : WebCLCommandQueue) {exception : Option ExceptionCode}

inductive WebCLToCCEventsFilterCriteria
  | DoNotAcceptUserEvent | AcceptUserEvent
  deriving DecidableEq, Repr

def acceptUserEventUnless (blocking : Bool) : WebCLToCCEventsFilterCriteria :=
  if blocking then .DoNotAcceptUserEvent else .AcceptUserEvent

/-- The loop over the wait list: it stops at the first event that cannot be waited for. -/
def ccEventListFromWebCLEventList (criteria : WebCLToCCEventsFilterCriteria) :
    List WebCLEvent → Checked (List ℕ)
  | [] => .ok []
  | event :: events => do
    throwIf (event.isPlatformObjectNeutralized || !event.holdsValidCLObject)
      .INVALID_EVENT_WAIT_LIST
    throwIf (criteria = .DoNotAcceptUserEvent && event.isUserEvent) .INVALID_EVENT_WAIT_LIST
    throwIf (!compareContext event.context queue.context) .INVALID_CONTEXT
    let computeEvents ← ccEventListFromWebCLEventList criteria events
    return event.platformObject :: computeEvents

/-- A used, released or user event cannot be signalled. -/
def computeEventFromWebCLEventIfApplicable : Option WebCLEvent → Checked (Option WebCLEvent)
  | none => .ok none
  | some event => do
    throwIf (event.isPlatformObjectNeutralized || event.holdsValidCLObject || event.isUserEvent)
      .INVALID_EVENT
    return some event

/-- The end of every function: the events are checked, and the platform is called unless an exception
has been set. -/
def callWithEvents (arguments : EventArguments) (criteria : WebCLToCCEventsFilterCriteria)
    (exception : Option ExceptionCode) (call : List ℕ → Option WebCLEvent → PlatformCall) :
    Checked PlatformCall := do
  let computeEvents ← queue.ccEventListFromWebCLEventList criteria arguments.events
  rethrow exception
  let computeEvent ← computeEventFromWebCLEventIfApplicable arguments.event
  return call computeEvents computeEvent

/-- The events are not what makes a copy overlap. -/
theorem ccEventListFromWebCLEventList_ne_overlap (criteria : WebCLToCCEventsFilterCriteria)
    (events : List WebCLEvent) : queue.ccEventListFromWebCLEventList criteria events ≠
      .error (.exception .MEM_COPY_OVERLAP) := by
  induction events with
  | nil => exact nofun
  | cons event events ih =>
    refine bind_ne_error (throwIf_ne_error _ (by decide)) fun _ => ?_
    refine bind_ne_error (throwIf_ne_error _ (by decide)) fun _ => ?_
    refine bind_ne_error (throwIf_ne_error _ (by decide)) fun _ => ?_
    exact bind_ne_error ih fun _ => nofun

theorem computeEventFromWebCLEventIfApplicable_ne_overlap (event : Option WebCLEvent) :
    computeEventFromWebCLEventIfApplicable event ≠ .error (.exception .MEM_COPY_OVERLAP) := by
  cases event with
  | none => exact nofun
  | some event => exact bind_ne_error (throwIf_ne_error _ (by decide)) fun _ => nofun

theorem callWithEvents_ne_overlap (arguments : EventArguments)
    (criteria : WebCLToCCEventsFilterCriteria)
    (he : rethrow exception ≠ .error (.exception .MEM_COPY_OVERLAP))
    (f : List ℕ → Option WebCLEvent → PlatformCall) :
    queue.callWithEvents arguments criteria exception f ≠
      .error (.exception .MEM_COPY_OVERLAP) := by
  refine bind_ne_error (queue.ccEventListFromWebCLEventList_ne_overlap _ _) fun _ => ?_
  refine bind_ne_error he fun _ => ?_
  exact bind_ne_error (computeEventFromWebCLEventIfApplicable_ne_overlap _) fun _ => nofun

/-- The events can be waited for and signalled. -/
def TakesEvents (arguments : EventArguments) (criteria : WebCLToCCEventsFilterCriteria) : Prop :=
  (queue.ccEventListFromWebCLEventList criteria arguments.events).isOk = true ∧
    (computeEventFromWebCLEventIfApplicable arguments.event).isOk = true

theorem callWithEvents_isOk {arguments : EventArguments} {criteria : WebCLToCCEventsFilterCriteria}
    {f : List ℕ → Option WebCLEvent → PlatformCall} :
    (queue.callWithEvents arguments criteria exception f).isOk = true ↔
      exception = none ∧ queue.TakesEvents arguments criteria := by
  unfold callWithEvents TakesEvents
  cases queue.ccEventListFromWebCLEventList criteria arguments.events with
  | error stop => exact ⟨nofun, fun h => absurd h.2.1 nofun⟩
  | ok computeEvents =>
    cases exception with
    | some code => exact ⟨nofun, fun h => absurd h.1 nofun⟩
    | none =>
      cases computeEventFromWebCLEventIfApplicable arguments.event with
      | error stop => exact ⟨nofun, fun h => absurd h.2.2 nofun⟩
      | ok event => exact ⟨fun _ => ⟨rfl, rfl, rfl⟩, fun _ => rfl⟩

def supportsWidthHeight (descriptor : WebCLImageDescriptor) : Bool :=
  descriptor.width ≤ queue.maximumImageWidth ∧ descriptor.height ≤ queue.maximumImageHeight

/-- The buffer is there, belongs to the context of the queue and has not been released. -/
def UsesBuffer (object : Option WebCLBuffer) : Prop :=
  ∃ buffer, object = some buffer ∧ queue.context = buffer.context ∧
    buffer.platformObject.isSome = true

/-- The same for an image, which must not be too large for the device. -/
def UsesImage (object : Option WebCLImage) : Prop :=
  ∃ image, object = some image ∧ queue.context = image.context ∧
    image.platformObject.isSome = true ∧ queue.supportsWidthHeight image.imageDescriptor = true

def enqueueWriteBufferBase (t : LinearTransfer) : Checked PlatformCall := do
  throwIf queue.isPlatformObjectNeutralized .INVALID_COMMAND_QUEUE
  let buffer ← dereference t.buffer
  throwIf (!compareContext queue.context buffer.context) .INVALID_CONTEXT
  let (_, computeMemory) ← validateWebCLObject WebCLBuffer.platformObject t.buffer
  throwIf t.hostPtr.address.isNone .INVALID_HOST_PTR
  throwIf (t.hostPtr.length < t.numBytes.toUInt64 ||
    buffer.sizeInBytes < (t.offset + t.numBytes).toUInt64) .INVALID_VALUE
  queue.callWithEvents t.toEventArguments (acceptUserEventUnless t.blocking) none
    (.enqueueWriteBuffer computeMemory t.blocking t.offset t.numBytes t.hostPtr.address)

/-- The host pointer itself is not looked at. -/
def enqueueReadBufferBase (t : LinearTransfer) : Checked PlatformCall := do
  throwIf queue.isPlatformObjectNeutralized .INVALID_COMMAND_QUEUE
  let buffer ← dereference t.buffer
  throwIf (!compareContext queue.context buffer.context) .INVALID_CONTEXT
  let (_, computeMemory) ← validateWebCLObject WebCLBuffer.platformObject t.buffer
  throwIf (t.hostPtr.length < t.numBytes.toUInt64 ||
    buffer.sizeInBytes < (t.offset + t.numBytes).toUInt64) .INVALID_VALUE
  queue.callWithEvents t.toEventArguments (acceptUserEventUnless t.blocking) none
    (.enqueueReadBuffer computeMemory t.blocking t.offset t.numBytes t.hostPtr.address)

def enqueueWriteBufferRectBase (t : RectTransfer) : Checked PlatformCall := do
  throwIf queue.isPlatformObjectNeutralized .INVALID_COMMAND_QUEUE
  let buffer ← dereference t.buffer
  throwIf (!compareContext queue.context buffer.context) .INVALID_CONTEXT
  let (_, computeMemory) ← validateWebCLObject WebCLBuffer.platformObject t.buffer
  throwIf t.hostPtr.address.isNone .INVALID_VALUE
  throwIf (t.bufferOrigin.length ≠ 3 || t.hostOrigin.length ≠ 3 || t.region.length ≠ 3)
    .INVALID_VALUE
  throwIf (!isValidRegionForMemoryObject (copyVector t.bufferOrigin) (copyVector t.region)
      t.bufferRowPitch.toUInt64 t.bufferSlicePitch.toUInt64 buffer.sizeInBytes ||
    !isValidRegionForMemoryObject (copyVector t.hostOrigin) (copyVector t.region)
      t.hostRowPitch.toUInt64 t.hostSlicePitch.toUInt64 t.hostPtr.length) .INVALID_VALUE
  queue.callWithEvents t.toEventArguments (acceptUserEventUnless t.blocking) none
    (.enqueueWriteBufferRect computeMemory t.blocking (copyVector t.bufferOrigin)
      (copyVector t.hostOrigin) (copyVector t.region) t.bufferRowPitch t.bufferSlicePitch
      t.hostRowPitch t.hostSlicePitch t.hostPtr.address)

def enqueueReadBufferRectBase (t : RectTransfer) : Checked PlatformCall := do
  throwIf queue.isPlatformObjectNeutralized .INVALID_COMMAND_QUEUE
  let buffer ← dereference t.buffer
  throwIf (!compareContext queue.context buffer.context) .INVALID_CONTEXT
  let (_, computeMemory) ← validateWebCLObject WebCLBuffer.platformObject t.buffer
  throwIf t.hostPtr.address.isNone .INVALID_VALUE
  throwIf (t.bufferOrigin.length ≠ 3 || t.hostOrigin.length ≠ 3 || t.region.length ≠ 3)
    .INVALID_VALUE
  throwIf (!isValidRegionForMemoryObject (copyVector t.hostOrigin) (copyVector t.region)
      t.hostRowPitch.toUInt64 t.hostSlicePitch.toUInt64 t.hostPtr.length ||
    !isValidRegionForMemoryObject (copyVector t.bufferOrigin) (copyVector t.region)
      t.bufferRowPitch.toUInt64 t.bufferSlicePitch.toUInt64 buffer.sizeInBytes) .INVALID_VALUE
  queue.callWithEvents t.toEventArguments (acceptUserEventUnless t.blocking) none
    (.enqueueReadBufferRect computeMemory t.blocking (copyVector t.bufferOrigin)
      (copyVector t.hostOrigin) (copyVector t.region) t.bufferRowPitch t.bufferSlicePitch
      t.hostRowPitch t.hostSlicePitch t.hostPtr.address)

variable (t : ImageTransfer)

/-- The checks that `enqueueReadImageBase` and `enqueueWriteImageBase` share, and then the call. -/
def enqueueImageBase
    (call : ℕ → List SizeT → List SizeT → List ℕ → Option WebCLEvent → PlatformCall) :
    Checked PlatformCall := do
  throwIf queue.isPlatformObjectNeutralized .INVALID_COMMAND_QUEUE
  let image ← dereference t.image
  throwIf (!compareContext queue.context image.context) .INVALID_CONTEXT
  let (_, computeMemory) ← validateWebCLObject WebCLImage.platformObject t.image
  throwIf (!queue.supportsWidthHeight image.imageDescriptor) .INVALID_IMAGE_SIZE
  throwIf t.hostPtr.address.isNone .INVALID_VALUE
  throwIf (t.origin.length ≠ 2 || t.region.length ≠ 2) .INVALID_VALUE
  throwIf (!isValidRegionForImage image.imageDescriptor t.origin t.region ||
    !isValidRegionForHostPtr t.region t.hostRowPitch.toUInt64 image.imageDescriptor
      t.hostPtr.length) .INVALID_VALUE
  queue.callWithEvents t.toEventArguments (acceptUserEventUnless t.blocking) none
    (call computeMemory (copyVector t.origin ++ [0]) (copyVector t.region ++ [1]))

def enqueueReadImageBase : Checked PlatformCall :=
  queue.enqueueImageBase t fun image origin region =>
    .enqueueReadImage image t.blocking origin region t.hostRowPitch t.hostPtr.address

def enqueueWriteImageBase : Checked PlatformCall :=
  queue.enqueueImageBase t fun image origin region =>
    .enqueueWriteImage image t.blocking origin region t.hostRowPitch t.hostPtr.address

/-- A failed region check sets the exception and does not return. -/
def enqueueCopyImage (t : CopyImage) : Checked PlatformCall := do
  throwIf queue.isPlatformObjectNeutralized .INVALID_COMMAND_QUEUE
  let source ← dereference t.sourceImage
  throwIf (!compareContext queue.context source.context) .INVALID_CONTEXT
  let target ← dereference t.targetImage
  throwIf (!compareContext queue.context target.context) .INVALID_CONTEXT
  let (_, computeSourceImage) ← validateWebCLObject WebCLImage.platformObject t.sourceImage
  let (_, computeTargetImage) ← validateWebCLObject WebCLImage.platformObject t.targetImage
  throwIf (!compareImageFormat source.imageDescriptor target.imageDescriptor)
    .IMAGE_FORMAT_MISMATCH
  throwIf (!queue.supportsWidthHeight source.imageDescriptor ||
    !queue.supportsWidthHeight target.imageDescriptor) .INVALID_IMAGE_SIZE
  throwIf (t.sourceOrigin.length ≠ 2 || t.targetOrigin.length ≠ 2 || t.region.length ≠ 2)
    .INVALID_VALUE
  let exception :=
    if !isValidRegionForImage source.imageDescriptor t.sourceOrigin t.region ||
        !isValidRegionForImage target.imageDescriptor t.targetOrigin t.region then
      some ExceptionCode.INVALID_VALUE
    else none
  throwIf (isImageRegionOverlapping t.sourceImage t.targetImage t.sourceOrigin t.targetOrigin
    t.region) .MEM_COPY_OVERLAP
  queue.callWithEvents t.toEventArguments .AcceptUserEvent exception
    (.enqueueCopyImage computeSourceImage computeTargetImage (copyVector t.sourceOrigin ++ [0])
      (copyVector t.targetOrigin ++ [0]) (copyVector t.region ++ [1]))

def enqueueCopyImageToBuffer (t : CopyImageBuffer) : Checked PlatformCall := do
  throwIf queue.isPlatformObjectNeutralized .INVALID_COMMAND_QUEUE
  let sourceImage ← dereference t.image
  throwIf (!compareContext queue.context sourceImage.context) .INVALID_CONTEXT
  let targetBuffer ← dereference t.buffer
  throwIf (!compareContext queue.context targetBuffer.context) .INVALID_CONTEXT
  let (_, computeSourceImage) ← validateWebCLObject WebCLImage.platformObject t.image
  let (_, ccTargetBuffer) ← validateWebCLObject WebCLBuffer.platformObject t.buffer
  throwIf (!queue.supportsWidthHeight sourceImage.imageDescriptor) .INVALID_IMAGE_SIZE
  throwIf (t.origin.length ≠ 2 || t.region.length ≠ 2) .INVALID_VALUE
  throwIf (!isValidRegionForBuffer targetBuffer.sizeInBytes t.region t.offset.toUInt64
      sourceImage.imageDescriptor ||
    !isValidRegionForImage sourceImage.imageDescriptor t.origin t.region) .INVALID_VALUE
  queue.callWithEvents t.toEventArguments .AcceptUserEvent none
    (.enqueueCopyImageToBuffer computeSourceImage ccTargetBuffer (copyVector t.origin ++ [0])
      (copyVector t.region ++ [1]) t.offset)

def enqueueCopyBufferToImage (t : CopyImageBuffer) : Checked PlatformCall := do
  throwIf queue.isPlatformObjectNeutralized .INVALID_COMMAND_QUEUE
  let (sourceBuffer, ccSourceBuffer) ← validateWebCLObject WebCLBuffer.platformObject t.buffer
  let (targetImage, computeTargetImage) ← validateWebCLObject WebCLImage.platformObject t.image
  throwIf (!queue.supportsWidthHeight targetImage.imageDescriptor) .INVALID_IMAGE_SIZE
  throwIf (!compareContext queue.context sourceBuffer.context ||
    !compareContext queue.context targetImage.context) .INVALID_CONTEXT
  throwIf (t.origin.length ≠ 2 || t.region.length ≠ 2) .INVALID_VALUE
  throwIf (!isValidRegionForBuffer sourceBuffer.sizeInBytes t.region t.offset.toUInt64
      targetImage.imageDescriptor ||
    !isValidRegionForImage targetImage.imageDescriptor t.origin t.region) .INVALID_VALUE
  queue.callWithEvents t.toEventArguments .AcceptUserEvent none
    (.enqueueCopyBufferToImage ccSourceBuffer computeTargetImage t.offset
      (copyVector t.origin ++ [0]) (copyVector t.region ++ [1]))

def enqueueCopyBuffer (t : CopyBuffer) : Checked PlatformCall := do
  throwIf queue.isPlatformObjectNeutralized .INVALID_COMMAND_QUEUE
  let (source, ccSourceBuffer) ← validateWebCLObject WebCLBuffer.platformObject t.sourceBuffer
  let (target, ccTargetBuffer) ← validateWebCLObject WebCLBuffer.platformObject t.targetBuffer
  throwIf (!compareContext queue.context source.context ||
    !compareContext queue.context target.context) .INVALID_CONTEXT
  throwIf (isBufferRegionOverlapping t.sourceBuffer t.targetBuffer t.sourceOffset t.targetOffset
    t.sizeInBytes) .MEM_COPY_OVERLAP
  throwIf ((t.sourceOffset + t.sizeInBytes).toUInt64 > source.sizeInBytes ||
    (t.targetOffset + t.sizeInBytes).toUInt64 > target.sizeInBytes) .INVALID_VALUE
  queue.callWithEvents t.toEventArguments .AcceptUserEvent none
    (.enqueueCopyBuffer ccSourceBuffer ccTargetBuffer t.sourceOffset t.targetOffset t.sizeInBytes)

/-- The check of the target takes its slice pitch for the row pitch, and the other way round; the
offsets of the overlap test are 32-bit numbers of the pitches as given. -/
def enqueueCopyBufferRect (t : CopyBufferRect) : Checked PlatformCall := do
  throwIf queue.isPlatformObjectNeutralized .INVALID_COMMAND_QUEUE
  let (source, ccSourceBuffer) ← validateWebCLObject WebCLBuffer.platformObject t.sourceBuffer
  let (target, ccTargetBuffer) ← validateWebCLObject WebCLBuffer.platformObject t.targetBuffer
  throwIf (!compareContext queue.context source.context ||
    !compareContext queue.context target.context) .INVALID_CONTEXT
  throwIf (t.sourceOrigin.length ≠ 3 || t.targetOrigin.length ≠ 3 || t.region.length ≠ 3)
    .INVALID_VALUE
  let sourceOffset := item t.sourceOrigin 2 * t.sourceSlicePitch +
    item t.sourceOrigin 1 * t.sourceRowPitch + item t.sourceOrigin 0
  let targetOffset := item t.targetOrigin 2 * t.targetSlicePitch +
    item t.targetOrigin 1 * t.targetRowPitch + item t.targetOrigin 0
  let numBytes := item t.region 2 * item t.region 1 * item t.region 0
  throwIf (isBufferRegionOverlapping t.sourceBuffer t.targetBuffer sourceOffset targetOffset
    numBytes) .MEM_COPY_OVERLAP
  throwIf (!isValidRegionForMemoryObject (copyVector t.sourceOrigin) (copyVector t.region)
      t.sourceRowPitch.toUInt64 t.sourceSlicePitch.toUInt64 source.sizeInBytes ||
    !isValidRegionForMemoryObject (copyVector t.targetOrigin) (copyVector t.region)
      t.targetSlicePitch.toUInt64 t.targetRowPitch.toUInt64 target.sizeInBytes) .INVALID_VALUE
  queue.callWithEvents t.toEventArguments .AcceptUserEvent none
    (.enqueueCopyBufferRect ccSourceBuffer ccTargetBuffer (copyVector t.sourceOrigin)
      (copyVector t.targetOrigin) (copyVector t.region) t.sourceRowPitch t.sourceSlicePitch
      t.targetRowPitch t.targetSlicePitch)

section

/-- A view that a script hands over: null or sizes that do not fit its elements are refused. -/
def hostOfArrayBufferView (sizes : List CCuint) (ptr : Option ArrayBufferView) : Checked HostPtr :=
  match ptr with
  | none => .error (.exception .INVALID_VALUE)
  | some view => do
    throwIf (!sizes.all (isValidDataSizeForArrayBufferView · view)) .INVALID_VALUE
    return ⟨view.baseAddress, view.byteLength.toUInt64⟩

/-- Pixels of an element of the page, extracted if the extension is enabled. -/
def hostOfElement (extensionEnabled : Bool) (extracted : Except ExceptionCode HostPtr) :
    Checked HostPtr := do
  throwIf (!extensionEnabled) .WEBCL_EXTENSION_NOT_ENABLED
  match extracted with
  | .error code => .error (.exception code)
  | .ok hostPtr => return hostPtr

def enqueueWriteBuffer (t : LinearTransfer) (ptr : Option ArrayBufferView) :
    Checked PlatformCall := do
  let hostPtr ← hostOfArrayBufferView [t.numBytes] ptr
  queue.enqueueWriteBufferBase { t with hostPtr }

/-- The number of bytes is the size of the pixels, cut to 32 bits. -/
def enqueueWriteBufferFromElement (t : LinearTransfer) (extracted : Except ExceptionCode HostPtr) :
    Checked PlatformCall := do
  let hostPtr ← hostOfElement queue.htmlImageEnabled extracted
  queue.enqueueWriteBufferBase { t with hostPtr, numBytes := hostPtr.length.toUInt32 }

def enqueueReadBuffer (t : LinearTransfer) (ptr : Option ArrayBufferView) :
    Checked PlatformCall := do
  let hostPtr ← hostOfArrayBufferView [t.numBytes] ptr
  queue.enqueueReadBufferBase { t with hostPtr }

def enqueueReadBufferToCanvas (t : LinearTransfer) (extracted : Except ExceptionCode HostPtr) :
    Checked PlatformCall := do
  let hostPtr ← hostOfElement queue.htmlImageEnabled extracted
  queue.enqueueReadBufferBase { t with hostPtr }

def enqueueWriteBufferRect (t : RectTransfer) (ptr : Option ArrayBufferView) :
    Checked PlatformCall := do
  let hostPtr ← hostOfArrayBufferView [t.hostRowPitch, t.hostSlicePitch] ptr
  queue.enqueueWriteBufferRectBase { t with hostPtr }

def enqueueWriteBufferRectFromElement (t : RectTransfer)
    (extracted : Except ExceptionCode HostPtr) : Checked PlatformCall := do
  let hostPtr ← hostOfElement queue.htmlImageEnabled extracted
  queue.enqueueWriteBufferRectBase { t with hostPtr, hostRowPitch := 0, hostSlicePitch := 0 }

def enqueueReadBufferRect (t : RectTransfer) (ptr : Option ArrayBufferView) :
    Checked PlatformCall := do
  let hostPtr ← hostOfArrayBufferView [t.hostRowPitch, t.hostSlicePitch] ptr
  queue.enqueueReadBufferRectBase { t with hostPtr }

def enqueueReadBufferRectToCanvas (t : RectTransfer) (extracted : Except ExceptionCode HostPtr) :
    Checked PlatformCall := do
  let hostPtr ← hostOfElement queue.htmlImageEnabled extracted
  queue.enqueueReadBufferRectBase { t with hostPtr, hostRowPitch := 0, hostSlicePitch := 0 }

def enqueueReadImage (ptr : Option ArrayBufferView) : Checked PlatformCall := do
  let hostPtr ← hostOfArrayBufferView [t.hostRowPitch] ptr
  queue.enqueueReadImageBase { t with hostPtr }

variable (extracted : Except ExceptionCode HostPtr)

def enqueueReadImageToCanvas : Checked PlatformCall := do
  let hostPtr ← hostOfElement queue.htmlImageEnabled extracted
  queue.enqueueReadImageBase { t with hostPtr, hostRowPitch := 0 }

def enqueueWriteImage (ptr : Option ArrayBufferView) : Checked PlatformCall := do
  let hostPtr ← hostOfArrayBufferView [t.hostRowPitch] ptr
  queue.enqueueWriteImageBase { t with hostPtr }

def enqueueWriteImageFromElement : Checked PlatformCall := do
  let hostPtr ← hostOfElement queue.htmlImageEnabled extracted
  queue.enqueueWriteImageBase { t with hostPtr, hostRowPitch := 0 }

/-- A frame of a video is written to the whole image. -/
def enqueueWriteImageFromVideo : Checked PlatformCall := do
  let hostPtr ← hostOfElement queue.htmlVideoEnabled extracted
  let image ← dereference t.image
  queue.enqueueWriteImageBase
    { t with hostPtr, hostRowPitch := 0, origin := [0, 0],
             region := [image.imageDescriptor.width, image.imageDescriptor.height] }

end

end WebCLCommandQueue

end QPlusWeb.WebCL
