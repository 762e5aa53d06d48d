import QPlusWeb.WebCLRectTransfers

/-!
# Linear transfers and overlapping copies

An offset and a number of bytes are added as 32-bit numbers before the sum is compared with the size of
a buffer.  The overlap tests take the ranges as closed intervals, so ranges that only touch are refused.
-/

namespace QPlusWeb.WebCL

open WebCLInputChecker WebCLCommandQueue StridedRegions Ranges List

/-- `numBytes` bytes from `offset` on, of a buffer or of an array of the host. -/
structure Span where
  offset : CCuint
  numBytes : CCuint
  length : SizeT
  deriving DecidableEq, Repr

namespace Span
variable (s : Span)

def stop : ℕ := s.offset.toNat + s.numBytes.toNat

/-- The sum as a 32-bit number does not exceed the length. -/
def Admitted : Prop := s.stop % 2 ^ 32 ≤ s.length.toNat

instance : Decidable s.Admitted := inferInstanceAs (Decidable (_ ≤ _))

theorem admitted_iff {s : Span} :
    (s.length < (s.offset + s.numBytes).toUInt64 : Bool) = false ↔ s.Admitted := by
  rw [decide_eq_false_iff_not, UInt64.not_lt, UInt64.le_iff_toNat_le]
  rfl

end Span

namespace LinearTransfer
variable (t : LinearTransfer)

def spans : List Span :=
  t.buffer.toList.map (fun buffer => ⟨t.offset, t.numBytes, buffer.sizeInBytes⟩) ++
    [⟨0, t.numBytes, t.hostPtr.length⟩]

/-- Nothing but the sums can make the queue refuse the transfer. -/
def Usable (queue : WebCLCommandQueue) : Prop :=
  queue.isPlatformObjectNeutralized = false ∧ queue.UsesBuffer t.buffer ∧
    queue.TakesEvents t.toEventArguments (acceptUserEventUnless t.blocking)

theorem comparison_iff {t : LinearTransfer} {buffer : WebCLBuffer} (hb : t.buffer = some buffer) :
    (t.hostPtr.length < t.numBytes.toUInt64 ||
        buffer.sizeInBytes < (t.offset + t.numBytes).toUInt64 : Bool) = false ↔
      ∀ span ∈ t.spans, span.Admitted := by
  have hh := @Span.admitted_iff ⟨0, t.numBytes, t.hostPtr.length⟩
  have hm := @Span.admitted_iff ⟨t.offset, t.numBytes, buffer.sizeInBytes⟩
  rw [UInt32.zero_add] at hh
  rw [Bool.or_eq_false_iff, hh, hm, and_comm]
  simp [spans, hb]

theorem enqueueReadBufferBase_isOk (queue : WebCLCommandQueue) (t : LinearTransfer) :
    (queue.enqueueReadBufferBase t).isOk = true ↔
      t.Usable queue ∧ ∀ span ∈ t.spans, span.Admitted := by
  unfold Usable UsesBuffer
  simp only [enqueueReadBufferBase, throwIf_bind_isOk, dereference_bind_isOk,
    validateWebCLObject_bind_isOk, callWithEvents_isOk]
  cases hb : t.buffer with
  | none => simp
  | some buffer =>
    simp [← comparison_iff hb, compareContext, Option.isSome_iff_exists]
    tauto

theorem enqueueWriteBufferBase_isOk (queue : WebCLCommandQueue) (t : LinearTransfer) :
    (queue.enqueueWriteBufferBase t).isOk = true ↔
      (t.Usable queue ∧ t.hostPtr.address.isNone = false) ∧ ∀ span ∈ t.spans, span.Admitted := by
  unfold Usable UsesBuffer
  simp only [enqueueWriteBufferBase, throwIf_bind_isOk, dereference_bind_isOk,
    validateWebCLObject_bind_isOk, callWithEvents_isOk]
  cases hb : t.buffer with
  | none => simp
  | some buffer =>
    simp [← comparison_iff hb, compareContext, Option.isSome_iff_exists]
    tauto

end LinearTransfer

namespace CopyBuffer
variable (t : CopyBuffer)

def spans : List Span :=
  t.sourceBuffer.toList.map (fun buffer => ⟨t.sourceOffset, t.sizeInBytes, buffer.sizeInBytes⟩) ++
    t.targetBuffer.toList.map fun buffer => ⟨t.targetOffset, t.sizeInBytes, buffer.sizeInBytes⟩

/-- Nothing but the sums can make the queue refuse the copy: it is not taken for an overlapping one
either. -/
def Usable (queue : WebCLCommandQueue) : Prop :=
  queue.isPlatformObjectNeutralized = false ∧ queue.UsesBuffer t.sourceBuffer ∧
    queue.UsesBuffer t.targetBuffer ∧
    isBufferRegionOverlapping t.sourceBuffer t.targetBuffer t.sourceOffset t.targetOffset
      t.sizeInBytes = false ∧
    queue.TakesEvents t.toEventArguments .AcceptUserEvent

theorem enqueueCopyBuffer_isOk {queue : WebCLCommandQueue} {t : CopyBuffer} :
    (queue.enqueueCopyBuffer t).isOk = true ↔
      t.Usable queue ∧ ∀ span ∈ t.spans, span.Admitted := by
  unfold Usable UsesBuffer spans
  simp only [enqueueCopyBuffer, throwIf_bind_isOk, validateWebCLObject_bind_isOk,
    callWithEvents_isOk, ← Span.admitted_iff]
  cases t.sourceBuffer with
  | none => simp
  | some source =>
    cases t.targetBuffer with
    | none => simp
    | some target =>
      simp [compareContext, Option.isSome_iff_exists]
      tauto

end CopyBuffer

/-- The linear transfers that a script can ask for. -/
inductive LinearRequest
  | read (t : LinearTransfer) (ptr : Option ArrayBufferView)
  | readToCanvas (t : LinearTransfer) (extracted : Except ExceptionCode HostPtr)
  | write (t : LinearTransfer) (ptr : Option ArrayBufferView)
  | writeFromElement (t : LinearTransfer) (extracted : Except ExceptionCode HostPtr)
  | copy (t : CopyBuffer)

namespace LinearRequest

def enqueue (queue : WebCLCommandQueue) : LinearRequest → Checked PlatformCall
  | read t ptr => queue.enqueueReadBuffer t ptr
  | readToCanvas t extracted => queue.enqueueReadBufferToCanvas t extracted
  | write t ptr => queue.enqueueWriteBuffer t ptr
  | writeFromElement t extracted => queue.enqueueWriteBufferFromElement t extracted
  | copy t => queue.enqueueCopyBuffer t

/-- A read or write with the array that the script has handed over. -/
def transfers : LinearRequest → List LinearTransfer
  | read t ptr | write t ptr =>
    ptr.toList.map fun view => { t with hostPtr := ⟨view.baseAddress, view.byteLength.toUInt64⟩ }
  | readToCanvas t extracted => extracted.toOption.toList.map fun hostPtr => { t with hostPtr }
  | writeFromElement t extracted =>
    extracted.toOption.toList.map fun hostPtr =>
      { t with hostPtr, numBytes := hostPtr.length.toUInt32 }
  | copy _ => []

def spans : LinearRequest → List Span
  | copy t => t.spans
  | request => request.transfers.flatMap LinearTransfer.spans

/-- The array or the element is one that the queue can take. -/
def hostGiven (queue : WebCLCommandQueue) : LinearRequest → Bool
  | read t ptr | write t ptr => (hostOfArrayBufferView [t.numBytes] ptr).isOk
  | readToCanvas _ extracted | writeFromElement _ extracted =>
    (hostOfElement queue.htmlImageEnabled extracted).isOk
  | copy _ => true

/-- Only a write looks at the address of its array. -/
def Usable (queue : WebCLCommandQueue) (request : LinearRequest) : Prop :=
  match request with
  | copy t => t.Usable queue
  | read .. | readToCanvas .. =>
    request.hostGiven queue = true ∧ ∀ t ∈ request.transfers, t.Usable queue
  | write .. | writeFromElement .. =>
    request.hostGiven queue = true ∧
      ∀ t ∈ request.transfers, t.Usable queue ∧ t.hostPtr.address.isNone = false

theorem enqueue_isOk {queue : WebCLCommandQueue} {request : LinearRequest} :
    (request.enqueue queue).isOk = true ↔
      request.Usable queue ∧ ∀ span ∈ request.spans, span.Admitted := by
  have hread := LinearTransfer.enqueueReadBufferBase_isOk queue
  have hwrite := LinearTransfer.enqueueWriteBufferBase_isOk queue
  cases request with
  | copy t => exact CopyBuffer.enqueueCopyBuffer_isOk
  | read t ptr =>
    exact (view_bind_isOk hread (fun hostPtr => { t with hostPtr }) _ ptr).trans
      (and_congr_right' forall_mem_flatMap.symm)
  | readToCanvas t extracted =>
    exact (element_bind_isOk hread (fun hostPtr => { t with hostPtr }) _ extracted).trans
      (and_congr_right' forall_mem_flatMap.symm)
  | write t ptr =>
    exact (view_bind_isOk hwrite (fun hostPtr => { t with hostPtr }) _ ptr).trans
      (and_congr_right' forall_mem_flatMap.symm)
  | writeFromElement t extracted =>
    exact (element_bind_isOk hwrite (fun hostPtr =>
      { t with hostPtr, numBytes := hostPtr.length.toUInt32 }) _ extracted).trans
      (and_congr_right' forall_mem_flatMap.symm)

/-- A sum that does not wrap around, or wraps around to one that is too large, does no harm. -/
theorem in_bounds_iff (queue : WebCLCommandQueue) (request : LinearRequest) :
    ((request.enqueue queue).isOk = true → ∀ span ∈ request.spans, span.stop ≤ span.length.toNat) ↔
    (request.Usable queue → (∀ span ∈ request.spans, span.Admitted) →
      ∀ span ∈ request.spans, span.stop < 2 ^ 32 ∨ span.stop ≤ span.length.toNat) := by
  rw [enqueue_isOk]
  constructor
  · intro h hu ha span hs
    exact .inr (h ⟨hu, ha⟩ span hs)
  · intro h hok span hs
    rcases h hok.1 hok.2 span hs with hlt | hle
    · exact le_of_eq_of_le (Nat.mod_eq_of_lt hlt).symm (hok.2 span hs)
    · exact hle

end LinearRequest

/-- The first of two ranges of one size ends past all 32-bit numbers. -/
def Wraps (r q : Range) : Prop := 2 ^ 32 ≤ min r.start q.start + r.size

instance (r q : Range) : Decidable (Wraps r q) := inferInstanceAs (Decidable (_ ≤ _))

section
variable {s d n : CCuint}

def CCuint.range (start size : CCuint) : Range := ⟨start.toNat, size.toNat⟩

/-- The two calls of `valueInRange` miss an overlap whose first range wraps around, and ask for a gap
otherwise. -/
theorem valueInRange_or_iff :
    (valueInRange d.toUInt64 s.toUInt64 (s + n).toUInt64 ||
      valueInRange s.toUInt64 d.toUInt64 (d + n).toUInt64) = true ↔
      ¬ Wraps (CCuint.range s n) (CCuint.range d n) ∧
        ¬ Apart (CCuint.range s n) (CCuint.range d n) := by
  have hs := UInt32.toNat_lt s
  have hd := UInt32.toNat_lt d
  have hn := UInt32.toNat_lt n
  simp only [valueInRange, Bool.or_eq_true, decide_eq_true_eq, ge_iff_le, UInt64.le_iff_toNat_le,
    UInt32.toNat_toUInt64, UInt32.toNat_add, Wraps, Apart, CCuint.range]
  omega

/-- A range that wraps around ends after the start of any other, and one that touches another leaves no
gap: at most one of the three holds. -/
theorem wraps_touches_apart :
    (Wraps (CCuint.range s n) (CCuint.range d n) → ¬ Touches (CCuint.range s n) (CCuint.range d n)) ∧
    (Wraps (CCuint.range s n) (CCuint.range d n) → ¬ Apart (CCuint.range s n) (CCuint.range d n)) ∧
    (Touches (CCuint.range s n) (CCuint.range d n) →
      ¬ Apart (CCuint.range s n) (CCuint.range d n)) := by
  have hs := UInt32.toNat_lt s
  have hd := UInt32.toNat_lt d
  simp only [Wraps, Touches, Apart, CCuint.range]
  omega

/-- A test for a gap and what it should find agree if and only if nothing goes wrong. -/
theorem agree_iff {W T A : Prop} (h : (W → ¬ T) ∧ (W → ¬ A) ∧ (T → ¬ A)) :
    (¬ W ∧ ¬ A ↔ ¬ T ∧ ¬ A) ↔ ¬ W ∧ ¬ T := by
  tauto

/-- Two tests, one for each direction, and what they should find agree if and only if each direction
makes up for what is wrong in the other. -/
theorem both_agree_iff {W T A W' T' A' : Prop} (h : (W → ¬ T) ∧ (W → ¬ A) ∧ (T → ¬ A))
    (h' : (W' → ¬ T') ∧ (W' → ¬ A') ∧ (T' → ¬ A')) :
    ((¬ W ∧ ¬ A) ∧ ¬ W' ∧ ¬ A' ↔ (¬ T ∧ ¬ A) ∧ ¬ T' ∧ ¬ A') ↔
      ((T → W' ∨ A') ∧ (W → T' ∨ A')) ∧ (T' → W ∨ A) ∧ (W' → T ∨ A) := by
  grind

theorem isBufferRegionOverlapping_iff (buffer : WebCLBuffer) :
    isBufferRegionOverlapping (some buffer) (some buffer) s d n = true ↔
      ¬ Wraps (CCuint.range s n) (CCuint.range d n) ∧
        ¬ Apart (CCuint.range s n) (CCuint.range d n) := by
  simp only [isBufferRegionOverlapping, ne_eq, not_true_eq_false, if_false]
  exact valueInRange_or_iff

end

namespace CopyImage
variable (t : CopyImage)

/-- The rows or columns that a copy within an image reads and writes, in direction `i`. -/
def sourceRange (i : ℕ) : Range := CCuint.range (item t.sourceOrigin i) (item t.region i)

def targetRange (i : ℕ) : Range := CCuint.range (item t.targetOrigin i) (item t.region i)

/-- Some pixel is in both rectangles. -/
def SharesPixel : Prop :=
  ∃ x y, (x ∈ t.sourceRange 0 ∧ y ∈ t.sourceRange 1) ∧ x ∈ t.targetRange 0 ∧ y ∈ t.targetRange 1

/-- Where the rectangles touch or wrap around in direction `i`, the other direction `j` makes up for
it. -/
def ClearIn (i j : ℕ) : Prop :=
  (Touches (t.sourceRange i) (t.targetRange i) →
      Wraps (t.sourceRange j) (t.targetRange j) ∨ Apart (t.sourceRange j) (t.targetRange j)) ∧
    (Wraps (t.sourceRange i) (t.targetRange i) →
      Touches (t.sourceRange j) (t.targetRange j) ∨ Apart (t.sourceRange j) (t.targetRange j))

instance (i j : ℕ) : Decidable (t.ClearIn i j) := inferInstanceAs (Decidable (_ ∧ _))

theorem sharesPixel_iff : t.SharesPixel ↔
    Meets (t.sourceRange 0) (t.targetRange 0) ∧ Meets (t.sourceRange 1) (t.targetRange 1) := by
  constructor
  · rintro ⟨x, y, ⟨hsx, hsy⟩, htx, hty⟩
    exact ⟨⟨x, hsx, htx⟩, y, hsy, hty⟩
  · rintro ⟨⟨x, hsx, htx⟩, y, hsy, hty⟩
    exact ⟨x, y, ⟨hsx, hsy⟩, htx, hty⟩

theorem isImageRegionOverlapping_iff {t : CopyImage} (image : WebCLImage)
    (hs : t.sourceOrigin.length = 2) (ht : t.targetOrigin.length = 2) (hr : t.region.length = 2) :
    isImageRegionOverlapping (some image) (some image) t.sourceOrigin t.targetOrigin t.region =
        true ↔
      (¬ Wraps (t.sourceRange 0) (t.targetRange 0) ∧ ¬ Apart (t.sourceRange 0) (t.targetRange 0)) ∧
        ¬ Wraps (t.sourceRange 1) (t.targetRange 1) ∧
          ¬ Apart (t.sourceRange 1) (t.targetRange 1) := by
  simp only [isImageRegionOverlapping, hs, ht, hr, ne_eq, not_true_eq_false, or_self, if_false,
    Bool.and_eq_true, UInt32.add_comm (item t.region _)]
  exact and_congr valueInRange_or_iff valueInRange_or_iff

/-- The test and the rectangles agree if and only if both directions are clear. -/
theorem overlap_exact_iff {t : CopyImage} (image : WebCLImage)
    (hs : t.sourceOrigin.length = 2) (ht : t.targetOrigin.length = 2) (hr : t.region.length = 2) :
    (isImageRegionOverlapping (some image) (some image) t.sourceOrigin t.targetOrigin t.region =
        true ↔ t.SharesPixel) ↔ t.ClearIn 0 1 ∧ t.ClearIn 1 0 := by
  have hmeets (i : ℕ) : Meets (t.sourceRange i) (t.targetRange i) ↔
      ¬ Touches (t.sourceRange i) (t.targetRange i) ∧ ¬ Apart (t.sourceRange i) (t.targetRange i) :=
    meets_iff_not_apart rfl
  rw [isImageRegionOverlapping_iff image hs ht hr, t.sharesPixel_iff, hmeets, hmeets]
  exact both_agree_iff wraps_touches_apart wraps_touches_apart

end CopyImage

/-- The copy is one within a buffer that the queue can use. -/
def CopyBuffer.WithinBuffer (queue : WebCLCommandQueue) (t : CopyBuffer) (buffer : WebCLBuffer) :
    Prop :=
  queue.isPlatformObjectNeutralized = false ∧ t.sourceBuffer = some buffer ∧
    t.targetBuffer = some buffer ∧ buffer.platformObject.isSome = true ∧
    buffer.context = queue.context

/-- The copy is one within an image that the queue can use, and names two points and a size. -/
def CopyImage.WithinImage (queue : WebCLCommandQueue) (t : CopyImage) (image : WebCLImage) : Prop :=
  queue.isPlatformObjectNeutralized = false ∧ t.sourceImage = some image ∧
    t.targetImage = some image ∧ image.platformObject.isSome = true ∧
    image.context = queue.context ∧ queue.supportsWidthHeight image.imageDescriptor = true ∧
    t.sourceOrigin.length = 2 ∧ t.targetOrigin.length = 2 ∧ t.region.length = 2

namespace WebCLCommandQueue
variable {queue : WebCLCommandQueue} {buffer : WebCLBuffer}

theorem validateWebCLObject_eq_ok {α : Type} {platformObject : α → Option ℕ} {a : α}
    (h : (platformObject a).isSome) :
    ∃ compute, validateWebCLObject platformObject (some a) = .ok (a,compute) := by
  obtain ⟨compute,hc⟩ := Option.isSome_iff_exists.mp h
  exact ⟨compute,by rw [validateWebCLObject,hc]⟩

theorem enqueueCopyBuffer_eq_overlap_iff {t : CopyBuffer} (h : t.WithinBuffer queue buffer) :
    queue.enqueueCopyBuffer t = .error (.exception .MEM_COPY_OVERLAP) ↔
      isBufferRegionOverlapping (some buffer) (some buffer) t.sourceOffset t.targetOffset
        t.sizeInBytes := by
  obtain ⟨hq,hs,ht,hp,hc⟩ := h
  obtain ⟨compute,hv⟩ := validateWebCLObject_eq_ok hp
  have hne := fun f => queue.callWithEvents_ne_overlap t.toEventArguments .AcceptUserEvent
    (show rethrow none ≠ _ from nofun) f
  simp [enqueueCopyBuffer,hq,hs,ht,hv,hc,compareContext,ok_bind,throwIf_bind_eq_error,hne]

theorem enqueueCopyImage_eq_overlap_iff {t : CopyImage} {image : WebCLImage}
    (h : t.WithinImage queue image) :
    queue.enqueueCopyImage t = .error (.exception .MEM_COPY_OVERLAP) ↔
      isImageRegionOverlapping (some image) (some image) t.sourceOrigin t.targetOrigin t.region =
        true := by
  obtain ⟨hq,hs,ht,hp,hc,hsize,hl,hlen',hlen''⟩ := h
  obtain ⟨compute,hv⟩ := validateWebCLObject_eq_ok hp
  have hf : compareImageFormat image.imageDescriptor image.imageDescriptor := by
    simp [compareImageFormat]
  have hne : ∀ exception f, exception ≠ some ExceptionCode.MEM_COPY_OVERLAP →
      queue.callWithEvents t.toEventArguments .AcceptUserEvent exception f ≠
        .error (.exception .MEM_COPY_OVERLAP) := by
    intro exception f he
    refine queue.callWithEvents_ne_overlap _ _ ?_ f
    cases exception with
    | none => exact nofun
    | some code => exact fun heq => he (by cases heq; rfl)
  have hcode : ∀ failed : Bool, (if failed then some ExceptionCode.INVALID_VALUE else none) ≠
      some .MEM_COPY_OVERLAP := by
    decide
  simp only [enqueueCopyImage,hq,hs,ht,hv,hc,hsize,hl,hlen',
    hlen'',hf,compareContext,dereference,ok_bind,throwIf_bind_eq_error,decide_true,
    Bool.not_true,Bool.or_self,Bool.false_eq_true,Stop.exception.injEq,reduceCtorEq,and_false,
    false_or,and_true,true_and,ne_eq,not_true_eq_false,decide_false]
  exact or_iff_left fun hcall => hne _ _ (hcode _) hcall.2

end WebCLCommandQueue

/-- What is exact about the sums and the overlap tests.  A transfer that is handed to OpenCL stays in its
buffers and arrays if and only if the sums that were compared have not wrapped around into them; a copy
within one buffer is refused as overlapping exactly when its ranges share a byte if and only if the first
range neither wraps around nor touches the other; and one within an image if and only if each direction
makes up for what is wrong in the other. -/
theorem linear_transfers_exact_iff (queue : WebCLCommandQueue) :
    (∀ request : LinearRequest,
      ((request.enqueue queue).isOk = true →
        ∀ span ∈ request.spans, span.stop ≤ span.length.toNat) ↔
      (request.Usable queue → (∀ span ∈ request.spans, span.Admitted) →
        ∀ span ∈ request.spans, span.stop < 2 ^ 32 ∨ span.stop ≤ span.length.toNat)) ∧
    (∀ (t : CopyBuffer) (buffer : WebCLBuffer), t.WithinBuffer queue buffer →
      let source := CCuint.range t.sourceOffset t.sizeInBytes
      let target := CCuint.range t.targetOffset t.sizeInBytes
      ((queue.enqueueCopyBuffer t = .error (.exception .MEM_COPY_OVERLAP) ↔ Meets source target) ↔
        ¬ Wraps source target ∧ ¬ Touches source target)) ∧
    (∀ (t : CopyImage) (image : WebCLImage), t.WithinImage queue image →
      ((queue.enqueueCopyImage t = .error (.exception .MEM_COPY_OVERLAP) ↔ t.SharesPixel) ↔
        t.ClearIn 0 1 ∧ t.ClearIn 1 0)) := by
  refine ⟨LinearRequest.in_bounds_iff queue, ?_, ?_⟩
  · intro t buffer h source target
    have hmeets : Meets source target ↔ ¬ Touches source target ∧ ¬ Apart source target :=
      meets_iff_not_apart rfl
    rw [enqueueCopyBuffer_eq_overlap_iff h, isBufferRegionOverlapping_iff, hmeets]
    exact agree_iff wraps_touches_apart
  · intro t image h
    rw [enqueueCopyImage_eq_overlap_iff h]
    obtain ⟨-, -, -, -, -, -, hs, ht, hr⟩ := h
    exact CopyImage.overlap_exact_iff image hs ht hr

/-- Twelve bytes at the last offset of a buffer of ten are refused, four bytes are copied within it to
where they overlap, and two by two pixels to a place that touches theirs in a corner only. -/
theorem linear_transfers_exact_oneBuffer :
    let queue : WebCLCommandQueue := ⟨false, 0, 8192, 8192, true, true⟩
    let buffer : WebCLBuffer := ⟨0, some 7, 10⟩
    let image : WebCLImage := ⟨0, some 8, ⟨8, 8, .RGBA, .UNORM_INT8⟩⟩
    let request : LinearRequest :=
      .write ⟨⟨[], none⟩, some buffer, true, 0xFFFFFFFF, 12, ⟨none, 0⟩⟩
        (some ⟨.TypeUint8, some 100, 12⟩)
    let copyBuffer : CopyBuffer := ⟨⟨[], none⟩, some buffer, some buffer, 0, 3, 4⟩
    let copyImage : CopyImage := ⟨⟨[], none⟩, some image, some image, [0, 0], [2, 3], [2, 2]⟩
    ((request.enqueue queue).isOk = true →
      ∀ span ∈ request.spans, span.stop ≤ span.length.toNat) ∧
    (queue.enqueueCopyBuffer copyBuffer = .error (.exception .MEM_COPY_OVERLAP) ↔
      Meets (CCuint.range 0 4) (CCuint.range 3 4)) ∧
    (queue.enqueueCopyImage copyImage = .error (.exception .MEM_COPY_OVERLAP) ↔
      copyImage.SharesPixel) := by
  intro queue buffer image request copyBuffer copyImage
  obtain ⟨hl, hb, hi⟩ := linear_transfers_exact_iff queue
  refine ⟨(hl request).mpr fun _ ha => absurd ha (by decide), ?_, ?_⟩
  · exact (hb copyBuffer buffer ⟨rfl, rfl, rfl, rfl, rfl⟩).mpr (by decide)
  · exact (hi copyImage image ⟨rfl, rfl, rfl, rfl, rfl, rfl, rfl, rfl, rfl⟩).mpr (by decide)

/-- Three ways in which the sums and the closed intervals go wrong: a write at the last offset of a
buffer of ten bytes, a copy of four bytes to where they end, and a copy to the byte after its start
whose end wraps around. -/
theorem linear_transfer_out_of_bounds :
    let queue : WebCLCommandQueue := ⟨false, 0, 8192, 8192, true, true⟩
    let buffer : WebCLBuffer := ⟨0, some 7, 10⟩
    let writeRequest : LinearRequest :=
      .write ⟨⟨[], none⟩, some buffer, true, 0xFFFFFFFF, 1, ⟨none, 0⟩⟩
        (some ⟨.TypeUint8, some 100, 1⟩)
    let touching : CopyBuffer := ⟨⟨[], none⟩, some buffer, some buffer, 0, 4, 4⟩
    let wrapping : CopyBuffer := ⟨⟨[], none⟩, some buffer, some buffer, 0xFFFFFFFE, 0xFFFFFFFF, 4⟩
    ((writeRequest.enqueue queue).isOk = true ∧
      ¬ ∀ span ∈ writeRequest.spans, span.stop ≤ span.length.toNat) ∧
    (touching.WithinBuffer queue buffer ∧
      queue.enqueueCopyBuffer touching = .error (.exception .MEM_COPY_OVERLAP) ∧
      ¬ Meets (CCuint.range 0 4) (CCuint.range 4 4)) ∧
    (wrapping.WithinBuffer queue buffer ∧ (queue.enqueueCopyBuffer wrapping).isOk = true ∧
      Meets (CCuint.range 0xFFFFFFFE 4) (CCuint.range 0xFFFFFFFF 4)) := by
  intro queue buffer writeRequest touching wrapping
  refine ⟨⟨by decide,by decide⟩,⟨⟨rfl,rfl,rfl,rfl,rfl⟩,rfl,?_⟩,⟨rfl,rfl,rfl,rfl,rfl⟩,by decide,?_⟩
  · unfold CCuint.range
    rw [meets_iff]
    decide
  · unfold CCuint.range
    rw [meets_iff]
    decide

end QPlusWeb.WebCL
