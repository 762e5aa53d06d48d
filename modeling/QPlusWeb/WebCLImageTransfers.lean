import QPlusWeb.WebCLRectTransfers

/-!
# Image transfers

The region of an image is checked through its area: the pixels before it, counted as whole columns of
the first rows, and the pixels in it, modulo `2 ^ 32`, must not be more than the image has.  That does
not say where the region lies.
-/

namespace QPlusWeb.WebCL

open WebCLInputChecker WebCLCommandQueue StridedRegions List UInt32

/-- A rectangle of an image, as a script names it. -/
structure ImageRegion where
  descriptor : WebCLImageDescriptor
  origin : List CCuint
  region : List CCuint
  deriving DecidableEq, Repr

/-- The pixels of a region, as the checks count them. -/
def pixelsOf (region : List CCuint) : ℕ := (item region 0).toNat * (item region 1).toNat % 2 ^ 32

theorem toNat_pixels (region : List CCuint) :
    (item region 0 * item region 1).toUInt64.toNat = pixelsOf region := rfl

theorem pixels_eq_zero (region : List CCuint) :
    (item region 0 * item region 1).toUInt64 = 0 ↔ pixelsOf region = 0 := by
  rw [← UInt64.toNat_inj, toNat_pixels]
  rfl

theorem ne_zero_of_pixelsOf {region : List CCuint} (h : pixelsOf region ≠ 0) :
    (item region 0).toNat ≠ 0 ∧ (item region 1).toNat ≠ 0 := by
  refine mul_ne_zero_iff.mp fun hz => h ?_
  rw [pixelsOf, hz, Nat.zero_mod]

namespace ImageRegion
variable (r : ImageRegion)

def x : ℕ := (item r.origin 0).toNat

def y : ℕ := (item r.origin 1).toNat

def columns : ℕ := (item r.region 0).toNat

def rows : ℕ := (item r.region 1).toNat

def width : ℕ := r.descriptor.width.toNat

def height : ℕ := r.descriptor.height.toNat

def InBounds : Prop := r.x + r.columns ≤ r.width ∧ r.y + r.rows ≤ r.height

instance : Decidable r.InBounds := inferInstanceAs (Decidable (_ ∧ _))

/-- The pixels before the region and in it are not more than the image has, as the check counts
them. -/
def Admitted : Prop :=
  pixelsOf r.region ≠ 0 ∧ r.y * r.height + r.x + pixelsOf r.region ≤ r.height * r.width

theorem isValidRegionForImage_iff :
    isValidRegionForImage r.descriptor r.origin r.region = true ↔ r.Admitted := by
  have hx : r.x < 2 ^ 32 := toNat_lt _
  have hy : r.y < 2 ^ 32 := toNat_lt _
  have hh : r.height < 2 ^ 32 := toNat_lt _
  have hw : r.width < 2 ^ 32 := toNat_lt _
  have hp : pixelsOf r.region < 2 ^ 32 := Nat.mod_lt _ (by decide)
  -- (2 ^ 32 - 1) ^ 2 + 2 * (2 ^ 32 - 1) is just below 2 ^ 64
  have hr : r.y * r.height ≤ (2 ^ 32 - 1) * (2 ^ 32 - 1) := Nat.mul_le_mul (by omega) (by omega)
  unfold isValidRegionForImage Admitted
  simp only [pixels_eq_zero]
  split
  next h => exact ⟨nofun, fun ha => absurd h ha.1⟩
  next h =>
    rw [decide_eq_true_iff, UInt64.le_iff_toNat_le, UInt64.toNat_add, UInt64.toNat_add,
      UInt64.toNat_mul, UInt64.toNat_mul, toNat_pixels]
    simp only [toNat_toUInt64, Nat.mod_add_mod]
    change (r.y * r.height + r.x + pixelsOf r.region) % 2 ^ 64 ≤ r.height * r.width % 2 ^ 64 ↔ _
    rw [Nat.mod_eq_of_lt (by omega), Nat.mod_eq_of_lt (mul_lt_of_lt hh hw)]
    exact ⟨fun hle => ⟨h, hle⟩, fun ha => ha.2⟩

end ImageRegion

section Pixels
variable {descriptor : WebCLImageDescriptor} {region : List CCuint} {rowPitch : CCuint}

/-- The bytes of a pixel, as the checks count them: none for the packed types. -/
def countedBytes (descriptor : WebCLImageDescriptor) : ℕ :=
  (bytesPerChannelType descriptor.channelType).toNat *
    (numberOfChannelsForChannelOrder descriptor.channelOrder).toNat

theorem toNat_imageBytesPerPixel : (bytesPerChannelType descriptor.channelType *
      numberOfChannelsForChannelOrder descriptor.channelOrder).toNat = countedBytes descriptor := by
  unfold countedBytes
  cases descriptor.channelType <;> cases descriptor.channelOrder <;> rfl

theorem bytesPerPixel_ne_zero : descriptor.bytesPerPixel ≠ 0 := by
  unfold WebCLImageDescriptor.bytesPerPixel
  cases descriptor.channelType <;> cases descriptor.channelOrder <;> decide

/-- The rows of the host's array. -/
def hostBox (descriptor : WebCLImageDescriptor) (region : List CCuint) (rowPitch : CCuint) : Box :=
  let width := (item region 0).toNat * descriptor.bytesPerPixel
  let row := if rowPitch ≠ 0 then rowPitch.toNat else width
  ⟨0, 0, 0, width, (item region 1).toNat, 1, row, (item region 1).toNat * row⟩

/-- The rows of a buffer, one after another from the offset on. -/
def bufferBox (descriptor : WebCLImageDescriptor) (region : List CCuint) (offset : CCuint) : Box :=
  let width := (item region 0).toNat * descriptor.bytesPerPixel
  ⟨offset.toNat, 0, 0, width, (item region 1).toNat, 1, width, (item region 1).toNat * width⟩

/-- The rows of the host's array, as the check counts them, and the pixels are not more than its
bytes. -/
def HostAdmits (descriptor : WebCLImageDescriptor) (region : List CCuint) (rowPitch : CCuint)
    (length : ℕ) : Prop :=
  let row := if rowPitch ≠ 0 then rowPitch.toNat else (item region 0).toNat * countedBytes descriptor
  row * (item region 1).toNat % 2 ^ 64 ≤ length ∧ pixelsOf region ≠ 0 ∧ pixelsOf region ≤ length

/-- The bytes after the offset, modulo `2 ^ 32`, are not more than the buffer has. -/
def BufferAdmits (descriptor : WebCLImageDescriptor) (region : List CCuint) (offset : CCuint)
    (length : ℕ) : Prop :=
  offset.toNat + (item region 0).toNat * (item region 1).toNat * countedBytes descriptor % 2 ^ 32 ≤
    length

theorem isValidRegionForHostPtr_iff {length : SizeT} :
    isValidRegionForHostPtr region rowPitch.toUInt64 descriptor length = true ↔
      HostAdmits descriptor region rowPitch length.toNat := by
  have hsplit {p q r : Prop} [Decidable p] [Decidable q] [Decidable r] :
      (if p then false else if q then false else decide r) = true ↔ ¬ p ∧ ¬ q ∧ r := by
    split_ifs <;> simp_all
  unfold isValidRegionForHostPtr HostAdmits
  rw [hsplit, gt_iff_lt, UInt64.not_lt, UInt64.le_iff_toNat_le, UInt64.le_iff_toNat_le,
    pixels_eq_zero, toNat_pixels]
  refine and_congr ?_ Iff.rfl
  simp only [ne_eq, toUInt64_eq_zero]
  by_cases h : rowPitch = 0
  · simp only [h, not_true_eq_false, if_false, UInt64.toNat_mul, toNat_toUInt64,
      toNat_imageBytesPerPixel, Nat.mod_mul_mod]
  · simp only [h, not_false_eq_true, if_true, UInt64.toNat_mul, toNat_toUInt64]

theorem isValidRegionForBuffer_iff {offset : CCuint} {bufferLength : SizeT} :
    isValidRegionForBuffer bufferLength region offset.toUInt64 descriptor = true ↔
      BufferAdmits descriptor region offset bufferLength.toNat := by
  have ho := toNat_lt offset
  have hb := Nat.mod_lt ((item region 0).toNat * (item region 1).toNat * countedBytes descriptor)
    (show 0 < 2 ^ 32 by decide)
  unfold isValidRegionForBuffer BufferAdmits
  rw [decide_eq_true_iff, UInt64.le_iff_toNat_le, UInt64.toNat_add]
  simp only [toNat_toUInt64, UInt32.toNat_mul, Nat.mod_mul_mod]
  rw [Nat.mul_assoc _ (bytesPerChannelType _).toNat]
  change (_ + _ * countedBytes descriptor % 2 ^ 32) % 2 ^ 64 ≤ _ ↔ _
  rw [Nat.mod_eq_of_lt (by omega)]

theorem hostBox_area_ne_zero (h : pixelsOf region ≠ 0) :
    (hostBox descriptor region rowPitch).area ≠ 0 := by
  obtain ⟨hc, hr⟩ := ne_zero_of_pixelsOf h
  exact mul_ne_zero (mul_ne_zero (mul_ne_zero hc bytesPerPixel_ne_zero) hr) one_ne_zero

theorem bufferBox_area_ne_zero (h : pixelsOf region ≠ 0) (offset : CCuint) :
    (bufferBox descriptor region offset).area ≠ 0 := by
  obtain ⟨hc, hr⟩ := ne_zero_of_pixelsOf h
  exact mul_ne_zero (mul_ne_zero (mul_ne_zero hc bytesPerPixel_ne_zero) hr) one_ne_zero

end Pixels

/-- What a transfer touches: rectangles of images, and rows of a buffer or of the host's array. -/
structure Footprint where
  images : List ImageRegion
  sides : List Side

namespace Footprint

def InBounds (f : Footprint) : Prop :=
  (∀ r ∈ f.images, r.InBounds) ∧ ∀ side ∈ f.sides, side.box.Within side.length.toNat

/-- The rectangles end in the images, and the last byte of the rows is one of the buffer or array. -/
def EndsInBounds (f : Footprint) : Prop :=
  (∀ r ∈ f.images, r.InBounds) ∧ ∀ side ∈ f.sides, side.box.last < side.length.toNat

theorem inBounds_iff {f : Footprint} (h : ∀ side ∈ f.sides, side.box.area ≠ 0) :
    f.InBounds ↔ f.EndsInBounds :=
  and_congr_right fun _ => forall₂_congr fun side hs => Box.within_iff (h side hs)

end Footprint

namespace ImageTransfer
variable (t : ImageTransfer)

def footprint : Footprint where
  images := t.image.toList.map fun image => ⟨image.imageDescriptor, t.origin, t.region⟩
  sides := t.image.toList.map fun image =>
    ⟨hostBox image.imageDescriptor t.region t.hostRowPitch, t.hostPtr.length⟩

/-- Nothing but the region can make the queue refuse the transfer. -/
def Usable (queue : WebCLCommandQueue) : Prop :=
  queue.isPlatformObjectNeutralized = false ∧ queue.UsesImage t.image ∧
    t.hostPtr.address.isNone = false ∧ (t.origin.length = 2 ∧ t.region.length = 2) ∧
    queue.TakesEvents t.toEventArguments (acceptUserEventUnless t.blocking)

/-- The sums of the checks do not exceed the sizes of the image and of the array. -/
def Admitted : Prop :=
  ∀ image ∈ t.image, ImageRegion.Admitted ⟨image.imageDescriptor, t.origin, t.region⟩ ∧
    HostAdmits image.imageDescriptor t.region t.hostRowPitch t.hostPtr.length.toNat

theorem inBounds_iff {t : ImageTransfer} (h : t.Admitted) :
    t.footprint.InBounds ↔ t.footprint.EndsInBounds := by
  refine Footprint.inBounds_iff fun side hs => ?_
  obtain ⟨image, hi, rfl⟩ := mem_map.mp hs
  exact hostBox_area_ne_zero (h image (Option.mem_toList.mp hi)).1.1

theorem enqueueImageBase_isOk (queue : WebCLCommandQueue)
    (f : ImageTransfer → ℕ → List SizeT → List SizeT → List ℕ → Option WebCLEvent → PlatformCall)
    (t : ImageTransfer) :
    (queue.enqueueImageBase t (f t)).isOk = true ↔ t.Usable queue ∧ t.Admitted := by
  unfold Usable Admitted UsesImage
  simp only [enqueueImageBase, throwIf_bind_isOk, dereference_bind_isOk,
    validateWebCLObject_bind_isOk, callWithEvents_isOk, ← isValidRegionForHostPtr_iff,
    ← ImageRegion.isValidRegionForImage_iff]
  cases t.image with
  | none => simp
  | some image =>
    simp [compareContext, Option.isSome_iff_exists]
    tauto

end ImageTransfer

namespace CopyImage
variable (t : CopyImage)

def footprint : Footprint where
  images :=
    t.sourceImage.toList.map (fun image => ⟨image.imageDescriptor, t.sourceOrigin, t.region⟩) ++
      t.targetImage.toList.map fun image => ⟨image.imageDescriptor, t.targetOrigin, t.region⟩
  sides := []

/-- Nothing but the regions can make the queue refuse the copy: it is not taken for an overlapping
one either. -/
def Usable (queue : WebCLCommandQueue) : Prop :=
  queue.isPlatformObjectNeutralized = false ∧ queue.UsesImage t.sourceImage ∧
    queue.UsesImage t.targetImage ∧
    (∀ source ∈ t.sourceImage, ∀ target ∈ t.targetImage,
      compareImageFormat source.imageDescriptor target.imageDescriptor = true) ∧
    (t.sourceOrigin.length = 2 ∧ t.targetOrigin.length = 2 ∧ t.region.length = 2) ∧
    isImageRegionOverlapping t.sourceImage t.targetImage t.sourceOrigin t.targetOrigin t.region =
      false ∧
    queue.TakesEvents t.toEventArguments .AcceptUserEvent

def Admitted : Prop := ∀ r ∈ t.footprint.images, r.Admitted

theorem enqueueCopyImage_isOk {queue : WebCLCommandQueue} {t : CopyImage} :
    (queue.enqueueCopyImage t).isOk = true ↔ t.Usable queue ∧ t.Admitted := by
  unfold Usable Admitted UsesImage footprint
  simp only [enqueueCopyImage, throwIf_bind_isOk, dereference_bind_isOk,
    validateWebCLObject_bind_isOk, callWithEvents_isOk]
  cases t.sourceImage with
  | none => simp
  | some source =>
    cases t.targetImage with
    | none => simp
    | some target =>
      simp [compareContext, Option.isSome_iff_exists, ← ImageRegion.isValidRegionForImage_iff]
      tauto

end CopyImage

namespace CopyImageBuffer
variable (t : CopyImageBuffer)

def footprint : Footprint where
  images := t.image.toList.map fun image => ⟨image.imageDescriptor, t.origin, t.region⟩
  sides := t.image.toList.flatMap fun image => t.buffer.toList.map fun buffer =>
    ⟨bufferBox image.imageDescriptor t.region t.offset, buffer.sizeInBytes⟩

/-- Nothing but the regions can make the queue refuse the copy. -/
def Usable (queue : WebCLCommandQueue) : Prop :=
  queue.isPlatformObjectNeutralized = false ∧ queue.UsesImage t.image ∧ queue.UsesBuffer t.buffer ∧
    (t.origin.length = 2 ∧ t.region.length = 2) ∧
    queue.TakesEvents t.toEventArguments .AcceptUserEvent

def Admitted : Prop :=
  ∀ image ∈ t.image, ImageRegion.Admitted ⟨image.imageDescriptor, t.origin, t.region⟩ ∧
    ∀ buffer ∈ t.buffer, BufferAdmits image.imageDescriptor t.region t.offset
      buffer.sizeInBytes.toNat

variable {t} {queue : WebCLCommandQueue}

theorem inBounds_iff (h : t.Admitted) : t.footprint.InBounds ↔ t.footprint.EndsInBounds := by
  refine Footprint.inBounds_iff fun side hs => ?_
  obtain ⟨image, hi, hs⟩ := mem_flatMap.mp hs
  obtain ⟨buffer, -, rfl⟩ := mem_map.mp hs
  exact bufferBox_area_ne_zero (h image (Option.mem_toList.mp hi)).1.1 _

theorem enqueueCopyImageToBuffer_isOk :
    (queue.enqueueCopyImageToBuffer t).isOk = true ↔ t.Usable queue ∧ t.Admitted := by
  unfold Usable Admitted UsesImage UsesBuffer
  simp only [enqueueCopyImageToBuffer, throwIf_bind_isOk, dereference_bind_isOk,
    validateWebCLObject_bind_isOk, callWithEvents_isOk, ← isValidRegionForBuffer_iff,
    ← ImageRegion.isValidRegionForImage_iff]
  cases t.image with
  | none => simp
  | some image =>
    cases t.buffer with
    | none => simp
    | some buffer =>
      simp [compareContext, Option.isSome_iff_exists]
      tauto

theorem enqueueCopyBufferToImage_isOk :
    (queue.enqueueCopyBufferToImage t).isOk = true ↔ t.Usable queue ∧ t.Admitted := by
  unfold Usable Admitted UsesImage UsesBuffer
  simp only [enqueueCopyBufferToImage, throwIf_bind_isOk, validateWebCLObject_bind_isOk,
    callWithEvents_isOk, ← isValidRegionForBuffer_iff, ← ImageRegion.isValidRegionForImage_iff]
  cases t.image with
  | none => simp
  | some image =>
    cases t.buffer with
    | none => simp
    | some buffer =>
      simp [compareContext, Option.isSome_iff_exists]
      tauto

end CopyImageBuffer

/-- The transfers from, to and between images that a script can ask for. -/
inductive ImageRequest
  | read (t : ImageTransfer) (ptr : Option ArrayBufferView)
  | readToCanvas (t : ImageTransfer) (extracted : Except ExceptionCode HostPtr)
  | write (t : ImageTransfer) (ptr : Option ArrayBufferView)
  | writeFromElement (t : ImageTransfer) (extracted : Except ExceptionCode HostPtr)
  | writeFromVideo (t : ImageTransfer) (extracted : Except ExceptionCode HostPtr)
  | copy (t : CopyImage)
  | copyToBuffer (t : CopyImageBuffer)
  | copyFromBuffer (t : CopyImageBuffer)

namespace ImageRequest

def enqueue (queue : WebCLCommandQueue) : ImageRequest → Checked PlatformCall
  | read t ptr => queue.enqueueReadImage t ptr
  | readToCanvas t extracted => queue.enqueueReadImageToCanvas t extracted
  | write t ptr => queue.enqueueWriteImage t ptr
  | writeFromElement t extracted => queue.enqueueWriteImageFromElement t extracted
  | writeFromVideo t extracted => queue.enqueueWriteImageFromVideo t extracted
  | copy t => queue.enqueueCopyImage t
  | copyToBuffer t => queue.enqueueCopyImageToBuffer t
  | copyFromBuffer t => queue.enqueueCopyBufferToImage t

/-- A read or write with its host memory filled in; a video fills the whole image. -/
def transfers : ImageRequest → List ImageTransfer
  | read t ptr | write t ptr =>
    ptr.toList.map fun view => { t with hostPtr := ⟨view.baseAddress, view.byteLength.toUInt64⟩ }
  | readToCanvas t extracted | writeFromElement t extracted =>
    extracted.toOption.toList.map fun hostPtr => { t with hostPtr, hostRowPitch := 0 }
  | writeFromVideo t extracted =>
    t.image.toList.flatMap fun image => extracted.toOption.toList.map fun hostPtr =>
      { t with hostPtr, hostRowPitch := 0, origin := [0, 0],
               region := [image.imageDescriptor.width, image.imageDescriptor.height] }
  | copy _ | copyToBuffer _ | copyFromBuffer _ => []

def footprints : ImageRequest → List Footprint
  | copy t => [t.footprint]
  | copyToBuffer t | copyFromBuffer t => [t.footprint]
  | request => request.transfers.map ImageTransfer.footprint

def InBounds (request : ImageRequest) : Prop := ∀ f ∈ request.footprints, f.InBounds

def EndsInBounds (request : ImageRequest) : Prop := ∀ f ∈ request.footprints, f.EndsInBounds

/-- The array or the element is one that the queue can take. -/
def hostGiven (queue : WebCLCommandQueue) : ImageRequest → Bool
  | read t ptr | write t ptr => (hostOfArrayBufferView [t.hostRowPitch] ptr).isOk
  | readToCanvas _ extracted | writeFromElement _ extracted =>
    (hostOfElement queue.htmlImageEnabled extracted).isOk
  | writeFromVideo t extracted =>
    t.image.isSome && (hostOfElement queue.htmlVideoEnabled extracted).isOk
  | copy _ | copyToBuffer _ | copyFromBuffer _ => true

def Usable (queue : WebCLCommandQueue) : ImageRequest → Prop
  | copy t => t.Usable queue
  | copyToBuffer t | copyFromBuffer t => t.Usable queue
  | request => request.hostGiven queue = true ∧ ∀ t ∈ request.transfers, t.Usable queue

def Admitted : ImageRequest → Prop
  | copy t => t.Admitted
  | copyToBuffer t | copyFromBuffer t => t.Admitted
  | request => ∀ t ∈ request.transfers, t.Admitted

variable {queue : WebCLCommandQueue} {request : ImageRequest}

theorem enqueue_isOk :
    (request.enqueue queue).isOk = true ↔ request.Usable queue ∧ request.Admitted := by
  have hread := ImageTransfer.enqueueImageBase_isOk queue fun t image origin region =>
    .enqueueReadImage image t.blocking origin region t.hostRowPitch t.hostPtr.address
  have hwrite := ImageTransfer.enqueueImageBase_isOk queue fun t image origin region =>
    .enqueueWriteImage image t.blocking origin region t.hostRowPitch t.hostPtr.address
  cases request with
  | read t ptr => exact view_bind_isOk hread (fun hostPtr => { t with hostPtr }) _ ptr
  | readToCanvas t extracted =>
    exact element_bind_isOk hread (fun hostPtr => { t with hostPtr, hostRowPitch := 0 }) _ extracted
  | write t ptr => exact view_bind_isOk hwrite (fun hostPtr => { t with hostPtr }) _ ptr
  | writeFromElement t extracted =>
    exact element_bind_isOk hwrite (fun hostPtr => { t with hostPtr, hostRowPitch := 0 }) _ extracted
  | writeFromVideo t extracted =>
    obtain ⟨arguments, image, blocking, origin, region, rowPitch, host⟩ := t
    cases image with
    | none =>
      refine ⟨fun h => ?_, fun h => absurd h.1.1 nofun⟩
      obtain ⟨_, _, h⟩ := bind_isOk_iff.mp h
      cases h
    | some image =>
      simp only [Usable, Admitted, hostGiven, transfers, Option.toList_some, flatMap_singleton,
        Option.isSome_some, Bool.true_and]
      exact element_bind_isOk hwrite (fun hostPtr => ⟨arguments, some image, blocking, [0, 0],
        [image.imageDescriptor.width, image.imageDescriptor.height], 0, hostPtr⟩) _ extracted
  | copy t => exact CopyImage.enqueueCopyImage_isOk
  | copyToBuffer t => exact CopyImageBuffer.enqueueCopyImageToBuffer_isOk
  | copyFromBuffer t => exact CopyImageBuffer.enqueueCopyBufferToImage_isOk

theorem inBounds_iff (h : request.Admitted) : request.InBounds ↔ request.EndsInBounds := by
  refine forall₂_congr fun f hf => ?_
  have hall (h : ∀ t ∈ request.transfers, t.Admitted)
      (hf : f ∈ request.transfers.map ImageTransfer.footprint) : f.InBounds ↔ f.EndsInBounds := by
    obtain ⟨t, ht, rfl⟩ := mem_map.mp hf
    exact ImageTransfer.inBounds_iff (h t ht)
  cases request with
  | copy t =>
    obtain rfl := mem_singleton.mp hf
    exact Footprint.inBounds_iff nofun
  | copyToBuffer t | copyFromBuffer t =>
    obtain rfl := mem_singleton.mp hf
    exact CopyImageBuffer.inBounds_iff h
  | _ => exact hall h hf

end ImageRequest

/-- Every image transfer that is handed to OpenCL is one whose sums are within the sizes, and it stays
in its images and in its buffer or array if and only if it ends there. -/
theorem image_transfers_in_bounds_iff (queue : WebCLCommandQueue) (request : ImageRequest) :
    ((request.enqueue queue).isOk = true → request.InBounds) ↔
      (request.Usable queue → request.Admitted → request.EndsInBounds) := by
  rw [ImageRequest.enqueue_isOk]
  constructor
  · intro h hu ha
    exact (ImageRequest.inBounds_iff ha).mp (h ⟨hu, ha⟩)
  · intro h hok
    exact (ImageRequest.inBounds_iff hok.2).mpr (h hok.1 hok.2)

/-- The upper left quarter of an image of four by four pixels is read. -/
theorem image_transfers_in_bounds_quarter :
    let queue : WebCLCommandQueue := ⟨false, 0, 8192, 8192, true, true⟩
    let request : ImageRequest :=
      .read ⟨⟨[], none⟩, some ⟨0, some 7, ⟨4, 4, .RGBA, .UNORM_INT8⟩⟩, true, [0, 0], [2, 2], 0,
        ⟨none, 0⟩⟩ (some ⟨.TypeUint8, some 100, 16⟩)
    (request.enqueue queue).isOk = true ∧ request.InBounds := by
  intro queue request
  refine ⟨rfl, (image_transfers_in_bounds_iff queue request).mpr (fun _ _ f hf => ?_) rfl⟩
  obtain rfl := mem_singleton.mp hf
  exact ⟨by decide, by decide⟩

/-- A read of two pixels from the last column of an image, and a copy of `2 ^ 32` bytes from a buffer of
one byte to an image, both reach OpenCL. -/
theorem image_transfer_out_of_bounds :
    let queue : WebCLCommandQueue := ⟨false, 0, 65536, 65536, true, true⟩
    let readRequest : ImageRequest :=
      .read ⟨⟨[], none⟩, some ⟨0, some 7, ⟨4, 4, .RGBA, .UNORM_INT8⟩⟩, true, [3, 0], [2, 1], 0,
        ⟨none, 0⟩⟩ (some ⟨.TypeUint8, some 100, 8⟩)
    let copyRequest : ImageRequest :=
      .copyFromBuffer ⟨⟨[], none⟩, some ⟨0, some 7, ⟨32768, 32768, .RGBA, .UNORM_INT8⟩⟩,
        some ⟨0, some 8, 1⟩, [0, 0], [32768, 32768], 0⟩
    ((readRequest.enqueue queue).isOk = true ∧ ¬ readRequest.InBounds) ∧
      ((copyRequest.enqueue queue).isOk = true ∧ ¬ copyRequest.InBounds) := by
  intro queue readRequest copyRequest
  refine ⟨⟨rfl,fun h => ?_⟩,rfl,fun h => ?_⟩
  · have hin := (h _ (mem_singleton.mpr rfl)).1 _ (mem_singleton.mpr rfl)
    revert hin
    decide
  · have hlt := (h _ (mem_singleton.mpr rfl)).2 _ (mem_singleton.mpr rfl) 1 0 0 (by decide)
      (by decide) (by decide)
    revert hlt
    decide

end QPlusWeb.WebCL
