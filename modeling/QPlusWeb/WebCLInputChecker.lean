import QPlusWeb.StridedRegions

/-!
# The checks of WebCL

`WebCLInputChecker` decides whether a transfer may be handed to OpenCL.  `CCuint` is the 32-bit number
that a script gives, `size_t` has 64 bits, and every sum and product is taken in the type the source
takes it in.
-/

namespace QPlusWeb.WebCL

abbrev CCuint := UInt32

abbrev SizeT := UInt64

inductive ChannelOrder
  | R | A | INTENSITY | LUMINANCE | RG | RA | Rx | RGB | RGx | RGBA | BGRA | ARGB | RGBx
  deriving DecidableEq, Repr

inductive ChannelType
  | SNORM_INT8 | SNORM_INT16 | UNORM_INT8 | UNORM_INT16 | UNORM_SHORT_565 | UNORM_SHORT_555
  | UNORM_INT_101010 | SIGNED_INT8 | SIGNED_INT16 | SIGNED_INT32 | UNSIGNED_INT8 | UNSIGNED_INT16
  | UNSIGNED_INT32 | HALF_FLOAT | FLOAT
  deriving DecidableEq, Repr

def numberOfChannelsForChannelOrder : ChannelOrder → CCuint
  | .R | .A | .INTENSITY | .LUMINANCE => 1
  | .RG | .RA | .Rx => 2
  | .RGB | .RGx => 3
  | .RGBA | .BGRA | .ARGB | .RGBx => 4

/-- The packed types leave the `switch` and reach `return 0`. -/
def bytesPerChannelType : ChannelType → CCuint
  | .SNORM_INT8 | .UNORM_INT8 | .SIGNED_INT8 | .UNSIGNED_INT8 => 1
  | .SNORM_INT16 | .UNORM_INT16 | .SIGNED_INT16 | .UNSIGNED_INT16 | .HALF_FLOAT => 2
  | .SIGNED_INT32 | .UNSIGNED_INT32 | .FLOAT => 4
  | .UNORM_SHORT_565 | .UNORM_SHORT_555 | .UNORM_INT_101010 => 0

structure WebCLImageDescriptor where
  width : CCuint
  height : CCuint
  channelOrder : ChannelOrder
  channelType : ChannelType
  deriving DecidableEq, Repr

/-- The bytes that OpenCL keeps for a pixel. -/
def WebCLImageDescriptor.bytesPerPixel (descriptor : WebCLImageDescriptor) : ℕ :=
  match descriptor.channelType with
  | .UNORM_SHORT_565 | .UNORM_SHORT_555 => 2
  | .UNORM_INT_101010 => 4
  | channelType =>
    (bytesPerChannelType channelType).toNat *
      (numberOfChannelsForChannelOrder descriptor.channelOrder).toNat

/-- A buffer or an image: its context, and the platform object unless it has been released. -/
structure WebCLBuffer where
  context : ℕ
  platformObject : Option ℕ
  sizeInBytes : SizeT
  deriving DecidableEq, Repr

structure WebCLImage where
  context : ℕ
  platformObject : Option ℕ
  imageDescriptor : WebCLImageDescriptor
  deriving DecidableEq, Repr

inductive ArrayBufferViewType
  | TypeInt8 | TypeUint8 | TypeUint8Clamped | TypeInt16 | TypeUint16 | TypeInt32 | TypeUint32
  | TypeFloat32 | TypeFloat64
  deriving DecidableEq, Repr

/-- `baseAddress` is null if the buffer has been neutered. -/
structure ArrayBufferView where
  type : ArrayBufferViewType
  baseAddress : Option ℕ
  byteLength : CCuint
  deriving DecidableEq, Repr

namespace WebCLInputChecker

def bytesPerElement : ArrayBufferViewType → ℕ
  | .TypeInt8 | .TypeUint8 | .TypeUint8Clamped => 1
  | .TypeInt16 | .TypeUint16 => 2
  | .TypeInt32 | .TypeUint32 | .TypeFloat32 => 4
  | .TypeFloat64 => 8

def isValidDataSizeForArrayBufferView (size : CCuint) (arrayBufferView : ArrayBufferView) : Bool :=
  size.toNat % bytesPerElement arrayBufferView.type = 0

/-- `v[i]`, for an index that the caller has checked. -/
def item {α : Type} [OfNat α 0] (v : List α) (i : ℕ) : α := v.getD i 0

def isValidRegionForMemoryObject (origin region : List SizeT) (rowPitch slicePitch length : SizeT) :
    Bool :=
  let regionArea := item region 0 * item region 1 * item region 2
  if regionArea = 0 then false
  else if rowPitch ≠ 0 ∧ rowPitch * item region 1 * item region 2 > length then false
  else if slicePitch ≠ 0 ∧ slicePitch * item region 2 > length then false
  else
    let rowPitch := if rowPitch ≠ 0 then rowPitch else item region 0
    let slicePitch := if slicePitch ≠ 0 then slicePitch else item region 1 * rowPitch
    let offset := item origin 2 * slicePitch + item origin 1 * rowPitch + item origin 0
    regionArea + offset ≤ length

/-- The area is a product of `CCuint`s, and the row of the origin is multiplied by the height. -/
def isValidRegionForImage (descriptor : WebCLImageDescriptor) (origin region : List CCuint) : Bool :=
  let regionArea := (item region 0 * item region 1).toUInt64
  if regionArea = 0 then false
  else
    let height := descriptor.height.toUInt64
    let width := descriptor.width.toUInt64
    let offsetFromOrigin := (item origin 1).toUInt64 * height + (item origin 0).toUInt64
    offsetFromOrigin + regionArea ≤ height * width

def isValidRegionForBuffer (bufferLength : SizeT) (region : List CCuint) (offset : SizeT)
    (descriptor : WebCLImageDescriptor) : Bool :=
  let bytesCopied := (item region 0 * item region 1 * bytesPerChannelType descriptor.channelType *
    numberOfChannelsForChannelOrder descriptor.channelOrder).toUInt64
  offset + bytesCopied ≤ bufferLength

def isValidRegionForHostPtr (region : List CCuint) (rowPitch : SizeT)
    (descriptor : WebCLImageDescriptor) (length : SizeT) : Bool :=
  let imageBytesPerPixel := (bytesPerChannelType descriptor.channelType *
    numberOfChannelsForChannelOrder descriptor.channelOrder).toUInt64
  let rowPitch := if rowPitch ≠ 0 then rowPitch else (item region 0).toUInt64 * imageBytesPerPixel
  if rowPitch * (item region 1).toUInt64 > length then false
  else
    let regionArea := (item region 0 * item region 1).toUInt64
    if regionArea = 0 then false
    else regionArea ≤ length

def valueInRange (value minimum maximum : SizeT) : Bool := value ≥ minimum ∧ value ≤ maximum

/-- The overload for images. -/
def isImageRegionOverlapping (source destination : Option WebCLImage)
    (sourceOrigin destinationOrigin region : List CCuint) : Bool :=
  match source, destination with
  | some source, some destination =>
    if sourceOrigin.length ≠ 2 ∨ destinationOrigin.length ≠ 2 ∨ region.length ≠ 2 then false
    else if source.platformObject ≠ destination.platformObject then false
    else
      let overlap (i : ℕ) : Bool :=
        valueInRange (item destinationOrigin i).toUInt64 (item sourceOrigin i).toUInt64
            (item region i + item sourceOrigin i).toUInt64 ||
          valueInRange (item sourceOrigin i).toUInt64 (item destinationOrigin i).toUInt64
            (item destinationOrigin i + item region i).toUInt64
      overlap 0 && overlap 1
  | _, _ => false

/-- The overload for buffers: all three numbers are `CCuint`. -/
def isBufferRegionOverlapping (srcBuffer destBuffer : Option WebCLBuffer)
    (srcOffset dstOffset numBytes : CCuint) : Bool :=
  match srcBuffer, destBuffer with
  | some srcBuffer, some destBuffer =>
    if srcBuffer.platformObject ≠ destBuffer.platformObject then false
    else
      valueInRange dstOffset.toUInt64 srcOffset.toUInt64 (srcOffset + numBytes).toUInt64 ||
        valueInRange srcOffset.toUInt64 dstOffset.toUInt64 (dstOffset + numBytes).toUInt64
  | _, _ => false

def compareContext (context1 context2 : ℕ) : Bool := context1 = context2

def compareImageFormat (source target : WebCLImageDescriptor) : Bool :=
  source.channelOrder = target.channelOrder ∧ source.channelType = target.channelType

end WebCLInputChecker

end QPlusWeb.WebCL
