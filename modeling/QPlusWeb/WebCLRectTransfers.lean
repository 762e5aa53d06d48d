import QPlusWeb.WebCLCommandQueue
import Mathlib.Data.List.GetD

/-!
# Rectangular transfers

What the check of a rectangular region means for the bytes that OpenCL then touches.  The check adds
the number of bytes of the region to its offset, as if the region had no gaps, and compares whole rows
and slices with the length without the offset.  So a transfer that passes it is in bounds only if the
last byte of both regions is.
-/

namespace QPlusWeb.WebCL

open WebCLInputChecker WebCLCommandQueue StridedRegions List

theorem toUInt64_eq_zero (c : CCuint) : c.toUInt64 = 0 ↔ c = 0 := by
  rw [← UInt64.toNat_inj, ← UInt32.toNat_inj, UInt32.toNat_toUInt64]
  rfl

theorem mul_lt_of_lt {m n : ℕ} (hm : m < 2 ^ 32) (hn : n < 2 ^ 32) : m * n < 2 ^ 64 :=
  lt_of_lt_of_le (Nat.mul_lt_mul'' hm hn) (by norm_num)

theorem item_copyVector (v : List CCuint) (i : ℕ) : item (copyVector v) i = (item v i).toUInt64 :=
  getD_map v 0 UInt32.toUInt64

/-- The region that a side of a transfer names, with the defaults for pitches of zero. -/
def memoryBox (origin region : List CCuint) (rowPitch slicePitch : CCuint) : Box :=
  let row := if rowPitch ≠ 0 then rowPitch.toNat else (item region 0).toNat
  { originX := (item origin 0).toNat
    originY := (item origin 1).toNat
    originZ := (item origin 2).toNat
    width := (item region 0).toNat
    height := (item region 1).toNat
    depth := (item region 2).toNat
    rowPitch := row
    slicePitch := if slicePitch ≠ 0 then slicePitch.toNat else (item region 1).toNat * row }

section Check
variable (origin region : List CCuint) (rowPitch slicePitch : CCuint)

/-- The row pitch that the check goes on with. -/
def effectiveRowPitch : SizeT :=
  if rowPitch.toUInt64 ≠ 0 then rowPitch.toUInt64 else (item region 0).toUInt64

def effectiveSlicePitch : SizeT :=
  if slicePitch.toUInt64 ≠ 0 then slicePitch.toUInt64
  else (item region 1).toUInt64 * effectiveRowPitch region rowPitch

theorem toNat_effectiveRowPitch : (effectiveRowPitch region rowPitch).toNat =
    (memoryBox origin region rowPitch slicePitch).rowPitch := by
  simp only [effectiveRowPitch, memoryBox, ne_eq, toUInt64_eq_zero]
  split <;> exact UInt32.toNat_toUInt64 _

theorem rowPitch_lt : (memoryBox origin region rowPitch slicePitch).rowPitch < 2 ^ 32 := by
  simp only [memoryBox]
  split <;> exact UInt32.toNat_lt _

theorem toNat_effectiveSlicePitch : (effectiveSlicePitch region rowPitch slicePitch).toNat =
    (memoryBox origin region rowPitch slicePitch).slicePitch := by
  simp only [effectiveSlicePitch, ne_eq, toUInt64_eq_zero]
  by_cases h : slicePitch = 0
  · rw [if_neg (not_not_intro h), UInt64.toNat_mul, UInt32.toNat_toUInt64,
      toNat_effectiveRowPitch origin region rowPitch slicePitch,
      Nat.mod_eq_of_lt (mul_lt_of_lt (UInt32.toNat_lt _) (rowPitch_lt _ _ _ _))]
    simp [memoryBox, h]
  · simp [memoryBox, h]

/-- The sums that the check makes do not exceed the length; they are taken modulo `2 ^ 64`, and a pitch
of zero is not compared. -/
def Admits (length : ℕ) : Prop :=
  let b := memoryBox origin region rowPitch slicePitch
  b.area % 2 ^ 64 ≠ 0 ∧ (rowPitch = 0 ∨ b.rowPitch * b.height * b.depth % 2 ^ 64 ≤ length) ∧
    (slicePitch = 0 ∨ b.slicePitch * b.depth ≤ length) ∧ (b.area + b.offset) % 2 ^ 64 ≤ length

variable {origin region rowPitch slicePitch}

theorem not_and_gt_iff {a b : SizeT} (c : CCuint) :
    ¬ (c.toUInt64 ≠ 0 ∧ a > b) ↔ c = 0 ∨ a.toNat ≤ b.toNat := by
  rw [not_and_or, not_not, toUInt64_eq_zero, gt_iff_lt, UInt64.not_lt, UInt64.le_iff_toNat_le]

theorem isValidRegionForMemoryObject_iff {length : SizeT} :
    isValidRegionForMemoryObject (copyVector origin) (copyVector region) rowPitch.toUInt64
        slicePitch.toUInt64 length = true ↔
      Admits origin region rowPitch slicePitch length.toNat := by
  have hrow := toNat_effectiveRowPitch origin region rowPitch slicePitch
  have hslice := toNat_effectiveSlicePitch origin region rowPitch slicePitch
  unfold effectiveSlicePitch at hslice
  unfold effectiveRowPitch at hrow hslice
  have hsplit {p q r s : Prop} [Decidable p] [Decidable q] [Decidable r] [Decidable s] :
      (if p then false else if q then false else if r then false else decide s) = true ↔
        ¬ p ∧ ¬ q ∧ ¬ r ∧ s := by
    split_ifs <;> simp_all
  simp only [isValidRegionForMemoryObject, item_copyVector]
  rw [hsplit, not_and_gt_iff, not_and_gt_iff, UInt64.le_iff_toNat_le, ← UInt64.toNat_inj]
  simp only [UInt64.toNat_add, UInt64.toNat_mul, hrow, hslice, UInt32.toNat_toUInt64,
    Nat.mod_mul_mod, Nat.mod_add_mod, Nat.add_mod_mod]
  refine and_congr Iff.rfl (and_congr (or_congr_right' fun h => ?_)
    (and_congr (or_congr_right' fun h => ?_) Iff.rfl))
  · simp [memoryBox, h]
  · rw [Nat.mod_eq_of_lt (mul_lt_of_lt (UInt32.toNat_lt _) (UInt32.toNat_lt _))]
    simp [memoryBox, h]

/-- A region that the check admits is not empty, whatever its pitches. -/
theorem Admits.area_ne_zero {length : ℕ} (h : Admits origin region rowPitch slicePitch length)
    (origin' : List CCuint) (rowPitch' slicePitch' : CCuint) :
    (memoryBox origin' region rowPitch' slicePitch').area ≠ 0 := by
  intro hz
  have h0 : (memoryBox origin region rowPitch slicePitch).area = 0 := hz
  exact h.1 ((congrArg (· % 2 ^ 64) h0).trans (Nat.zero_mod _))

end Check

/-- A buffer or an array of the host, and the region of it that a transfer touches. -/
structure Side where
  box : Box
  length : SizeT
  deriving DecidableEq, Repr

namespace RectTransfer
variable (t : RectTransfer)

def sides : List Side :=
  t.buffer.toList.map (fun buffer =>
      ⟨memoryBox t.bufferOrigin t.region t.bufferRowPitch t.bufferSlicePitch, buffer.sizeInBytes⟩) ++
    [⟨memoryBox t.hostOrigin t.region t.hostRowPitch t.hostSlicePitch, t.hostPtr.length⟩]

/-- Nothing but the region can make the queue refuse the transfer. -/
def Usable (queue : WebCLCommandQueue) : Prop :=
  queue.isPlatformObjectNeutralized = false ∧ queue.UsesBuffer t.buffer ∧
    t.hostPtr.address.isNone = false ∧
    (t.bufferOrigin.length = 3 ∧ t.hostOrigin.length = 3 ∧ t.region.length = 3) ∧
    queue.TakesEvents t.toEventArguments (acceptUserEventUnless t.blocking)

/-- The sums of the check do not exceed the lengths of the buffer and of the array. -/
def Admitted : Prop :=
  (∀ buffer ∈ t.buffer, Admits t.bufferOrigin t.region t.bufferRowPitch t.bufferSlicePitch
      buffer.sizeInBytes.toNat) ∧
    Admits t.hostOrigin t.region t.hostRowPitch t.hostSlicePitch t.hostPtr.length.toNat

variable {t}

theorem area_ne_zero (h : t.Admitted) : ∀ side ∈ t.sides, side.box.area ≠ 0 := by
  simp only [sides, mem_append, mem_map, mem_singleton]
  rintro side (⟨buffer, -, rfl⟩ | rfl)
  · exact h.2.area_ne_zero _ _ _
  · exact h.2.area_ne_zero _ _ _

theorem enqueueReadBufferRectBase_isOk (queue : WebCLCommandQueue) (t : RectTransfer) :
    (queue.enqueueReadBufferRectBase t).isOk = true ↔ t.Usable queue ∧ t.Admitted := by
  unfold Usable Admitted UsesBuffer
  simp only [enqueueReadBufferRectBase, throwIf_bind_isOk, dereference_bind_isOk,
    validateWebCLObject_bind_isOk, callWithEvents_isOk, ← isValidRegionForMemoryObject_iff]
  cases t.buffer with
  | none => simp
  | some buffer =>
    simp [compareContext, Option.isSome_iff_exists]
    tauto

theorem enqueueWriteBufferRectBase_isOk (queue : WebCLCommandQueue) (t : RectTransfer) :
    (queue.enqueueWriteBufferRectBase t).isOk = true ↔ t.Usable queue ∧ t.Admitted := by
  unfold Usable Admitted UsesBuffer
  simp only [enqueueWriteBufferRectBase, throwIf_bind_isOk, dereference_bind_isOk,
    validateWebCLObject_bind_isOk, callWithEvents_isOk, ← isValidRegionForMemoryObject_iff]
  cases t.buffer with
  | none => simp
  | some buffer =>
    simp [compareContext, Option.isSome_iff_exists]
    tauto

end RectTransfer

namespace CopyBufferRect
variable (t : CopyBufferRect)

def sides : List Side :=
  t.sourceBuffer.toList.map (fun buffer =>
      ⟨memoryBox t.sourceOrigin t.region t.sourceRowPitch t.sourceSlicePitch,
        buffer.sizeInBytes⟩) ++
    t.targetBuffer.toList.map fun buffer =>
      ⟨memoryBox t.targetOrigin t.region t.targetRowPitch t.targetSlicePitch, buffer.sizeInBytes⟩

/-- Nothing but the regions can make the queue refuse the copy: it is not taken for an overlapping
one either. -/
def Usable (queue : WebCLCommandQueue) : Prop :=
  queue.isPlatformObjectNeutralized = false ∧ queue.UsesBuffer t.sourceBuffer ∧
    queue.UsesBuffer t.targetBuffer ∧
    (t.sourceOrigin.length = 3 ∧ t.targetOrigin.length = 3 ∧ t.region.length = 3) ∧
    isBufferRegionOverlapping t.sourceBuffer t.targetBuffer
      (item t.sourceOrigin 2 * t.sourceSlicePitch + item t.sourceOrigin 1 * t.sourceRowPitch +
        item t.sourceOrigin 0)
      (item t.targetOrigin 2 * t.targetSlicePitch + item t.targetOrigin 1 * t.targetRowPitch +
        item t.targetOrigin 0)
      (item t.region 2 * item t.region 1 * item t.region 0) = false ∧
    queue.TakesEvents t.toEventArguments .AcceptUserEvent

/-- The sums of the check do not exceed the lengths of the buffers; on the side of the target they are
made with the pitches swapped. -/
def Admitted : Prop :=
  (∀ buffer ∈ t.sourceBuffer, Admits t.sourceOrigin t.region t.sourceRowPitch t.sourceSlicePitch
      buffer.sizeInBytes.toNat) ∧
    ∀ buffer ∈ t.targetBuffer, Admits t.targetOrigin t.region t.targetSlicePitch t.targetRowPitch
      buffer.sizeInBytes.toNat

variable {t} {queue : WebCLCommandQueue}

theorem area_ne_zero (h : t.Admitted) : ∀ side ∈ t.sides, side.box.area ≠ 0 := by
  simp only [sides, mem_append, mem_map, Option.mem_toList]
  rintro side (⟨buffer, hb, rfl⟩ | ⟨buffer, hb, rfl⟩)
  · exact (h.1 buffer hb).area_ne_zero _ _ _
  · exact (h.2 buffer hb).area_ne_zero _ _ _

theorem enqueueCopyBufferRect_isOk :
    (queue.enqueueCopyBufferRect t).isOk = true ↔ t.Usable queue ∧ t.Admitted := by
  unfold Usable Admitted UsesBuffer
  simp only [enqueueCopyBufferRect, throwIf_bind_isOk, validateWebCLObject_bind_isOk,
    callWithEvents_isOk, ← isValidRegionForMemoryObject_iff]
  cases t.sourceBuffer with
  | none => simp
  | some source =>
    cases t.targetBuffer with
    | none => simp
    | some target =>
      simp [compareContext, Option.isSome_iff_exists]
      tauto

end CopyBufferRect

/-- The rectangular transfers that a script can ask for. -/
inductive RectRequest
  | read (t : RectTransfer) (ptr : Option ArrayBufferView)
  | readToCanvas (t : RectTransfer) (extracted : Except ExceptionCode HostPtr)
  | write (t : RectTransfer) (ptr : Option ArrayBufferView)
  | writeFromElement (t : RectTransfer) (extracted : Except ExceptionCode HostPtr)
  | copy (t : CopyBufferRect)

namespace RectRequest

def enqueue (queue : WebCLCommandQueue) : RectRequest → Checked PlatformCall
  | read t ptr => queue.enqueueReadBufferRect t ptr
  | readToCanvas t extracted => queue.enqueueReadBufferRectToCanvas t extracted
  | write t ptr => queue.enqueueWriteBufferRect t ptr
  | writeFromElement t extracted => queue.enqueueWriteBufferRectFromElement t extracted
  | copy t => queue.enqueueCopyBufferRect t

/-- A read or write with the array that the script has handed over. -/
def transfers : RectRequest → List RectTransfer
  | read t ptr | write t ptr =>
    ptr.toList.map fun view => { t with hostPtr := ⟨view.baseAddress, view.byteLength.toUInt64⟩ }
  | readToCanvas t extracted | writeFromElement t extracted =>
    extracted.toOption.toList.map fun hostPtr =>
      { t with hostPtr, hostRowPitch := 0, hostSlicePitch := 0 }
  | copy _ => []

/-- Both sides of the transfer. -/
def sides : RectRequest → List Side
  | copy t => t.sides
  | request => request.transfers.flatMap RectTransfer.sides

/-- The array or the element is one that the queue can take. -/
def hostGiven (queue : WebCLCommandQueue) : RectRequest → Bool
  | read t ptr | write t ptr =>
    (hostOfArrayBufferView [t.hostRowPitch, t.hostSlicePitch] ptr).isOk
  | readToCanvas _ extracted | writeFromElement _ extracted =>
    (hostOfElement queue.htmlImageEnabled extracted).isOk
  | copy _ => true

def Usable (queue : WebCLCommandQueue) : RectRequest → Prop
  | copy t => t.Usable queue
  | request => request.hostGiven queue = true ∧ ∀ t ∈ request.transfers, t.Usable queue

def Admitted : RectRequest → Prop
  | copy t => t.Admitted
  | request => ∀ t ∈ request.transfers, t.Admitted

end RectRequest

section
variable {τ : Type} {base : τ → Checked PlatformCall} {U A : τ → Prop}
  (hbase : ∀ t, (base t).isOk = true ↔ U t ∧ A t) (g : HostPtr → τ)
include hbase

/-- A function that takes its array from a view makes its call if the base function does. -/
theorem view_bind_isOk (sizes : List CCuint) (ptr : Option ArrayBufferView) :
    let transfers := ptr.toList.map fun view => g ⟨view.baseAddress, view.byteLength.toUInt64⟩
    (hostOfArrayBufferView sizes ptr >>= fun hostPtr => base (g hostPtr)).isOk = true ↔
      ((hostOfArrayBufferView sizes ptr).isOk = true ∧ ∀ t ∈ transfers, U t) ∧
        ∀ t ∈ transfers, A t := by
  cases ptr with
  | none => exact ⟨nofun, fun h => absurd h.1.1 nofun⟩
  | some view =>
    simp only [hostOfArrayBufferView, bind_assoc, throwIf_bind_isOk, pure_bind, hbase,
      Option.toList_some, map_cons, map_nil, forall_mem_singleton]
    exact ⟨fun h => ⟨⟨⟨h.1, rfl⟩, h.2.1⟩, h.2.2⟩, fun h => ⟨h.1.1.1, h.1.2, h.2⟩⟩

theorem element_bind_isOk (enabled : Bool) (extracted : Except ExceptionCode HostPtr) :
    let transfers := extracted.toOption.toList.map g
    (hostOfElement enabled extracted >>= fun hostPtr => base (g hostPtr)).isOk = true ↔
      ((hostOfElement enabled extracted).isOk = true ∧ ∀ t ∈ transfers, U t) ∧
        ∀ t ∈ transfers, A t := by
  cases enabled with
  | false => exact ⟨nofun, fun h => absurd h.1.1 nofun⟩
  | true =>
    cases extracted with
    | error code => exact ⟨nofun, fun h => absurd h.1.1 nofun⟩
    | ok hostPtr =>
      change (base (g hostPtr)).isOk = true ↔
        (_ ∧ ∀ t ∈ [g hostPtr], U t) ∧ ∀ t ∈ [g hostPtr], A t
      rw [hbase, forall_mem_singleton, forall_mem_singleton]
      exact ⟨fun h => ⟨⟨rfl, h.1⟩, h.2⟩, fun h => ⟨h.1.2, h.2⟩⟩

end

namespace RectRequest
variable {queue : WebCLCommandQueue} {request : RectRequest}

theorem enqueue_isOk :
    (request.enqueue queue).isOk = true ↔ request.Usable queue ∧ request.Admitted := by
  cases request with
  | read t ptr =>
    exact view_bind_isOk (RectTransfer.enqueueReadBufferRectBase_isOk queue)
      (fun hostPtr => { t with hostPtr }) _ ptr
  | readToCanvas t extracted =>
    exact element_bind_isOk (RectTransfer.enqueueReadBufferRectBase_isOk queue)
      (fun hostPtr => { t with hostPtr, hostRowPitch := 0, hostSlicePitch := 0 }) _ extracted
  | write t ptr =>
    exact view_bind_isOk (RectTransfer.enqueueWriteBufferRectBase_isOk queue)
      (fun hostPtr => { t with hostPtr }) _ ptr
  | writeFromElement t extracted =>
    exact element_bind_isOk (RectTransfer.enqueueWriteBufferRectBase_isOk queue)
      (fun hostPtr => { t with hostPtr, hostRowPitch := 0, hostSlicePitch := 0 }) _ extracted
  | copy t => exact CopyBufferRect.enqueueCopyBufferRect_isOk

theorem area_ne_zero (h : request.Admitted) : ∀ side ∈ request.sides, side.box.area ≠ 0 := by
  have hall (h : ∀ t ∈ request.transfers, t.Admitted) :
      ∀ side ∈ request.transfers.flatMap RectTransfer.sides, side.box.area ≠ 0 := by
    intro side hs
    obtain ⟨t, ht, hs⟩ := mem_flatMap.mp hs
    exact RectTransfer.area_ne_zero (h t ht) side hs
  cases request with
  | copy t => exact CopyBufferRect.area_ne_zero h
  | _ => exact hall h

end RectRequest

/-- Every rectangular transfer that is handed to OpenCL is one whose sums are within the lengths, and
it touches no byte outside its buffers and arrays if and only if the last byte of each side is inside. -/
theorem rect_transfers_in_bounds_iff (queue : WebCLCommandQueue) (request : RectRequest) :
    ((request.enqueue queue).isOk = true →
      ∀ side ∈ request.sides, side.box.Within side.length.toNat) ↔
    (request.Usable queue → request.Admitted →
      ∀ side ∈ request.sides, side.box.last < side.length.toNat) := by
  rw [RectRequest.enqueue_isOk]
  constructor
  · intro h hu ha side hs
    exact (Box.within_iff (RectRequest.area_ne_zero ha side hs)).mp (h ⟨hu, ha⟩ side hs)
  · intro h hok side hs
    exact (Box.within_iff (RectRequest.area_ne_zero hok.2 side hs)).mpr (h hok.1 hok.2 side hs)

/-- The inner four bytes of a square of sixteen are read, and one row is copied to a buffer of four bytes
although its target pitches are swapped. -/
theorem rect_transfers_in_bounds_innerBlock :
    let queue : WebCLCommandQueue := ⟨false, 0, 8192, 8192, true, true⟩
    let readRequest : RectRequest :=
      .read ⟨⟨[], none⟩, some ⟨0, some 7, 16⟩, true, [1, 1, 0], [0, 0, 0], [2, 2, 1], 4, 0, 0, 0,
        ⟨none, 0⟩⟩ (some ⟨.TypeUint8, some 100, 4⟩)
    let copyRequest : RectRequest :=
      .copy ⟨⟨[], none⟩, some ⟨0, some 7, 4⟩, some ⟨0, some 8, 4⟩, [0, 0, 0], [0, 0, 0], [4, 1, 1],
        0, 0, 4, 0⟩
    ((readRequest.enqueue queue).isOk = true ∧
      ∀ side ∈ readRequest.sides, side.box.Within side.length.toNat) ∧
    ((copyRequest.enqueue queue).isOk = true ∧
      ∀ side ∈ copyRequest.sides, side.box.Within side.length.toNat) := by
  intro queue readRequest copyRequest
  exact ⟨⟨rfl, (rect_transfers_in_bounds_iff queue readRequest).mpr (fun _ _ => by decide) rfl⟩,
    rfl, (rect_transfers_in_bounds_iff queue copyRequest).mpr (fun _ _ => by decide) rfl⟩

/-- A read of two rows five bytes apart from byte 8 of a buffer of ten bytes, and a copy to a buffer of
ten bytes whose rows are ten bytes apart, both reach OpenCL. -/
theorem rect_transfer_out_of_bounds :
    let queue : WebCLCommandQueue := ⟨false, 0, 8192, 8192, true, true⟩
    let readRequest : RectRequest :=
      .read ⟨⟨[], none⟩, some ⟨0, some 7, 10⟩, true, [8, 0, 0], [0, 0, 0], [1, 2, 1], 5, 0, 0, 0,
        ⟨none, 0⟩⟩ (some ⟨.TypeUint8, some 100, 2⟩)
    let copyRequest : RectRequest :=
      .copy ⟨⟨[], none⟩, some ⟨0, some 7, 10⟩, some ⟨0, some 8, 10⟩, [0, 0, 0], [0, 0, 0], [1, 4, 1],
        0, 0, 10, 1⟩
    ((readRequest.enqueue queue).isOk = true ∧
      ¬ ∀ side ∈ readRequest.sides, side.box.Within side.length.toNat) ∧
    ((copyRequest.enqueue queue).isOk = true ∧
      ¬ ∀ side ∈ copyRequest.sides, side.box.Within side.length.toNat) := by
  intro queue readRequest copyRequest
  refine ⟨⟨rfl,fun h => ?_⟩,rfl,fun h => ?_⟩
  · have hlt := h ⟨⟨8,0,0,1,2,1,5,10⟩,10⟩ (by decide) 0 1 0 (by decide) (by decide) (by decide)
    revert hlt
    decide
  · have hlt := h ⟨⟨0,0,0,1,4,1,10,1⟩,10⟩ (by decide) 0 3 0 (by decide) (by decide) (by decide)
    revert hlt
    decide

end QPlusWeb.WebCL
