import Mathlib.Data.Int.Init
import Mathlib.Tactic.Linarith

/-!
# Regions of pixels

`Region.cpp` and the parts of `IntRect.cpp` that it uses. A region is kept as a list of
spans, which hold from their y coordinate to that of the next span, and each span
has a list of segments, pairs of x coordinates in one common vector. The operations
merge the spans and segments of two shapes.

Coordinates are `int`, and sums and differences wrap around as on the machine. An
iterator over spans is the rest of the list that it points to, and an
iterator over segments is the list up to the end of the span. No result means
an access out of bounds or a failed assertion.
-/
namespace QPlusWeb.Regions

/-- The value that an `int` holds after an overflow. -/
def int32 (n : ℤ) : ℤ := n.bmod (2 ^ 32)

def maxInt : ℤ := 2 ^ 31 - 1

def minInt : ℤ := -2 ^ 31

structure IntPoint where
  x : ℤ
  y : ℤ
  deriving DecidableEq, Repr

structure IntSize where
  width : ℤ
  height : ℤ
  deriving DecidableEq, Repr

/-! ### Rectangles -/

structure IntRect where
  x : ℤ
  y : ℤ
  width : ℤ
  height : ℤ
  deriving DecidableEq, Repr

namespace IntRect

variable (r : IntRect)

def maxX : ℤ := int32 (r.x + r.width)

def maxY : ℤ := int32 (r.y + r.height)

def isEmpty : Bool := decide (r.width ≤ 0 ∨ r.height ≤ 0)

def intersects (r other : IntRect) : Bool :=
  !r.isEmpty && !other.isEmpty &&
    decide (r.x < other.maxX ∧ other.x < r.maxX ∧ r.y < other.maxY ∧ other.y < r.maxY)

def contains (r other : IntRect) : Bool :=
  decide (r.x ≤ other.x ∧ r.maxX ≥ other.maxX ∧ r.y ≤ other.y ∧ r.maxY ≥ other.maxY)

def containsPoint (p : IntPoint) : Bool :=
  decide (p.x ≥ r.x ∧ p.x < r.maxX ∧ p.y ≥ r.y ∧ p.y < r.maxY)

def unite (r other : IntRect) : IntRect :=
  if other.isEmpty then r
  else if r.isEmpty then other
  else
    let left := min r.x other.x
    let top := min r.y other.y
    let right := max r.maxX other.maxX
    let bottom := max r.maxY other.maxY
    ⟨left, top, int32 (right - left), int32 (bottom - top)⟩

def move (offset : IntSize) : IntRect :=
  { r with x := int32 (r.x + offset.width), y := int32 (r.y + offset.height) }

end IntRect

/-! ### Shapes -/

structure Span where
  y : ℤ
  segmentIndex : ℕ
  deriving DecidableEq, Repr

structure Shape where
  segments : List ℤ
  spans : List Span
  deriving DecidableEq, Repr

namespace Shape

def empty : Shape := ⟨[], []⟩

variable (s : Shape)

def isEmpty : Bool := s.spans.isEmpty

def isRect : Bool := decide (s.spans.length ≤ 2 ∧ s.segments.length ≤ 2)

/-- `appendSpan(y)` -/
def appendSpanAt (y : ℤ) : Shape :=
  { s with spans := s.spans ++ [⟨y, s.segments.length⟩] }

def appendSegment (x : ℤ) : Shape := { s with segments := s.segments ++ [x] }

def ofRect (r : IntRect) : Shape :=
  (((empty.appendSpanAt r.y).appendSegment r.x).appendSegment r.maxX).appendSpanAt r.maxY

/-- Whether the last span has the same segments. -/
def canCoalesce (segments : List ℤ) : Bool :=
  match s.spans.getLast? with
  | none => false
  | some last => decide (s.segments.drop last.segmentIndex = segments)

/-- `appendSpan(y, begin, end)` -/
def appendSpan (y : ℤ) (segments : List ℤ) : Shape :=
  if s.canCoalesce segments then s
  else
    let s := s.appendSpanAt y
    { s with segments := s.segments ++ segments }

/-- The segments from `segments_begin` to `segments_end` of a span, whose end is at the index of
the next span. -/
def segmentsOf (it : Span) (rest : List Span) : Option (List ℤ) :=
  if it.segmentIndex = s.segments.length then some []
  else
    match rest with
    | [] => none
    | next :: _ =>
      if it.segmentIndex ≤ next.segmentIndex ∧ next.segmentIndex ≤ s.segments.length then
        some ((s.segments.drop it.segmentIndex).take (next.segmentIndex - it.segmentIndex))
      else none

def appendSpans (s shape : Shape) : List Span → Option Shape
  | [] => some s
  | it :: rest => do
    let segments ← shape.segmentsOf it rest
    (s.appendSpan it.y segments).appendSpans shape rest

/-- The loop of `bounds` up to the last span. A span without segments in the middle of the
shape reads the segments next to it. -/
def boundsLoop (s : Shape) : List Span → ℤ → ℤ → Option (ℤ × ℤ)
  | span :: next :: rest, minX, maxX =>
    if span.segmentIndex = s.segments.length then s.boundsLoop (next :: rest) minX maxX
    else if next.segmentIndex = 0 ∨ next.segmentIndex - 1 = span.segmentIndex then none
    else do
      let firstSegment ← s.segments[span.segmentIndex]?
      let lastSegment ← s.segments[next.segmentIndex - 1]?
      s.boundsLoop (next :: rest) (if firstSegment < minX then firstSegment else minX)
        (if lastSegment > maxX then lastSegment else maxX)
  | _, minX, maxX => some (minX, maxX)

def bounds : Option IntRect :=
  match s.spans with
  | [] => some ⟨0, 0, 0, 0⟩
  | first :: rest => do
    let minY := first.y
    let maxY := ((first :: rest).getLast (List.cons_ne_nil _ _)).y
    let r ← s.boundsLoop (first :: rest) maxInt minInt
    if r.1 ≤ r.2 ∧ minY ≤ maxY then some ⟨r.1, minY, int32 (r.2 - r.1), int32 (maxY - minY)⟩
    else none

def translate (offset : IntSize) : Shape :=
  ⟨s.segments.map fun x => int32 (x + offset.width),
    s.spans.map fun span => ⟨int32 (span.y + offset.height), span.segmentIndex⟩⟩

/-! ### Operations on two shapes -/

structure Operation where
  trySimpleOperation : Shape → Shape → Option Shape
  opCode : ℕ
  shouldAddRemainingSegmentsFromSpan1 : Bool
  shouldAddRemainingSegmentsFromSpan2 : Bool
  shouldAddRemainingSpansFromShape1 : Bool
  shouldAddRemainingSpansFromShape2 : Bool

namespace Operation

/-- The coordinate is a segment boundary of the result if the code is entered or left. -/
def emit (op : Operation) (oldFlag flag : ℕ) (x : ℤ) : List ℤ :=
  if flag = op.opCode ∨ oldFlag = op.opCode then [x] else []

/-- The inner loop of `shapeOperation` with the remaining segments. -/
def mergeSegments (op : Operation) : List ℤ → List ℤ → ℕ → List ℤ
  | x₁ :: s₁, x₂ :: s₂, flag =>
    let test := int32 (x₁ - x₂)
    if test < 0 then
      op.emit flag (flag ^^^ 1) x₁ ++ op.mergeSegments s₁ (x₂ :: s₂) (flag ^^^ 1)
    else if test = 0 then
      op.emit flag (flag ^^^ 1 ^^^ 2) x₂ ++ op.mergeSegments s₁ s₂ (flag ^^^ 1 ^^^ 2)
    else op.emit flag (flag ^^^ 2) x₂ ++ op.mergeSegments (x₁ :: s₁) s₂ (flag ^^^ 2)
  | s₁, s₂, _ =>
    if op.shouldAddRemainingSegmentsFromSpan1 && !s₁.isEmpty then s₁
    else if op.shouldAddRemainingSegmentsFromSpan2 && !s₂.isEmpty then s₂
    else []
termination_by s₁ s₂ => s₁.length + s₂.length

/-- The end of one pass of the outer loop. -/
def addSpan (op : Operation) (result : Shape) (y : ℤ) (segments₁ segments₂ : List ℤ) : Shape :=
  let segments := op.mergeSegments segments₁ segments₂ 0
  if !segments.isEmpty || !result.isEmpty then result.appendSpan y segments else result

/-- The outer loop of `shapeOperation` with the remaining spans. -/
def mergeSpans (op : Operation) (shape₁ shape₂ : Shape) :
    List Span → List Span → List ℤ → List ℤ → Shape → Option Shape
  | span₁ :: spans₁, span₂ :: spans₂, segments₁, segments₂, result =>
    let test := int32 (span₁.y - span₂.y)
    if test < 0 then do
      let segments₁ ← shape₁.segmentsOf span₁ spans₁
      op.mergeSpans shape₁ shape₂ spans₁ (span₂ :: spans₂) segments₁ segments₂
        (op.addSpan result span₁.y segments₁ segments₂)
    else if test = 0 then do
      let segments₁ ← shape₁.segmentsOf span₁ spans₁
      let segments₂ ← shape₂.segmentsOf span₂ spans₂
      op.mergeSpans shape₁ shape₂ spans₁ spans₂ segments₁ segments₂
        (op.addSpan result span₂.y segments₁ segments₂)
    else do
      let segments₂ ← shape₂.segmentsOf span₂ spans₂
      op.mergeSpans shape₁ shape₂ (span₁ :: spans₁) spans₂ segments₁ segments₂
        (op.addSpan result span₂.y segments₁ segments₂)
  | spans₁, spans₂, _, _, result =>
    if op.shouldAddRemainingSpansFromShape1 && !spans₁.isEmpty then
      result.appendSpans shape₁ spans₁
    else if op.shouldAddRemainingSpansFromShape2 && !spans₂.isEmpty then
      result.appendSpans shape₂ spans₂
    else some result
termination_by spans₁ spans₂ => spans₁.length + spans₂.length

def shapeOperation (op : Operation) (shape₁ shape₂ : Shape) : Option Shape :=
  match op.trySimpleOperation shape₁ shape₂ with
  | some result => some result
  | none => op.mergeSpans shape₁ shape₂ shape₁.spans shape₂.spans [] [] empty

end Operation

def unionOperation : Operation where
  trySimpleOperation shape₁ shape₂ := if shape₁.isEmpty then some shape₂ else none
  opCode := 0
  shouldAddRemainingSegmentsFromSpan1 := true
  shouldAddRemainingSegmentsFromSpan2 := true
  shouldAddRemainingSpansFromShape1 := true
  shouldAddRemainingSpansFromShape2 := true

def intersectOperation : Operation where
  trySimpleOperation _ _ := none
  opCode := 3
  shouldAddRemainingSegmentsFromSpan1 := false
  shouldAddRemainingSegmentsFromSpan2 := false
  shouldAddRemainingSpansFromShape1 := false
  shouldAddRemainingSpansFromShape2 := false

def subtractOperation : Operation where
  trySimpleOperation _ _ := none
  opCode := 1
  shouldAddRemainingSegmentsFromSpan1 := true
  shouldAddRemainingSegmentsFromSpan2 := false
  shouldAddRemainingSpansFromShape1 := true
  shouldAddRemainingSpansFromShape2 := false

/-! ### Comparing shapes -/

/-- The result so far, and what ends the comparison with which result. -/
structure CompareOperation where
  defaultResult : Bool
  aOutsideB : Option Bool
  bOutsideA : Option Bool
  aOverlapsB : Option Bool

def compareContainsOperation : CompareOperation := ⟨true, none, some false, none⟩

def compareIntersectsOperation : CompareOperation := ⟨false, none, none, some true⟩

namespace CompareOperation

/-- The first of the given answers that ends the comparison. -/
def firstOf : List (Bool × Option Bool) → Option Bool
  | [] => none
  | (condition, answer) :: rest =>
    match condition, answer with
    | true, some result => some result
    | _, _ => firstOf rest

/-- The inner loop of `compareShapes`: an answer if the comparison ends there. -/
def compareSegments (op : CompareOperation) : List ℤ → List ℤ → Option (Option Bool)
  | aX :: aMaxX :: aRest, bX :: bMaxX :: bRest =>
    match firstOf [(decide (bMaxX > aX ∧ bX < aMaxX), op.aOverlapsB),
        (decide (aX < bX), op.aOutsideB), (decide (bX < aX), op.bOutsideA)] with
    | some result => some (some result)
    | none =>
      if aMaxX < bMaxX then op.compareSegments aRest (bX :: bMaxX :: bRest)
      else if bMaxX < aMaxX then op.compareSegments (aX :: aMaxX :: aRest) bRest
      else op.compareSegments aRest bRest
  | [], b => some (firstOf [(!b.isEmpty, op.bOutsideA)])
  | a, [] => some (firstOf [(!a.isEmpty, op.aOutsideB)])
  | _, _ => none
termination_by a b => a.length + b.length

/-- The comparison of the segments of two spans, if the spans overlap. -/
def compareOverlap (op : CompareOperation) (overlap : Bool) (a b : List ℤ) :
    Option (Option Bool) :=
  if overlap then op.compareSegments a b else some none

/-- The outer loop of `compareShapes`. -/
def compareSpans (op : CompareOperation) (aShape bShape : Shape) :
    List Span → List Span → Bool → Bool → Option Bool
  | aSpan :: aNext :: aRest, bSpan :: bNext :: bRest, aHadSegment, bHadSegment => do
    let aSegments ← aShape.segmentsOf aSpan (aNext :: aRest)
    let bSegments ← bShape.segmentsOf bSpan (bNext :: bRest)
    let aHasSegment := !aSegments.isEmpty
    let bHasSegment := !bSegments.isEmpty
    match firstOf [(decide (aSpan.y < bSpan.y) && !bHadSegment && aHasSegment, op.aOutsideB),
        (decide (bSpan.y < aSpan.y) && !aHadSegment && bHasSegment, op.bOutsideA)] with
    | some result => some result
    | none =>
      match op.compareOverlap (bNext.y > aSpan.y ∧ bSpan.y < aNext.y) aSegments bSegments with
      | none => none
      | some (some result) => some result
      | some none =>
        if aNext.y < bNext.y then
          op.compareSpans aShape bShape (aNext :: aRest) (bSpan :: bNext :: bRest)
            aHasSegment bHasSegment
        else if bNext.y < aNext.y then
          op.compareSpans aShape bShape (aSpan :: aNext :: aRest) (bNext :: bRest)
            aHasSegment bHasSegment
        else
          op.compareSpans aShape bShape (aNext :: aRest) (bNext :: bRest)
            aHasSegment bHasSegment
  | a, b, _, _ =>
    some ((firstOf [(decide (2 ≤ a.length), op.aOutsideB),
      (decide (2 ≤ b.length), op.bOutsideA)]).getD op.defaultResult)
termination_by a b => a.length + b.length

def compareShapes (op : CompareOperation) (aShape bShape : Shape) : Option Bool :=
  op.compareSpans aShape bShape aShape.spans bShape.spans false false

end CompareOperation

end Shape

/-! ### Regions -/

structure Region where
  bounds : IntRect
  shape : Shape
  deriving DecidableEq, Repr

namespace Region

def empty : Region := ⟨⟨0, 0, 0, 0⟩, .empty⟩

def ofRect (r : IntRect) : Region := ⟨r, .ofRect r⟩

def isEmpty (r : Region) : Bool := r.bounds.isEmpty

def isRect (r : Region) : Bool := r.shape.isRect

def segmentRects (y height : ℤ) : List ℤ → List IntRect
  | x :: maxX :: rest => ⟨x, y, int32 (maxX - x), height⟩ :: segmentRects y height rest
  | _ => []

def spanRects (s : Shape) : List Span → Option (List IntRect)
  | span :: next :: rest => do
    let segments ← s.segmentsOf span (next :: rest)
    let rects ← spanRects s (next :: rest)
    some (segmentRects span.y (int32 (next.y - span.y)) segments ++ rects)
  | _ => some []

def rects (r : Region) : Option (List IntRect) := spanRects r.shape r.shape.spans

def segmentsContain (x : ℤ) : List ℤ → Bool
  | left :: right :: rest =>
    if left > x then false else if right > x then true else segmentsContain x rest
  | _ => false

def spansContain (s : Shape) (p : IntPoint) : List Span → Option Bool
  | span :: next :: rest =>
    if span.y > p.y then some false
    else if next.y ≤ p.y then spansContain s p (next :: rest)
    else do
      let segments ← s.segmentsOf span (next :: rest)
      if segmentsContain p.x segments then some true else spansContain s p (next :: rest)
  | _ => some false

/-- `contains(point)` -/
def containsPoint (r : Region) (p : IntPoint) : Option Bool :=
  if !r.bounds.containsPoint p then some false else spansContain r.shape p r.shape.spans

variable (r region : Region)

/-- `contains(region)` -/
def contains : Option Bool :=
  if !r.bounds.contains region.bounds then some false
  else Shape.compareContainsOperation.compareShapes r.shape region.shape

def intersects : Option Bool :=
  if !r.bounds.intersects region.bounds then some false
  else Shape.compareIntersectsOperation.compareShapes r.shape region.shape

def intersect : Option Region :=
  if r.bounds.isEmpty then some r
  else if !r.bounds.intersects region.bounds then some empty
  else do
    let shape ← Shape.intersectOperation.shapeOperation r.shape region.shape
    let bounds ← shape.bounds
    some ⟨bounds, shape⟩

def unite (r region : Region) : Option Region :=
  if region.isEmpty then some r
  else if r.isRect && r.bounds.contains region.bounds then some r
  else if region.isRect && region.bounds.contains r.bounds then some region
  else
    match if !r.isRect then r.contains region else some false with
    | none => none
    | some true => some r
    | some false => do
      let shape ← Shape.unionOperation.shapeOperation r.shape region.shape
      some ⟨r.bounds.unite region.bounds, shape⟩

def subtract : Option Region :=
  if r.bounds.isEmpty then some r
  else if region.isEmpty then some r
  else if !r.bounds.intersects region.bounds then some r
  else do
    let shape ← Shape.subtractOperation.shapeOperation r.shape region.shape
    let bounds ← shape.bounds
    some ⟨bounds, shape⟩

def translate (r : Region) (offset : IntSize) : Region :=
  ⟨r.bounds.move offset, r.shape.translate offset⟩

end Region

end QPlusWeb.Regions
