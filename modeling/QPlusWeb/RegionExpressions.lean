import QPlusWeb.RegionAlgebra

/-!
# Regions built by sequences of operations

A region is built from the empty region and from rectangles by unions, intersections, differences
and translations.  All operations succeed, and the points, the rectangles and the bounds of the
result are those of the same expression over sets of points.
-/

namespace QPlusWeb.Regions

open StepFunctions

/-! ### Regions of one rectangle -/

section
variable {w : Window} {r : IntRect}

/-- A rectangle that is not empty and has its sides in the window. -/
structure IntRect.Fits (w : Window) (r : IntRect) : Prop where
  width_pos : 0 < r.width
  height_pos : 0 < r.height
  x_mem : r.x ∈ w ∧ r.x + r.width ∈ w
  y_mem : r.y ∈ w ∧ r.y + r.height ∈ w

/-- The row between two boundaries. -/
def rowBetween (x₀ x₁ : ℤ) (h : x₀ < x₁) : Segments ℤ :=
  .ofPositions [x₀, x₁] (by simpa using h) (by simp)

theorem positions_rowBetween {x₀ x₁ : ℤ} (h : x₀ < x₁) : (rowBetween x₀ x₁ h).positions = [x₀,x₁] :=
  Segments.positions_ofPositions _ _

theorem rowBetween_ne_empty {x₀ x₁ : ℤ} (h : x₀ < x₁) : rowBetween x₀ x₁ h ≠ .empty := by
  rw [Ne,← Segments.positions_eq_nil,positions_rowBetween]
  exact List.cons_ne_nil _ _

theorem value_rowBetween {x₀ x₁ : ℤ} (h : x₀ < x₁) (x : ℤ) :
    (rowBetween x₀ x₁ h).value x ↔ x₀ ≤ x ∧ x < x₁ := by
  rw [Segments.value_eq_inside,positions_rowBetween,inside_cons_cons,inside_nil]
  split
  next hx => simp [hx]
  next hx =>
    split
    next hx' => simp [not_lt.mp hx,hx']
    next hx' => simp [hx']

/-- The scanlines of a rectangle. -/
def rectScanlines (r : IntRect) (hwidth : 0 < r.width) (hheight : 0 < r.height) : Scanlines where
  steps := [(r.y, rowBetween r.x (r.x + r.width) (by omega)), (r.y + r.height, .empty)]
  increasing := by simpa [Increasing] using hheight
  reduced := ⟨rowBetween_ne_empty _, (rowBetween_ne_empty _).symm, trivial⟩
  closed := rfl

theorem points_rectScanlines (hw : 0 < r.width) (hht : 0 < r.height) :
    points (rectScanlines r hw hht) = r.points := by
  ext p
  have hv : (rectScanlines r hw hht).value p.y =
      if p.y < r.y then .empty
      else if p.y < r.y+r.height then rowBetween r.x (r.x+r.width) (by omega)
      else .empty := rfl
  rw [mem_points,hv,IntRect.mem_points]
  split
  next hy => simp [not_le.mpr hy]
  next hy =>
    split
    next hy' => simp [value_rowBetween,not_lt.mp hy,hy']
    next hy' => simp [hy']

theorem IntRect.Fits.inBox (h : r.Fits w) : InBox w r.points := by
  intro p hp
  have hx := h.x_mem
  have hy := h.y_mem
  rw [IntRect.mem_points] at hp
  simp only [Window.mem_iff] at hx hy
  omega

theorem IntRect.Fits.encloses (h : r.Fits w) : Encloses r r.points := by
  have hw := h.width_pos
  have hht := h.height_pos
  have hc : (⟨r.x,r.y⟩ : IntPoint) ∈ r.points := by
    rw [IntRect.mem_points]
    simp only
    omega
  have ho : (⟨r.x+r.width-1,r.y+r.height-1⟩ : IntPoint) ∈ r.points := by
    rw [IntRect.mem_points]
    simp only
    omega
  exact ⟨subset_rfl,⟨_,hc,rfl⟩,⟨_,ho,by simp⟩,⟨_,hc,rfl⟩,⟨_,ho,by simp⟩⟩

theorem denotes_ofRect (h : r.Fits w) : Denotes w (.ofRect r) r.points := by
  have hp := points_rectScanlines h.width_pos h.height_pos
  refine ⟨rectScanlines r h.width_pos h.height_pos,⟨?_,?_,?_⟩,hp⟩
  · have hmaxX : r.maxX = r.x+r.width := Window.int32_mem h.x_mem.2
    have hmaxY : r.maxY = r.y+r.height := Window.int32_mem h.y_mem.2
    simp [Region.ofRect,Shape.ofRect,Shape.empty,hmaxX,hmaxY]
    rfl
  · rw [hp]
    exact h.inBox
  · rw [hp]
    exact .inr h.encloses

end

/-! ### What regions stand for -/

section
variable {w : Window} {r : Region} {S : Set IntPoint}

theorem Denotes.containsPoint (h : Denotes w r S) (p : IntPoint) :
    ∃ answer, r.containsPoint p = some answer ∧ (answer ↔ p ∈ S) := by
  obtain ⟨A,h,rfl⟩ := h
  exact ⟨_,h.containsPoint p,mem_points.symm⟩

/-- The rectangles are not empty, do not overlap and cover the points. -/
structure Tiles (rects : List IntRect) (S : Set IntPoint) : Prop where
  nonempty : ∀ q ∈ rects, 0 < q.width ∧ 0 < q.height
  disjoint : rects.Pairwise fun q q' => Disjoint q.points q'.points
  covers : ∀ p, (∃ q ∈ rects, p ∈ q.points) ↔ p ∈ S

theorem Denotes.rects (h : Denotes w r S) : ∃ rects, r.rects = some rects ∧ Tiles rects S := by
  obtain ⟨A,h,rfl⟩ := h
  refine ⟨_,h.rects,⟨fun q hq => ?_,rectsOf_pairwise A.increasing,fun p => ?_⟩⟩
  · obtain ⟨hw,hht,-⟩ := mem_rectsOf A.increasing hq
    exact ⟨hw,hht⟩
  · exact rectsOf_covers p A.increasing A.closed

/-- The smallest rectangle around a set of points, empty exactly for the empty set. -/
structure SmallestAround (b : IntRect) (S : Set IntPoint) : Prop where
  covers : S ⊆ b.points
  least : ∀ q : IntRect, S ⊆ q.points → b.points ⊆ q.points
  isEmpty_iff : b.isEmpty = true ↔ S = ∅

theorem IntRect.points_of_isEmpty {b : IntRect} (h : b.isEmpty) : b.points = ∅ := by
  rw [IntRect.isEmpty,decide_eq_true_eq] at h
  refine Set.eq_empty_of_forall_notMem fun p hp => ?_
  rw [IntRect.mem_points] at hp
  omega

theorem Denotes.encloses (h : Denotes w r S) (hS : S ≠ ∅) : Encloses r.bounds S := by
  obtain ⟨A,h,rfl⟩ := h
  exact h.nonempty_or.resolve_left fun he => hS he.1

theorem Denotes.bounds (h : Denotes w r S) : SmallestAround r.bounds S := by
  obtain ⟨A,h,rfl⟩ := h
  rcases h.nonempty_or with ⟨hempty,hi⟩ | he
  · have hp := IntRect.points_of_isEmpty hi
    rw [hempty]
    exact ⟨Set.empty_subset _,fun q _ => hp ▸ Set.empty_subset _,iff_of_true hi rfl⟩
  · refine ⟨he.covers,fun q hq => he.least hq,?_⟩
    rw [he.not_isEmpty]
    exact iff_of_false Bool.false_ne_true he.nonempty.ne_empty

end

/-! ### Equality -/

section
variable {w : Window} {r q u : Region} {S T : Set IntPoint}

/-- A region without points has the bounds of the empty one. -/
def Region.Settled (r : Region) : Prop := r.bounds.isEmpty = true → r.bounds = ⟨0, 0, 0, 0⟩

theorem points_injective : Function.Injective points := by
  intro A B h
  refine Steps.ext_value fun y => Steps.ext_value fun x => ?_
  exact Bool.eq_iff_iff.mpr (Set.ext_iff.mp h ⟨x,y⟩)

theorem Denotes.unique (hr : Denotes w r S) (hq : Denotes w q S)
    (hs : S = ∅ → r.Settled ∧ q.Settled) : r = q := by
  have hb : r.bounds = q.bounds := by
    by_cases hS : S = ∅
    · rw [(hs hS).1 (hr.bounds.isEmpty_iff.mpr hS),(hs hS).2 (hq.bounds.isEmpty_iff.mpr hS)]
    · exact (hr.encloses hS).unique (hq.encloses hS)
  obtain ⟨A,hr,rfl⟩ := hr
  obtain ⟨B,hq,hB⟩ := hq
  obtain rfl := points_injective hB
  have hshape := hr.shape_eq.trans hq.shape_eq.symm
  cases r
  cases q
  rw [Region.mk.injEq]
  exact ⟨hb,hshape⟩

theorem Denotes.settled_of_nonempty (h : Denotes w r S) (hS : S.Nonempty) : r.Settled :=
  fun he => absurd (h.bounds.isEmpty_iff.mp he) hS.ne_empty

theorem settled_unite (hq : Denotes w q T) (hu : Denotes w u (S ∪ T)) (hr : r.Settled)
    (h : r.unite q = some u) : u.Settled := by
  by_cases hT : T = ∅
  · rw [Region.unite,Region.isEmpty,if_pos (hq.bounds.isEmpty_iff.mpr hT)] at h
    cases h
    exact hr
  · exact hu.settled_of_nonempty (.inr (Set.nonempty_iff_ne_empty.mpr hT))

/-- Regions whose bounds are computed from the shape. -/
theorem settled_of_bounds {s : Option Shape} (hu : Denotes w u S)
    (h : (do let shape ← s; let bounds ← shape.bounds; some (⟨bounds,shape⟩ : Region)) = some u) :
    u.Settled := by
  obtain ⟨shape,-,h⟩ := Option.bind_eq_some_iff.mp h
  obtain ⟨bounds,hb,⟨⟩⟩ := Option.bind_eq_some_iff.mp h
  obtain ⟨A,⟨rfl,-,⟨hs,-⟩ | hA⟩,-⟩ := hu
  · rw [Regions.shape,hs] at hb
    exact fun _ => (Option.some.inj hb).symm
  · exact fun he => absurd he (by simp [hA.not_isEmpty])

theorem settled_intersect (hu : Denotes w u S) (hr : r.Settled) (h : r.intersect q = some u) :
    u.Settled := by
  unfold Region.intersect at h
  split_ifs at h
  · exact Option.some.inj h ▸ hr
  · cases h
    exact fun _ => rfl
  · exact settled_of_bounds hu h

theorem settled_subtract (hu : Denotes w u S) (hr : r.Settled) (h : r.subtract q = some u) :
    u.Settled := by
  unfold Region.subtract at h
  split_ifs at h
  · exact Option.some.inj h ▸ hr
  · exact Option.some.inj h ▸ hr
  · exact Option.some.inj h ▸ hr
  · exact settled_of_bounds hu h

end

/-! ### Expressions -/

inductive Expr where
  | empty
  | rect (r : IntRect)
  | unite (e e' : Expr)
  | intersect (e e' : Expr)
  | subtract (e e' : Expr)
  | translate (e : Expr) (offset : IntSize)

namespace Expr

/-- The region that the operations build. -/
def build : Expr → Option Region
  | empty => some .empty
  | rect r => some (.ofRect r)
  | unite e e' => do
    let r ← e.build
    let q ← e'.build
    r.unite q
  | intersect e e' => do
    let r ← e.build
    let q ← e'.build
    r.intersect q
  | subtract e e' => do
    let r ← e.build
    let q ← e'.build
    r.subtract q
  | translate e offset => do
    let r ← e.build
    return r.translate offset

/-- The same operations on sets of points. -/
def points : Expr → Set IntPoint
  | empty => ∅
  | rect r => r.points
  | unite e e' => e.points ∪ e'.points
  | intersect e e' => e.points ∩ e'.points
  | subtract e e' => e.points \ e'.points
  | translate e offset => translated e.points offset

/-- The rectangles are not empty, and all coordinates stay in the window. -/
def Fits (w : Window) : Expr → Prop
  | empty => True
  | rect r => r.Fits w
  | unite e e' => e.Fits w ∧ e'.Fits w
  | intersect e e' => e.Fits w ∧ e'.Fits w
  | subtract e e' => e.Fits w ∧ e'.Fits w
  | translate e offset => e.Fits w ∧ InBox w (translated e.points offset)

/-- The last translation of the region itself moves points. -/
def MovesPoints : Expr → Prop
  | unite e _ => e.MovesPoints
  | intersect e _ => e.MovesPoints
  | subtract e _ => e.MovesPoints
  | translate e _ => e.points.Nonempty
  | _ => True

theorem exists_build {w : Window} (e : Expr) (h : e.Fits w) :
    ∃ r, e.build = some r ∧ Denotes w r e.points ∧ (e.MovesPoints → r.Settled) := by
  induction e with
  | empty => exact ⟨_,rfl,denotes_empty w,fun _ _ => rfl⟩
  | rect r =>
    have hr := denotes_ofRect h
    exact ⟨_,rfl,hr,fun _ => hr.settled_of_nonempty (IntRect.Fits.encloses h).nonempty⟩
  | unite e e' ih ih' =>
    obtain ⟨r,hr,hdenotes,hs⟩ := ih h.1
    obtain ⟨q,hq,hdenotes',-⟩ := ih' h.2
    obtain ⟨u,hunite,hu⟩ := hdenotes.unite hdenotes'
    rw [build,hr,hq]
    exact ⟨u,hunite,hu,fun hm => settled_unite hdenotes' hu (hs hm) hunite⟩
  | intersect e e' ih ih' =>
    obtain ⟨r,hr,hdenotes,hs⟩ := ih h.1
    obtain ⟨q,hq,hdenotes',-⟩ := ih' h.2
    obtain ⟨u,hi,hu⟩ := hdenotes.intersect hdenotes'
    rw [build,hr,hq]
    exact ⟨u,hi,hu,fun hm => settled_intersect hu (hs hm) hi⟩
  | subtract e e' ih ih' =>
    obtain ⟨r,hr,hdenotes,hs⟩ := ih h.1
    obtain ⟨q,hq,hdenotes',-⟩ := ih' h.2
    obtain ⟨u,hsubtract,hu⟩ := hdenotes.subtract hdenotes'
    rw [build,hr,hq]
    exact ⟨u,hsubtract,hu,fun hm => settled_subtract hu (hs hm) hsubtract⟩
  | translate e offset ih =>
    obtain ⟨r,hr,hdenotes,-⟩ := ih h.1
    have hu := hdenotes.translate h.2
    rw [build,hr]
    refine ⟨_,rfl,hu,fun hm => hu.settled_of_nonempty ?_⟩
    obtain ⟨p,hp⟩ := hm
    exact ⟨_,mem_translated_add hp⟩

end Expr

/-- The operations succeed, and the point test, the rectangles and the bounds of the region are
those of the set of points. -/
theorem Expr.build_correct {w : Window} (e : Expr) (h : e.Fits w) :
    ∃ r, e.build = some r ∧
      (∀ p, ∃ answer, r.containsPoint p = some answer ∧ (answer = true ↔ p ∈ e.points)) ∧
      (∃ rects, r.rects = some rects ∧ Tiles rects e.points) ∧
      SmallestAround r.bounds e.points := by
  obtain ⟨r,hb,hd,-⟩ := e.exists_build h
  exact ⟨r,hb,hd.containsPoint,hd.rects,hd.bounds⟩

/-- In a common window `contains` and `intersects` answer for the sets of points. -/
theorem Expr.contains_intersects_correct {w : Window} (e e' : Expr) (h : e.Fits w) (h' : e'.Fits w)
    (hne : e'.points.Nonempty) :
    ∃ r q, e.build = some r ∧ e'.build = some q ∧
      (∃ answer, r.contains q = some answer ∧ (answer = true ↔ e'.points ⊆ e.points)) ∧
      ∃ answer, r.intersects q = some answer ∧ (answer = true ↔ (e.points ∩ e'.points).Nonempty) := by
  obtain ⟨r,hbuild,⟨A,hr,hA⟩,-⟩ := e.exists_build h
  obtain ⟨q,hbuild',⟨B,hq,hB⟩,-⟩ := e'.exists_build h'
  rw [← hB] at hne
  have he := hq.nonempty_or.resolve_left fun hempty => hne.ne_empty hempty.1
  rw [← hA,← hB]
  exact ⟨r,q,hbuild,hbuild',hr.contains hq he,hr.intersects hq⟩

/-- The width of the bounds of two far rectangles is no `int`, so that their union intersects nothing. -/
theorem intersects_false_of_far_rects :
    ∃ r q, (Expr.unite (.rect ⟨-2000000000, 0, 10, 10⟩) (.rect ⟨2000000000, 20, 10, 10⟩)).build =
        some r ∧ (Expr.rect ⟨-2000000000, 0, 1, 1⟩).build = some q ∧
      r.containsPoint ⟨-2000000000, 0⟩ = some true ∧ q.containsPoint ⟨-2000000000, 0⟩ = some true ∧
      r.intersects q = some false := by
  refine ⟨⟨⟨-2000000000,0,-294967286,30⟩,⟨[-2000000000,-1999999990,2000000000,2000000010],
    [⟨0,0⟩,⟨10,2⟩,⟨20,2⟩,⟨30,4⟩]⟩⟩,_,?_,rfl,?_⟩
  · cbv
  · decide +kernel

/-- In a common window regions are equal if and only if they contain the same points, and the shapes
are those of scanlines.  A region that lost its points before a translation has other bounds. -/
theorem Expr.build_eq_iff {w : Window} (e e' : Expr) (h : e.Fits w) (h' : e'.Fits w)
    (hmoves : e.points = ∅ → e'.points = ∅ → e.MovesPoints ∧ e'.MovesPoints) :
    ∃ r q, e.build = some r ∧ e'.build = some q ∧
      (r = q ↔ ∀ p, r.containsPoint p = q.containsPoint p) ∧
      (∃ A, r.shape = shape A) ∧ ∃ B, q.shape = shape B := by
  obtain ⟨r,hbuild,hr,hsettled⟩ := e.exists_build h
  obtain ⟨q,hbuild',hq,hsettled'⟩ := e'.exists_build h'
  refine ⟨r,q,hbuild,hbuild',⟨fun heq p => heq ▸ rfl,fun hsame => ?_⟩,?_,?_⟩
  · have hp : e.points = e'.points := by
      ext p
      obtain ⟨answer,hans,hmem⟩ := hr.containsPoint p
      obtain ⟨answer',hans',hmem'⟩ := hq.containsPoint p
      rw [← hmem,← hmem',Option.some.inj (hans.symm.trans ((hsame p).trans hans'))]
    refine hr.unique (hp ▸ hq) fun he => ?_
    obtain ⟨hm,hm'⟩ := hmoves he (hp ▸ he)
    exact ⟨hsettled hm,hsettled' hm'⟩
  · obtain ⟨A,hr,-⟩ := hr
    exact ⟨A,hr.shape_eq⟩
  · obtain ⟨B,hq,-⟩ := hq
    exact ⟨B,hq.shape_eq⟩

/-- Translating a region without points moves its bounds. -/
theorem translated_empty_ne_empty : ∃ r q, Expr.empty.build = some r ∧
    (Expr.translate .empty ⟨1, 0⟩).build = some q ∧
    (∀ p, r.containsPoint p = some false ∧ q.containsPoint p = some false) ∧ r ≠ q :=
  ⟨_,_,rfl,rfl,fun _ => ⟨ite_self _,ite_self _⟩,by decide⟩

section

def hundred : Window := ⟨-100, 100, by decide, by decide, by decide⟩

/-- Two overlapping squares without their common part, moved. -/
def movedDifference : Expr :=
  .translate (.subtract (.unite (.rect ⟨0, 0, 4, 4⟩) (.rect ⟨2, 2, 4, 4⟩))
    (.intersect (.rect ⟨0, 0, 4, 4⟩) (.rect ⟨2, 2, 4, 4⟩))) ⟨10, -3⟩

theorem fits_square {r : IntRect} (hw : r.width = 4) (hht : r.height = 4)
    (hx : 0 ≤ r.x ∧ r.x ≤ 2) (hy : 0 ≤ r.y ∧ r.y ≤ 2) : r.Fits hundred := by
  have hlo : hundred.lo = -100 := rfl
  have hhi : hundred.hi = 100 := rfl
  refine ⟨by omega,by omega,?_,?_⟩ <;>
  · simp only [Window.mem_iff]
    omega

theorem fits_squares : IntRect.Fits hundred ⟨0,0,4,4⟩ ∧ IntRect.Fits hundred ⟨2,2,4,4⟩ :=
  ⟨fits_square rfl rfl (by decide) (by decide),fits_square rfl rfl (by decide) (by decide)⟩

theorem fits_movedDifference : movedDifference.Fits hundred := by
  refine ⟨⟨fits_squares,fits_squares⟩,fun p hp => ?_⟩
  have hlo : hundred.lo = -100 := rfl
  have hhi : hundred.hi = 100 := rfl
  rcases hp with ⟨hp | hp,-⟩ <;>
  · have hm := IntRect.mem_points.mp hp
    simp only at hm
    omega

theorem movedDifference_build : ∃ r, movedDifference.build = some r ∧
    (∀ p, ∃ answer, r.containsPoint p = some answer ∧
      (answer = true ↔ p ∈ movedDifference.points)) ∧
    (∃ rects, r.rects = some rects ∧ Tiles rects movedDifference.points) ∧
    SmallestAround r.bounds movedDifference.points :=
  Expr.build_correct movedDifference fits_movedDifference

theorem unite_squares_eq_iff :
    ∃ r q, (Expr.unite (.rect ⟨0, 0, 4, 4⟩) (.rect ⟨2, 2, 4, 4⟩)).build = some r ∧
      (Expr.unite (.rect ⟨2, 2, 4, 4⟩) (.rect ⟨0, 0, 4, 4⟩)).build = some q ∧
      (r = q ↔ ∀ p, r.containsPoint p = q.containsPoint p) ∧
      (∃ A, r.shape = shape A) ∧ ∃ B, q.shape = shape B :=
  Expr.build_eq_iff _ _ fits_squares ⟨fits_squares.2,fits_squares.1⟩
    fun _ _ => ⟨trivial,trivial⟩

theorem movedDifference_contains_intersects : ∃ r q, movedDifference.build = some r ∧
    (Expr.rect ⟨0, 0, 4, 4⟩).build = some q ∧
    (∃ answer, r.contains q = some answer ∧
      (answer = true ↔ (Expr.rect ⟨0, 0, 4, 4⟩).points ⊆ movedDifference.points)) ∧
    ∃ answer, r.intersects q = some answer ∧
      (answer = true ↔ (movedDifference.points ∩ (Expr.rect ⟨0, 0, 4, 4⟩).points).Nonempty) :=
  Expr.contains_intersects_correct movedDifference _ fits_movedDifference
    fits_squares.1 ⟨⟨0,0⟩,IntRect.mem_points.mpr (by decide)⟩

end

end QPlusWeb.Regions
