import QPlusWeb.RegionBounds
import QPlusWeb.RegionCompare

/-!
# The algebra of regions

Every region that is built from rectangles by the four operations stands for the set
of points that the operations of set algebra give, including the results of the fast paths.
-/
namespace QPlusWeb.Regions

open StepFunctions List IntRect Set

/-- A rectangle without area, whose corner is a pair of `int`s. -/
structure IntRect.Flat (r : IntRect) : Prop where
  width : r.width = 0
  height : r.height = 0
  x_mem : minInt ≤ r.x ∧ r.x ≤ maxInt
  y_mem : minInt ≤ r.y ∧ r.y ≤ maxInt

/-- The region is the shape of the points of `A`, with the bounds of these points. -/
structure Represents (w : Window) (r : Region) (A : Scanlines) : Prop where
  shape_eq : r.shape = shape A
  box : InBox w (points A)
  bounds : (A.steps = [] ∧ r.bounds.Flat) ∨ Encloses r.bounds (points A)

theorem IntRect.flat_zero : IntRect.Flat ⟨0,0,0,0⟩ :=
  ⟨rfl,rfl,⟨by decide,by decide⟩,⟨by decide,by decide⟩⟩

/-! ### Rectangles and their points -/

section
variable {r q : IntRect} {S T : Set IntPoint} {w : Window}

theorem Encloses.containsPoint_of_mem (h : Encloses r S) (hS : InBox w S) {p : IntPoint}
    (hp : p ∈ S) : r.containsPoint p := by
  have hm := h.covers hp
  rw [IntRect.mem_points] at hm
  simp only [containsPoint,decide_eq_true_eq,h.maxX_eq hS,h.maxY_eq hS]
  omega

theorem Encloses.contains_iff (hr : Encloses r S) (hq : Encloses q T) (hS : InBox w S)
    (hT : InBox w T) : r.contains q ↔ q.points ⊆ r.points := by
  simp only [IntRect.contains,decide_eq_true_eq,hr.maxX_eq hS,hr.maxY_eq hS,hq.maxX_eq hT,
    hq.maxY_eq hT]
  constructor
  · intro h p hp
    rw [IntRect.mem_points] at *
    omega
  · intro h
    have hs := hq.sides_le (hq.covers.trans h)
    omega

theorem IntRect.Flat.not_contains (hr : r.Flat) (hq : Encloses q T) (hT : InBox w T) :
    r.contains q = false := by
  have hm : r.maxX = r.x := by
    rw [maxX,hr.width,Int.add_zero,Window.int32_eq hr.x_mem.1 hr.x_mem.2]
  have he := hq.not_isEmpty
  simp only [IntRect.isEmpty,decide_eq_false_iff_not] at he
  simp only [IntRect.contains,decide_eq_false_iff_not,hm,hq.maxX_eq hT]
  omega

theorem IntRect.Flat.isEmpty (hr : r.Flat) : r.isEmpty := by
  simp [IntRect.isEmpty,hr.width]

theorem Encloses.disjoint_of_not_intersects (hr : Encloses r S) (hq : Encloses q T)
    (hS : InBox w S) (hT : InBox w T) (h : ¬r.intersects q) : Disjoint S T := by
  simp only [intersects,hr.not_isEmpty,hq.not_isEmpty,hr.maxX_eq hS,hr.maxY_eq hS,
    hq.maxX_eq hT,hq.maxY_eq hT,Bool.not_false,Bool.true_and,decide_eq_true_eq] at h
  refine Set.disjoint_left.mpr fun p hp hp' => ?_
  have hmem := hr.covers hp
  have hmem' := hq.covers hp'
  rw [IntRect.mem_points] at hmem hmem'
  omega

/-- A coordinate of one of two sets is one of their union. -/
theorem exists_mem_union {f : IntPoint → ℤ} {a b c : ℤ} (hS : ∃ p ∈ S, f p = a)
    (hT : ∃ p ∈ T, f p = b) (hc : c = a ∨ c = b) : ∃ p ∈ S ∪ T, f p = c := by
  obtain ⟨p,hp,rfl⟩ := hS
  obtain ⟨p',hp',rfl⟩ := hT
  rcases hc with rfl | rfl
  · exact ⟨p,.inl hp,rfl⟩
  · exact ⟨p',.inr hp',rfl⟩

theorem Encloses.unite (hr : Encloses r S) (hq : Encloses q T) (hS : InBox w S)
    (hT : InBox w T) : Encloses (r.unite q) (S ∪ T) := by
  obtain ⟨⟨hx,hX⟩,hy,hY⟩ := hr.sides_mem hS
  obtain ⟨⟨hx',hX'⟩,hy',hY'⟩ := hq.sides_mem hT
  have hs : ∀ {a b c d : ℤ}, a ∈ w → b ∈ w → c ∈ w → d ∈ w →
      int32 (max a b-min c d) = max a b-min c d := by
    intro a b c d ha hb hc hd
    refine Window.int32_sub (w := w) ?_ ?_
    · rw [Window.mem_iff] at *
      omega
    · rw [Window.mem_iff] at *
      omega
  have hu : r.unite q = ⟨min r.x q.x,min r.y q.y,max (r.x+r.width) (q.x+q.width)-min r.x q.x,
      max (r.y+r.height) (q.y+q.height)-min r.y q.y⟩ := by
    simp [IntRect.unite,hr.not_isEmpty,hq.not_isEmpty,hr.maxX_eq hS,hr.maxY_eq hS,hq.maxX_eq hT,
      hq.maxY_eq hT,hs hX hX' hx hx',hs hY hY' hy hy']
  rw [hu]
  refine ⟨?_,?_,?_,?_,?_⟩
  · rintro p (hp | hp)
    · have hm := hr.covers hp
      rw [IntRect.mem_points] at *
      simp only
      omega
    · have hm := hq.covers hp
      rw [IntRect.mem_points] at *
      simp only
      omega
  · exact exists_mem_union hr.left hq.left (min_choice _ _)
  · exact exists_mem_union hr.right hq.right (by simp only; omega)
  · exact exists_mem_union hr.top hq.top (min_choice _ _)
  · exact exists_mem_union hr.bottom hq.bottom (by simp only; omega)

end

/-! ### Regions with one rectangle -/

section
variable {A : Scanlines} {r : IntRect}

/-- A shape of at most two spans and two segments is one rectangle. -/
theorem exists_pair_of_length {s : Segments ℤ} (hs : s ≠ .empty) (h : s.positions.length ≤ 2) :
    ∃ x₀ x₁, s.positions = [x₀,x₁] := by
  have hne : s.positions ≠ [] := fun hn => hs (Segments.positions_eq_nil.mp hn)
  have he := s.even_positions
  match hl : s.positions with
  | [] => exact absurd hl hne
  | [x] => simp [hl] at he
  | [x₀,x₁] => exact ⟨x₀,x₁,rfl⟩
  | _::_::_::_ => simp [hl] at h

theorem exists_rect_of_isRect (hA : A.steps ≠ []) (h : (shape A).isRect) :
    ∃ x₀ x₁ y₀ y₁ : ℤ, ∀ p, p ∈ points A ↔ (x₀ ≤ p.x ∧ p.x < x₁) ∧ y₀ ≤ p.y ∧ p.y < y₁ := by
  simp only [Shape.isRect,shape,shapeOf,length_spansFrom,decide_eq_true_eq] at h
  obtain ⟨hspans,hsegs⟩ := h
  have hred := A.reduced
  have hc := A.closed
  have hi := A.increasing
  cases hs : A.steps with
  | nil => exact absurd hs hA
  | cons a rest =>
    rw [hs] at hred hc hspans hsegs hi
    cases rest with
    | nil => exact absurd hc hred.1
    | cons b rest =>
      have hrest : rest = [] := by simpa using hspans
      subst hrest
      have hb : b.2 = .empty := hc
      obtain ⟨x₀,x₁,hp⟩ : ∃ x₀ x₁, a.2.positions = [x₀,x₁] := by
        refine exists_pair_of_length hred.1 ?_
        simp only [segmentsOfRows_cons,length_append] at hsegs
        omega
      refine ⟨x₀,x₁,a.1,b.1,fun p => ?_⟩
      have hv : A.value p.y = if p.y < a.1 then .empty else if p.y < b.1 then a.2 else .empty := by
        rw [Steps.value,hs,valueAt,valueAt,valueAt,hb]
      rw [mem_points,hv]
      by_cases ha : p.y < a.1
      · simp [ha]
      · by_cases hb' : p.y < b.1
        · rw [if_neg ha,if_pos hb',Segments.value_eq_inside,hp,inside_cons_cons]
          by_cases hx : p.x < x₀
          · simp [not_le.mpr hx]
          · simp [hb',not_lt.mp ha]
        · simp [hb']

theorem Encloses.steps_ne_nil (h : Encloses r (points A)) : A.steps ≠ [] :=
  fun hn => h.nonempty.ne_empty (points_of_steps_nil hn)

/-- The bounds of a region with one rectangle are the region. -/
theorem Encloses.points_subset_of_isRect (h : Encloses r (points A))
    (hrect : (shape A).isRect) : r.points ⊆ points A := by
  obtain ⟨x₀,x₁,y₀,y₁,hpts⟩ := exists_rect_of_isRect h.steps_ne_nil hrect
  obtain ⟨p₁,hp₁,hl⟩ := h.left
  obtain ⟨p₂,hp₂,hrt⟩ := h.right
  obtain ⟨p₃,hp₃,ht⟩ := h.top
  obtain ⟨p₄,hp₄,hb⟩ := h.bottom
  rw [hpts] at hp₁ hp₂ hp₃ hp₄
  intro p hp
  rw [IntRect.mem_points] at hp
  rw [hpts]
  omega

end

/-! ### Queries -/

section
variable {w : Window} {r q : Region} {A B : Scanlines}

theorem Represents.nonempty_or (h : Represents w r A) :
    (points A = ∅ ∧ r.bounds.isEmpty) ∨ Encloses r.bounds (points A) :=
  h.bounds.imp_left fun ⟨hs,hf⟩ => ⟨points_of_steps_nil hs,hf.isEmpty⟩

theorem Represents.containsPoint (h : Represents w r A) (p : IntPoint) :
    r.containsPoint p = some ((A.value p.y).value p.x) := by
  have hs : Region.spansContain r.shape p r.shape.spans = some ((A.value p.y).value p.x) := by
    rw [h.shape_eq]
    exact spansContain_eq p [] A.steps rfl
  rw [Region.containsPoint,hs]
  rcases h.nonempty_or with ⟨hempty,-⟩ | he
  · have hf : (A.value p.y).value p.x = false := by
      have hn : p ∉ points A := by simp [hempty]
      exact Bool.eq_false_of_not_eq_true hn
    rw [hf,ite_self]
  · cases hv : (A.value p.y).value p.x with
    | false => rw [ite_self]
    | true => rw [he.containsPoint_of_mem h.box hv]; rfl

theorem Represents.rects (h : Represents w r A) : r.rects = some (rectsOf A.steps) := by
  rw [Region.rects,h.shape_eq]
  exact spanRects_eq h.box.rowsIn [] A.steps rfl

section
variable (hr : Represents w r A) (hq : Represents w q B)
include hr hq

theorem Represents.disjoint_of_not_intersects
    (h : ¬r.bounds.intersects q.bounds) : Disjoint (points A) (points B) := by
  rcases hr.nonempty_or with ⟨he,-⟩ | hA
  · rw [he]
    exact empty_disjoint _
  rcases hq.nonempty_or with ⟨he,-⟩ | hB
  · rw [he]
    exact disjoint_empty _
  · exact hA.disjoint_of_not_intersects hB hr.box hq.box h

theorem Represents.contains (hB : Encloses q.bounds (points B)) :
    ∃ answer, r.contains q = some answer ∧ (answer ↔ points B ⊆ points A) := by
  rw [Region.contains]
  rcases hr.bounds with ⟨hs,hflat⟩ | hA
  · rw [hflat.not_contains hB hq.box,points_of_steps_nil hs,subset_empty_iff]
    exact ⟨false,rfl,iff_of_false Bool.false_ne_true hB.nonempty.ne_empty⟩
  have hc := hA.contains_iff hB hr.box hq.box
  by_cases hb : r.bounds.contains q.bounds
  · have hf : ∀ p ∈ points B, ∀ row ∈ A.steps.head?, row.1 ≤ p.y := by
      intro p hp row hrow
      obtain ⟨p',hp',ht⟩ := hA.top
      have hh := head_le_of_mem hp' row hrow
      have hm := hc.mp hb (hB.covers hp)
      rw [IntRect.mem_points] at hm
      omega
    obtain ⟨answer,ha,hfound⟩ := finds_contains.compareShapes A B fun _ => hf
    rw [hb,hr.shape_eq,hq.shape_eq]
    refine ⟨answer,ha,?_⟩
    rw [← Bool.not_eq_false]
    refine (not_congr (hfound.trans ?_)).trans not_not
    simp [Set.not_subset,mem_points,and_comm]
  · rw [Bool.eq_false_of_not_eq_true hb]
    exact ⟨false,rfl,iff_of_false Bool.false_ne_true fun hsub =>
      hb (hc.mpr (hB.least (hsub.trans hA.covers)))⟩

theorem Represents.intersects :
    ∃ answer, r.intersects q = some answer ∧ (answer ↔ (points A ∩ points B).Nonempty) := by
  rw [Region.intersects]
  by_cases hb : r.bounds.intersects q.bounds
  · obtain ⟨answer,ha,hf⟩ := finds_intersects.compareShapes A B nofun
    rw [hb,hr.shape_eq,hq.shape_eq]
    refine ⟨answer,ha,hf.trans ?_⟩
    simp only [Bool.and_eq_true]
    rfl
  · rw [Bool.eq_false_of_not_eq_true hb,(hr.disjoint_of_not_intersects hq hb).inter_eq]
    exact ⟨false,rfl,iff_of_false Bool.false_ne_true Set.not_nonempty_empty⟩

end

end

/-! ### Operations -/

/-- The region stands for a set of points. -/
def Denotes (w : Window) (r : Region) (S : Set IntPoint) : Prop :=
  ∃ A, Represents w r A ∧ points A = S

section Operations
variable {w : Window} {r q : Region} {A B : Scanlines} {S T : Set IntPoint}
  {op : Shape.Operation} {f : Bool → Bool → Bool}

theorem denotes_empty (w : Window) : Denotes w .empty ∅ := by
  refine ⟨Steps.const Segments.empty,⟨rfl,?_,.inl ⟨rfl,flat_zero⟩⟩,points_const⟩
  rw [points_const]
  exact fun p hp => hp.elim

/-- The general part of an operation whose bounds are computed from the new shape. -/
theorem denotes_operation (h : Computes op f) (hs : op.trySimpleOperation = fun _ _ => none)
    (hr : Represents w r A) (hq : Represents w q B)
    (hS : points (combineScanlines f h.outside A B) = S) (hbox : InBox w S) :
    ∃ u, ((op.shapeOperation r.shape q.shape).bind fun shape =>
        shape.bounds.bind fun bounds => some (⟨bounds,shape⟩ : Region)) = some u ∧
      Denotes w u S := by
  subst hS
  have hm : op.shapeOperation r.shape q.shape =
      some (shape (combineScanlines f h.outside A B)) := by
    rw [Shape.Operation.shapeOperation,hs,hr.shape_eq,hq.shape_eq]
    exact h.mergeSpans_shape hr.box.rowsIn hq.box.rowsIn
  rw [hm,Option.bind_some]
  by_cases hC : (combineScanlines f h.outside A B).steps = []
  · have hb : (shape (combineScanlines f h.outside A B)).bounds = some ⟨0,0,0,0⟩ := by
      rw [shape,hC]
      rfl
    rw [hb,Option.bind_some]
    exact ⟨_,rfl,_,⟨rfl,hbox,.inl ⟨hC,flat_zero⟩⟩,rfl⟩
  · obtain ⟨bounds,hb,he⟩ := bounds_shape hbox.rowsIn hC
    rw [hb,Option.bind_some]
    exact ⟨_,rfl,_,⟨rfl,hbox,.inr he⟩,rfl⟩

theorem Denotes.intersect (hr : Denotes w r S) (hq : Denotes w q T) :
    ∃ u, r.intersect q = some u ∧ Denotes w u (S ∩ T) := by
  obtain ⟨A,hr,rfl⟩ := hr
  obtain ⟨B,hq,rfl⟩ := hq
  rw [Region.intersect]
  rcases hr.nonempty_or with ⟨he,hisEmpty⟩ | hA
  · rw [if_pos hisEmpty,he,empty_inter]
    exact ⟨r,rfl,A,hr,he⟩
  rw [if_neg (by simp [hA.not_isEmpty])]
  by_cases hi : r.bounds.intersects q.bounds
  · have hp : points (combineScanlines and computes_intersect.outside A B) =
        points A ∩ points B := by
      ext p
      rw [mem_points_combine,Bool.and_eq_true_iff]
      rfl
    rw [hi]
    exact denotes_operation computes_intersect rfl hr hq hp (hr.box.mono Set.inter_subset_left)
  · rw [Bool.eq_false_of_not_eq_true hi,(hr.disjoint_of_not_intersects hq hi).inter_eq]
    exact ⟨_,rfl,denotes_empty w⟩

theorem Denotes.subtract (hr : Denotes w r S) (hq : Denotes w q T) :
    ∃ u, r.subtract q = some u ∧ Denotes w u (S \ T) := by
  obtain ⟨A,hr,rfl⟩ := hr
  obtain ⟨B,hq,rfl⟩ := hq
  rw [Region.subtract]
  rcases hr.nonempty_or with ⟨he,hisEmpty⟩ | hA
  · rw [if_pos hisEmpty,he,empty_sdiff]
    exact ⟨r,rfl,A,hr,he⟩
  rw [if_neg (by simp [hA.not_isEmpty])]
  rcases hq.nonempty_or with ⟨he,hisEmpty⟩ | hB
  · rw [Region.isEmpty,if_pos hisEmpty,he,sdiff_empty]
    exact ⟨r,rfl,A,hr,rfl⟩
  rw [Region.isEmpty,if_neg (by simp [hB.not_isEmpty])]
  by_cases hi : r.bounds.intersects q.bounds
  · have hp : points (combineScanlines (fun p q => p && !q) computes_subtract.outside A B) =
        points A \ points B := by
      ext p
      rw [mem_points_combine,Bool.and_eq_true_iff,Bool.not_eq_true',← Bool.not_eq_true]
      rfl
    rw [hi]
    exact denotes_operation computes_subtract rfl hr hq hp (hr.box.mono sdiff_subset)
  · rw [Bool.eq_false_of_not_eq_true hi,(hr.disjoint_of_not_intersects hq hi).sdiff_eq_left]
    exact ⟨r,rfl,A,hr,rfl⟩

theorem Represents.unionShapes (hr : Represents w r A) (hq : Represents w q B)
    (hB : Encloses q.bounds (points B)) :
    ∃ u, ((Shape.unionOperation.shapeOperation r.shape q.shape).bind fun shape =>
        some (⟨r.bounds.unite q.bounds,shape⟩ : Region)) = some u ∧
      Denotes w u (points A ∪ points B) := by
  rcases hr.bounds with ⟨hsteps,hf⟩ | hA
  · have hs : Shape.unionOperation.shapeOperation r.shape q.shape = some q.shape := by
      rw [hr.shape_eq,shape,hsteps]
      rfl
    have hu : r.bounds.unite q.bounds = q.bounds := by
      simp [IntRect.unite,hB.not_isEmpty,hf.isEmpty]
    rw [hs,hu,points_of_steps_nil hsteps,empty_union]
    exact ⟨q,rfl,B,hq,rfl⟩
  · have hp : points (combineScanlines or computes_union.outside A B) = points A ∪ points B := by
      ext p
      rw [mem_points_combine,Bool.or_eq_true_iff]
      rfl
    have hne : (shape A).isEmpty = false := by
      obtain ⟨first,rest,hsteps⟩ := exists_cons_of_ne_nil hA.steps_ne_nil
      rw [shape,hsteps]
      rfl
    have hm : Shape.unionOperation.shapeOperation r.shape q.shape =
        some (shape (combineScanlines or computes_union.outside A B)) := by
      have hs : Shape.unionOperation.trySimpleOperation (shape A) (shape B) = none := by
        simp [Shape.unionOperation,hne]
      rw [Shape.Operation.shapeOperation,hr.shape_eq,hq.shape_eq,hs]
      exact computes_union.mergeSpans_shape hr.box.rowsIn hq.box.rowsIn
    rw [hm]
    refine ⟨_,rfl,_,⟨rfl,?_,.inr ?_⟩,hp⟩
    · rw [hp]
      exact hr.box.union hq.box
    · rw [hp]
      exact hA.unite hB hr.box hq.box

theorem Denotes.unite (hr : Denotes w r S) (hq : Denotes w q T) :
    ∃ u, r.unite q = some u ∧ Denotes w u (S ∪ T) := by
  obtain ⟨A,hr,rfl⟩ := hr
  obtain ⟨B,hq,rfl⟩ := hq
  rw [Region.unite]
  rcases hq.nonempty_or with ⟨he,hi⟩ | hB
  · rw [Region.isEmpty,if_pos hi,he,union_empty]
    exact ⟨r,rfl,A,hr,rfl⟩
  rw [Region.isEmpty,if_neg (by simp [hB.not_isEmpty])]
  have hu := hr.unionShapes hq hB
  by_cases hf : (r.isRect && r.bounds.contains q.bounds)
  · rw [if_pos hf]
    obtain ⟨hrect,hc⟩ := Bool.and_eq_true_iff.mp hf
    rcases hr.bounds with ⟨-,hflat⟩ | hA
    · rw [hflat.not_contains hB hq.box] at hc
      cases hc
    · have hs : points B ⊆ points A := by
        refine hB.covers.trans (((hA.contains_iff hB hr.box hq.box).mp hc).trans ?_)
        exact hA.points_subset_of_isRect (hr.shape_eq ▸ hrect)
      rw [union_eq_left.mpr hs]
      exact ⟨r,rfl,A,hr,rfl⟩
  rw [if_neg hf]
  by_cases hsnd : (q.isRect && q.bounds.contains r.bounds)
  · rw [if_pos hsnd]
    obtain ⟨hrect,hc⟩ := Bool.and_eq_true_iff.mp hsnd
    have hs : points A ⊆ points B := by
      rcases hr.bounds with ⟨hsteps,-⟩ | hA
      · rw [points_of_steps_nil hsteps]
        exact empty_subset _
      · refine hA.covers.trans (((hB.contains_iff hA hq.box hr.box).mp hc).trans ?_)
        exact hB.points_subset_of_isRect (hq.shape_eq ▸ hrect)
    rw [union_eq_right.mpr hs]
    exact ⟨q,rfl,B,hq,rfl⟩
  rw [if_neg hsnd]
  cases hrect : r.isRect with
  | true => exact hu
  | false =>
    obtain ⟨answer,ha,hs⟩ := hr.contains hq hB
    rw [Bool.not_false,if_pos rfl,ha]
    cases answer with
    | true =>
      rw [union_eq_left.mpr (hs.mp rfl)]
      exact ⟨r,rfl,A,hr,rfl⟩
    | false => exact hu

end Operations

/-! ### Translation -/

section
variable {w : Window} {r : Region} {A : Scanlines} {S : Set IntPoint} {offset : IntSize}
  {p : IntPoint} {b : IntRect}

/-- The set moved by an offset. -/
def translated (S : Set IntPoint) (offset : IntSize) : Set IntPoint :=
  {p | (⟨p.x - offset.width, p.y - offset.height⟩ : IntPoint) ∈ S}

theorem mem_translated : p ∈ translated S offset ↔
    (⟨p.x-offset.width,p.y-offset.height⟩ : IntPoint) ∈ S :=
  Iff.rfl

/-- A row moved to the right. -/
def moveRow (d : ℤ) (s : Segments ℤ) : Segments ℤ := Steps.move s d id Function.injective_id

theorem positions_moveRow (d : ℤ) (s : Segments ℤ) :
    (moveRow d s).positions = s.positions.map (· + d) := by
  simp [moveRow,Steps.move,Segments.positions]

theorem moveRow_injective (d : ℤ) : Function.Injective (moveRow d) := by
  intro s t h
  have hp := congrArg Segments.positions h
  rw [positions_moveRow,positions_moveRow] at hp
  refine Segments.positions_inj.mp (map_injective_iff.mpr ?_ hp)
  exact add_left_injective d

def moveScanlines (A : Scanlines) (offset : IntSize) : Scanlines :=
  Steps.move A offset.height (moveRow offset.width) (moveRow_injective offset.width)

theorem points_moveScanlines (A : Scanlines) (offset : IntSize) :
    points (moveScanlines A offset) = translated (points A) offset := by
  ext p
  have hv : (moveScanlines A offset).value p.y =
      moveRow offset.width (A.value (p.y-offset.height)) := Steps.value_move ..
  rw [mem_points,hv,moveRow,Steps.value_move]
  rfl

theorem segments_move (rows : List Row) (offset : IntSize) :
    segmentsOfRows (rows.map fun u => (u.1+offset.height,moveRow offset.width u.2)) =
      (segmentsOfRows rows).map (· + offset.width) := by
  induction rows with
  | nil => rfl
  | cons row rows ih =>
    rw [map_cons,segmentsOfRows_cons,ih,positions_moveRow,segmentsOfRows_cons,map_append]

theorem spansFrom_move (rows : List Row) (offset : IntSize) (n : ℕ) :
    spansFrom n (rows.map fun u => (u.1+offset.height,moveRow offset.width u.2)) =
      (spansFrom n rows).map fun span => ⟨span.y+offset.height,span.segmentIndex⟩ := by
  induction rows generalizing n with
  | nil => rfl
  | cons row rows ih =>
    rw [map_cons,spansFrom,ih,positions_moveRow,length_map]
    rfl

theorem exists_row_of_span {rows : List Row} {n : ℕ} {span : Span} (h : span ∈ spansFrom n rows) :
    ∃ row ∈ rows, span.y = row.1 := by
  induction rows generalizing n with
  | nil => cases h
  | cons row rows ih =>
    rcases mem_cons.mp h with rfl | h
    · exact ⟨row,mem_cons_self,rfl⟩
    · obtain ⟨row',hr',hy⟩ := ih h
      exact ⟨row',mem_cons_of_mem _ hr',hy⟩

/-- Inside the window, translating a shape moves its rows. -/
theorem translate_shape (h : RowsIn w (moveScanlines A offset).steps) :
    (shape A).translate offset = shape (moveScanlines A offset) := by
  have hsegs : (segmentsOfRows A.steps).map (fun x => int32 (x+offset.width)) =
      segmentsOfRows (moveScanlines A offset).steps := by
    rw [moveScanlines,Steps.move,segments_move]
    refine map_congr_left fun x hx => ?_
    obtain ⟨row,hrow,hx⟩ := mem_segmentsOfRows.mp hx
    have hm : x+offset.width ∈ (moveRow offset.width row.2).positions := by
      rw [positions_moveRow]
      exact mem_map_of_mem hx
    exact Window.int32_mem ((h _ (mem_map_of_mem hrow)).2 _ hm)
  have hs : (spansFrom 0 A.steps).map (fun span =>
      (⟨int32 (span.y+offset.height),span.segmentIndex⟩ : Span)) =
      spansFrom 0 (moveScanlines A offset).steps := by
    rw [moveScanlines,Steps.move,spansFrom_move]
    refine map_congr_left fun span hspan => ?_
    obtain ⟨row,hrow,hy⟩ := exists_row_of_span hspan
    have hm : span.y+offset.height ∈ w := hy ▸ (h _ (mem_map_of_mem hrow)).1
    rw [Window.int32_mem hm]
  rw [Shape.translate,shape,shape,shapeOf,shapeOf,hsegs,hs]

theorem int32_range (n : ℤ) : minInt ≤ int32 n ∧ int32 n ≤ maxInt := by
  have hl := Int.le_bmod (x := n) (m := 2^32) (by decide)
  have hh := Int.bmod_lt (x := n) (m := 2^32) (by decide)
  unfold minInt maxInt int32
  omega

theorem mem_translated_add (hp : p ∈ S) :
    (⟨p.x+offset.width,p.y+offset.height⟩ : IntPoint) ∈ translated S offset := by
  rw [mem_translated]
  simpa using hp

theorem Encloses.translated (h : Encloses b S) (offset : IntSize) :
    Encloses {b with x := b.x+offset.width, y := b.y+offset.height} (translated S offset) where
  covers p hp := by
    have hm := IntRect.mem_points.mp (h.covers (mem_translated.mp hp))
    rw [IntRect.mem_points]
    simp only at hm ⊢
    omega
  left := by
    obtain ⟨p,hp,hx⟩ := h.left
    exact ⟨_,mem_translated_add hp,by simp [hx]⟩
  right := by
    obtain ⟨p,hp,hx⟩ := h.right
    exact ⟨_,mem_translated_add hp,by simp only; omega⟩
  top := by
    obtain ⟨p,hp,hy⟩ := h.top
    exact ⟨_,mem_translated_add hp,by simp [hy]⟩
  bottom := by
    obtain ⟨p,hp,hy⟩ := h.bottom
    exact ⟨_,mem_translated_add hp,by simp only; omega⟩

theorem Encloses.move (h : Encloses b S) (hb : InBox w (Regions.translated S offset)) :
    Encloses (b.move offset) (Regions.translated S offset) := by
  have hm := h.translated offset
  have hs := hm.sides_mem hb
  rwa [IntRect.move,Window.int32_mem hs.1.1,Window.int32_mem hs.2.1]

theorem Denotes.translate (hr : Denotes w r S) (hb : InBox w (translated S offset)) :
    Denotes w (r.translate offset) (translated S offset) := by
  obtain ⟨A,hr,rfl⟩ := hr
  have hp := points_moveScanlines A offset
  rw [← hp] at hb ⊢
  refine ⟨moveScanlines A offset,⟨?_,hb,?_⟩,rfl⟩
  · rw [Region.translate,hr.shape_eq]
    exact translate_shape hb.rowsIn
  · rcases hr.bounds with ⟨hs,hf⟩ | he
    · refine .inl ⟨?_,hf.width,hf.height,int32_range _,int32_range _⟩
      exact congrArg (List.map _) hs
    · rw [hp] at hb ⊢
      exact .inr (he.move hb)

end

end QPlusWeb.Regions
