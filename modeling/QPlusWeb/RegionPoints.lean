import QPlusWeb.RegionShapes
import Mathlib.Order.CompletePartialOrder

/-!
# The points of a shape

What the scans over a shape compute: the test for a point, the list of rectangles
and the bounds. The points of a shape are those at which its function of y and x is true.
-/
namespace QPlusWeb.Regions

open StepFunctions Steps Region Option

/-- The points of the scanlines. -/
def points (A : Scanlines) : Set IntPoint := {p | (A.value p.y).value p.x = true}

/-- The points of a rectangle without overflow. -/
def IntRect.points (r : IntRect) : Set IntPoint :=
  {p | (r.x ≤ p.x ∧ p.x < r.x + r.width) ∧ r.y ≤ p.y ∧ p.y < r.y + r.height}

theorem IntRect.mem_points {r : IntRect} {p : IntPoint} :
    p ∈ r.points ↔ (r.x ≤ p.x ∧ p.x < r.x+r.width) ∧ r.y ≤ p.y ∧ p.y < r.y+r.height :=
  Iff.rfl

section
variable {A B : Scanlines} {f : Bool → Bool → Bool} {p : IntPoint}

theorem mem_points : p ∈ points A ↔ (A.value p.y).value p.x := Iff.rfl

theorem mem_points_combine (hf : f false false = false) : p ∈ points (combineScanlines f hf A B) ↔
      f ((A.value p.y).value p.x) ((B.value p.y).value p.x) := by
  rw [mem_points,combineScanlines,value_combine,combineRows,value_combine]

theorem value_ne_of_mem (hp : p ∈ points A) : A.value p.y ≠ .empty := by
  intro he
  rw [mem_points,he] at hp
  cases hp

theorem exists_mem_of_value_ne {y : ℤ} (h : A.value y ≠ .empty) : ∃ x,
    (⟨x,y⟩ : IntPoint) ∈ points A := by
  obtain ⟨x,hx⟩ := exists_value_ne h
  exact ⟨x,Bool.eq_true_of_not_eq_false hx⟩

theorem points_const : points (const Segments.empty) = ∅ := by
  ext p
  simp [points]

theorem points_of_steps_nil (h : A.steps = []) : points A = ∅ := by
  have hA : A = const Segments.empty := ext h
  rw [hA,points_const]

end

/-! ### The window of a set of points -/

/-- The points lie in the window, as the left upper corners of pixels. -/
def InBox (w : Window) (S : Set IntPoint) : Prop :=
  ∀ p ∈ S, (w.lo ≤ p.x ∧ p.x < w.hi) ∧ w.lo ≤ p.y ∧ p.y < w.hi

section
variable {w : Window} {S T : Set IntPoint} {A : Scanlines}

theorem InBox.mono (h : InBox w T) (hST : S ⊆ T) : InBox w S := fun p hp => h p (hST hp)

theorem InBox.union (hS : InBox w S) (hT : InBox w T) : InBox w (S ∪ T) :=
  fun p hp => hp.elim (hS p) (hT p)

/-- The coordinates of a shape lie in the window of its points: at each of them
something begins or ends. -/
theorem InBox.rowsIn (h : InBox w (points A)) : RowsIn w A.steps := by
  intro row hr
  constructor
  · obtain ⟨y,hne,hy⟩ := exists_value_ne_of_mem hr
    obtain ⟨x,hx⟩ := exists_mem_of_value_ne hne
    obtain ⟨-,hlo,hhi⟩ := h _ hx
    rw [Window.mem_iff]
    simp only at hlo hhi
    omega
  · intro x hx
    obtain ⟨u,hu,rfl⟩ := List.mem_map.mp hx
    obtain ⟨z,hne,hz⟩ := exists_value_ne_of_mem hu
    have hm : (⟨z,row.1⟩ : IntPoint) ∈ points A := by
      rw [mem_points,value_of_mem hr]
      exact Bool.eq_true_of_not_eq_false hne
    obtain ⟨⟨hlo,hhi⟩,-⟩ := h _ hm
    rw [Window.mem_iff]
    simp only at hlo hhi
    omega

end

/-! ### The test for a point -/

theorem segmentsContain_eq_inside (x : ℤ) :
    ∀ {l : List ℤ}, Even l.length → segmentsContain x l = inside l x
  | [], _ => rfl
  | [_], h => absurd h (by simp)
  | left::right::l, h => by
    rw [segmentsContain,inside_cons_cons,segmentsContain_eq_inside x (even_of_even_cons_cons h)]

section
variable {A : Scanlines} {pre rest : List Row}

theorem finalValue_rest {row : Row} (hA : A.steps = pre++row::rest) :
    finalValue row.2 rest = .empty := by
  have hc := A.closed
  rwa [hA,finalValue_append] at hc

theorem spansContain_eq (p : IntPoint) (pre rest : List Row) (hA : A.steps = pre++rest) :
    spansContain (shape A) p (spansAt pre rest) =
      some ((valueAt Segments.empty rest p.y).value p.x) := by
  induction rest generalizing pre with
  | nil => rfl
  | cons row rest ih =>
    cases rest with
    | nil =>
      have hr : row.2 = .empty := finalValue_rest hA
      simp [spansAt,spansFrom,spansContain,valueAt,hr]
    | cons next rest =>
      have hn : A.steps = (pre++[row])++next::rest := by simp [hA]
      have ht := ih (pre++[row]) hn
      rw [spansAt_cons] at ht ⊢
      rw [spansAt_cons,spansContain]
      by_cases hb : p.y < row.1
      · rw [if_pos hb,valueAt,if_pos hb,value_const]
      · rw [if_neg hb,valueAt,if_neg hb,ht]
        by_cases hin : p.y < next.1
        · rw [if_neg (not_le.mpr hin),← spansAt_cons,segmentsOf_steps hA]
          simp only [bind_eq_bind,bind_some,valueAt,if_pos hin,
            value_const,segmentsContain_eq_inside p.x row.2.even_positions,
            ← Segments.value_eq_inside]
          cases row.2.value p.x <;> rfl
        · rw [if_pos (not_lt.mp hin),valueAt,if_neg hin,valueAt,if_neg hin]

end

/-! ### The list of rectangles -/

/-- The rectangles of one row. -/
def rowRects (y height : ℤ) : List ℤ → List IntRect
  | x :: maxX :: rest => ⟨x, y, maxX - x, height⟩ :: rowRects y height rest
  | _ => []

def rectsOf : List Row → List IntRect
  | row :: next :: rest =>
    rowRects row.1 (next.1 - row.1) row.2.positions ++ rectsOf (next :: rest)
  | _ => []

section Rects
variable {A : Scanlines} {pre rest rows : List Row} {w : Window} {y height : ℤ} {q : IntRect}

theorem segmentRects_eq : ∀ {l : List ℤ}, (∀ x ∈ l, x ∈ w) →
    segmentRects y height l = rowRects y height l
  | [], _ => rfl
  | [_], _ => rfl
  | x::maxX::l, h => by
    have hs :
    int32 (maxX-x) = maxX-x := Window.int32_sub (h maxX (by simp)) (h x List.mem_cons_self)
    have hr : ∀ z ∈ l, z ∈ w := fun z hz => h z (by simp [hz])
    rw [segmentRects,rowRects,hs,segmentRects_eq hr]

theorem spanRects_eq (hw : RowsIn w A.steps) (pre rest : List Row) (hA : A.steps = pre++rest) :
    spanRects (shape A) (spansAt pre rest) = some (rectsOf rest) := by
  induction rest generalizing pre with
  | nil => rfl
  | cons row rest ih =>
    cases rest with
    | nil => rfl
    | cons next rest =>
      have hn : A.steps = (pre++[row])++next::rest := by simp [hA]
      have hr := hw row (by simp [hA])
      have hsub : int32 (next.1-row.1) = next.1-row.1 :=
        Window.int32_sub (hw next (by simp [hA])).1 hr.1
      have hs := segmentsOf_steps hA
      have ht := ih (pre++[row]) hn
      rw [spansAt_cons] at hs ht
      rw [spansAt_cons,spansAt_cons,spanRects,hs,bind_eq_bind,
        bind_some,ht,hsub,segmentRects_eq hr.2]
      rfl

/-- A rectangle of a row has the row's height, and its sides are boundaries of the row. -/
theorem mem_rowRects : ∀ {l : List ℤ}, l.Pairwise (· < ·) → q ∈ rowRects y height l →
    q.y = y ∧ q.height = height ∧ 0 < q.width ∧ ∀ z, (∀ x ∈ l, z < x) → z < q.x
  | x::maxX::l, h, hq => by
    obtain ⟨hx,hr⟩ := List.pairwise_cons.mp h
    rcases List.mem_cons.mp hq with rfl | hq
    · have hlt := hx maxX List.mem_cons_self
      exact ⟨rfl,rfl,by simp only; omega,fun z hz => hz x List.mem_cons_self⟩
    · obtain ⟨hy,hht,hw,hl⟩ := mem_rowRects hr.of_cons hq
      exact ⟨hy,hht,hw,fun z hz => hl z fun x' hx' => hz x' (by simp [hx'])⟩

theorem rowRects_covers (y height x : ℤ) : ∀ {l : List ℤ}, l.Pairwise (· < ·) → Even l.length →
    ((∃ q ∈ rowRects y height l, q.x ≤ x ∧ x < q.x+q.width) ↔ inside l x)
  | [], _, _ => by simp [rowRects]
  | [_], _, h => absurd h (by simp)
  | left::right::l, hl, h => by
    have he := even_of_even_cons_cons h
    obtain ⟨hleft,hrest⟩ := List.pairwise_cons.mp hl
    obtain ⟨hr,hl'⟩ := List.pairwise_cons.mp hrest
    have hlt := hleft right List.mem_cons_self
    have hb : x < right → inside l x = false := fun hx =>
      inside_of_lt fun z hz => hx.trans (hr z hz)
    rw [rowRects,inside_cons_cons]
    simp only [List.mem_cons,exists_eq_or_imp,rowRects_covers y height x hl' he]
    by_cases hx : x < right
    · rw [hb hx]
      by_cases hx' : x < left
      · simp
      · simp [not_lt.mp hx']
    · have hx' : ¬x < left := by omega
      simp [hx,hx']

theorem rowRects_points (p : IntPoint) (s : Segments ℤ) :
    (∃ q ∈ rowRects y height s.positions, p ∈ q.points) ↔
      (y ≤ p.y ∧ p.y < y+height) ∧ s.value p.x := by
  have hc := rowRects_covers y height p.x s.positions_pairwise s.even_positions
  rw [Segments.value_eq_inside,← hc]
  constructor
  · rintro ⟨q,hq,hx,hy⟩
    obtain ⟨rfl,rfl,-⟩ := mem_rowRects s.positions_pairwise hq
    exact ⟨hy,q,hq,hx⟩
  · rintro ⟨hy,q,hq,hx⟩
    obtain ⟨rfl,rfl,-⟩ := mem_rowRects s.positions_pairwise hq
    exact ⟨q,hq,hx,hy⟩

theorem rowRects_pairwise : ∀ {l : List ℤ}, l.Pairwise (· < ·) →
    (rowRects y height l).Pairwise fun q q' => q.x+q.width ≤ q'.x
  | [], _ => .nil
  | [_], _ => .nil
  | left::right::l, hl => by
    obtain ⟨-,hrest⟩ := List.pairwise_cons.mp hl
    obtain ⟨hr,hl'⟩ := List.pairwise_cons.mp hrest
    refine .cons (fun q hq => ?_) (rowRects_pairwise hl')
    have hlow := (mem_rowRects hl' hq).2.2.2 right hr
    simp only
    omega

theorem mem_rectsOf (h : Increasing rows) (hq : q ∈ rectsOf rows) :
    0 < q.width ∧ 0 < q.height ∧ ∀ z, (∀ row ∈ rows, z ≤ row.1) → z ≤ q.y := by
  induction rows with
  | nil => cases hq
  | cons row rows ih =>
    cases rows with
    | nil => cases hq
    | cons next rest =>
      obtain ⟨hrow,hr⟩ := List.pairwise_cons.mp h
      have hlt := hrow next List.mem_cons_self
      rcases List.mem_append.mp hq with hq | hq
      · obtain ⟨hy,hht,hw,-⟩ := mem_rowRects row.2.positions_pairwise hq
        refine ⟨hw,by omega,fun z hz => ?_⟩
        rw [hy]
        exact hz row List.mem_cons_self
      · obtain ⟨hw,hht,hl⟩ := ih hr hq
        exact ⟨hw,hht,fun z hz => hl z (List.forall_mem_cons.mp hz).2⟩

theorem rectsOf_covers (p : IntPoint) (h : Increasing rows)
    (hc : finalValue Segments.empty rows = .empty) :
    (∃ q ∈ rectsOf rows, p ∈ q.points) ↔ (valueAt Segments.empty rows p.y).value p.x := by
  induction rows with
  | nil => simp [rectsOf,valueAt]
  | cons row rows ih =>
    cases rows with
    | nil =>
      have hr : row.2 = .empty := hc
      simp [rectsOf,valueAt,hr]
    | cons next rest =>
      obtain ⟨hr,hrest⟩ := List.pairwise_cons.mp h
      have hlt := hr next List.mem_cons_self
      have hs : (∃ q ∈ rectsOf (row::next::rest), p ∈ q.points) ↔
          (∃ q ∈ rowRects row.1 (next.1-row.1) row.2.positions, p ∈ q.points) ∨
            ∃ q ∈ rectsOf (next::rest), p ∈ q.points := by
        simp [rectsOf,or_and_right,exists_or]
      rw [hs,rowRects_points,ih hrest hc]
      by_cases hn : p.y < next.1
      · simp only [valueAt,if_pos hn,value_const,Bool.false_eq_true,or_false]
        by_cases hy : p.y < row.1
        · simp [hy]
        · simp [hy,hn,not_lt.mp hy]
      · have hy : ¬p.y < row.1 := by omega
        simp [valueAt,hn,hy]

theorem rectsOf_pairwise (h : Increasing rows) :
    (rectsOf rows).Pairwise fun q q' => Disjoint q.points q'.points := by
  induction rows with
  | nil => exact .nil
  | cons row rows ih =>
    cases rows with
    | nil => exact .nil
    | cons next rest =>
      obtain ⟨hrow,hrest⟩ := List.pairwise_cons.mp h
      refine List.pairwise_append.mpr ⟨?_,ih hrest,fun q hq q' hq' => ?_⟩
      · refine (rowRects_pairwise row.2.positions_pairwise).imp fun {q q'} hle => ?_
        refine Set.disjoint_left.mpr fun p hp hp' => ?_
        rw [IntRect.mem_points] at hp hp'
        omega
      · obtain ⟨hy,hht,-⟩ := mem_rowRects row.2.positions_pairwise hq
        have hl := (mem_rectsOf hrest hq').2.2 next.1 fun r hr => by
          rcases List.mem_cons.mp hr with rfl | hr
          · exact le_rfl
          · exact ((List.pairwise_cons.mp hrest).1 r hr).le
        refine Set.disjoint_left.mpr fun p hp hp' => ?_
        rw [IntRect.mem_points] at hp hp'
        omega

end Rects

end QPlusWeb.Regions
