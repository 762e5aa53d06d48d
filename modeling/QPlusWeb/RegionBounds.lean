import QPlusWeb.RegionPoints

/-!
# The bounds of a shape

The loop of `bounds` finds the smallest and the largest x coordinate. A span in the
middle of a shape can be empty, and then the loop reads a segment of each neighbour,
which does not change the result.
-/
namespace QPlusWeb.Regions

open StepFunctions List

/-- The rectangle encloses a nonempty set of points and touches it on every side. -/
structure Encloses (r : IntRect) (S : Set IntPoint) : Prop where
  covers : S ⊆ r.points
  left : ∃ p ∈ S, p.x = r.x
  right : ∃ p ∈ S, p.x + 1 = r.x + r.width
  top : ∃ p ∈ S, p.y = r.y
  bottom : ∃ p ∈ S, p.y + 1 = r.y + r.height

namespace Encloses
variable {r q : IntRect} {S T : Set IntPoint} {w : Window}

section
variable (h : Encloses r S)
include h

theorem nonempty : S.Nonempty := by
  obtain ⟨p,hp,-⟩ := h.left
  exact ⟨p,hp⟩

/-- No side is outside of another rectangle around the points. -/
theorem sides_le (hq : S ⊆ q.points) : (q.x ≤ r.x ∧ r.x+r.width ≤ q.x+q.width) ∧
    q.y ≤ r.y ∧ r.y+r.height ≤ q.y+q.height := by
  obtain ⟨p₁,hp₁,hl⟩ := h.left
  obtain ⟨p₂,hp₂,hr⟩ := h.right
  obtain ⟨p₃,hp₃,htop⟩ := h.top
  obtain ⟨p₄,hp₄,hb⟩ := h.bottom
  have h₁ := hq hp₁
  have h₂ := hq hp₂
  have h₃ := hq hp₃
  have h₄ := hq hp₄
  rw [IntRect.mem_points] at *
  omega

/-- The rectangle is the smallest one. -/
theorem least (hq : S ⊆ q.points) : r.points ⊆ q.points := by
  have hs := h.sides_le hq
  intro p hp
  rw [IntRect.mem_points] at *
  omega

theorem unique (hq : Encloses q S) : r = q := by
  have hle := h.sides_le hq.covers
  have hge := hq.sides_le h.covers
  cases r
  cases q
  simp only [IntRect.mk.injEq] at *
  omega

theorem not_isEmpty : r.isEmpty = false := by
  obtain ⟨p,hp⟩ := h.nonempty
  have hm := h.covers hp
  rw [IntRect.mem_points] at hm
  simp only [IntRect.isEmpty,decide_eq_false_iff_not]
  omega

theorem sides_mem (hS : InBox w S) : (r.x ∈ w ∧ r.x+r.width ∈ w) ∧ r.y ∈ w ∧ r.y+r.height ∈ w := by
  have hb : S ⊆ (⟨w.lo,w.lo,w.hi-w.lo,w.hi-w.lo⟩ : IntRect).points := by
    intro p hp
    have hm := hS p hp
    rw [IntRect.mem_points]
    simp only
    omega
  have hs := h.sides_le hb
  obtain ⟨p,hp⟩ := h.nonempty
  have hm := h.covers hp
  rw [IntRect.mem_points] at hm
  simp only [Window.mem_iff] at hs ⊢
  omega

theorem maxX_eq (hS : InBox w S) : r.maxX = r.x+r.width := Window.int32_mem (h.sides_mem hS).1.2

theorem maxY_eq (hS : InBox w S) : r.maxY = r.y+r.height := Window.int32_mem (h.sides_mem hS).2.2

end

end Encloses

section Bounds
variable {A : Scanlines} {pre rest rows : List Row} {row first : Row} {w : Window} {x : ℤ}

theorem segments_shape (A : Scanlines) : (shape A).segments = segmentsOfRows A.steps := rfl

/-- In front of a row that is not the first there are segments. -/
theorem segments_pos (hA : A.steps = pre++row::rest) :
    0 < (segmentsOfRows pre).length+row.2.positions.length := by
  have hr := A.reduced
  rw [hA] at hr
  cases pre with
  | nil =>
    have hne : row.2.positions ≠ [] := fun h => hr.1 (Segments.positions_eq_nil.mp h)
    have := length_pos_iff.mpr hne
    omega
  | cons first pre =>
    have hne : first.2.positions ≠ [] := fun h => hr.1 (Segments.positions_eq_nil.mp h)
    have := length_pos_iff.mpr hne
    rw [segmentsOfRows_cons,length_append]
    omega

theorem le_of_pairwise {l : List ℤ} (h : l.Pairwise (· < ·)) {i j : ℕ} (hij : i ≤ j) {a b : ℤ}
    (ha : l[i]? = some a) (hb : l[j]? = some b) : a ≤ b := by
  obtain ⟨hi,rfl⟩ := List.getElem?_eq_some_iff.mp ha
  obtain ⟨hj,rfl⟩ := List.getElem?_eq_some_iff.mp hb
  rcases hij.eq_or_lt with rfl | hlt
  · exact le_rfl
  · exact (pairwise_iff_getElem.mp h i j hi hj hlt).le

/-- The reads of the loop: the bounds of the row, or two other segments of the shape if it is
empty. -/
theorem boundsLoop_reads (hA : A.steps = pre++row::rest)
    (hn : (segmentsOfRows pre).length ≠ (segmentsOfRows A.steps).length) :
    ∃ a b, (segmentsOfRows A.steps)[(segmentsOfRows pre).length]? = some a ∧
      (segmentsOfRows A.steps)[(segmentsOfRows (pre++[row])).length-1]? = some b ∧
      ∀ x ∈ row.2.positions, a ≤ x ∧ x ≤ b := by
  have hs : segmentsOfRows A.steps =
      segmentsOfRows pre++(row.2.positions++segmentsOfRows rest) := by
    rw [hA,segmentsOfRows_append,segmentsOfRows_cons]
  have hl : (segmentsOfRows A.steps).length = (segmentsOfRows pre).length +
      (row.2.positions.length+(segmentsOfRows rest).length) := by
    rw [hs,length_append,length_append]
  have hidx := length_segmentsOfRows_concat pre row
  obtain ⟨a,ha⟩ : ∃ a, (segmentsOfRows A.steps)[(segmentsOfRows pre).length]? = some a :=
    ⟨_,getElem?_eq_getElem (by omega)⟩
  obtain ⟨b,hb⟩ : ∃ b, (segmentsOfRows A.steps)[(segmentsOfRows (pre++[row])).length-1]? = some b :=
    ⟨_,getElem?_eq_getElem (by omega)⟩
  refine ⟨a,b,ha,hb,fun x hx => ?_⟩
  obtain ⟨i,hi⟩ := getElem?_of_mem hx
  have hr := (List.getElem?_eq_some_iff.mp hi).1
  rw [hs,getElem?_append_right le_rfl,Nat.sub_self,getElem?_append_left (by omega)] at ha
  rw [hidx,hs,getElem?_append_right (by omega),getElem?_append_left (by omega),
    show (segmentsOfRows pre).length+row.2.positions.length-1-(segmentsOfRows pre).length =
      row.2.positions.length-1 by omega] at hb
  exact ⟨le_of_pairwise row.2.positions_pairwise (Nat.zero_le _) ha hi,
    le_of_pairwise row.2.positions_pairwise (by omega) hi hb⟩

/-- The loop returns a lower and an upper bound of the coordinates, each of which is one of
them or the value that it began with. -/
theorem boundsLoop_spec (pre rest : List Row) (hA : A.steps = pre++rest) (minX maxX : ℤ) :
    ∃ m M, (shape A).boundsLoop (spansAt pre rest) minX maxX = some (m,M) ∧ m ≤ minX ∧ maxX ≤ M ∧
      (∀ row ∈ rest, ∀ x ∈ row.2.positions, m ≤ x ∧ x ≤ M) ∧
      (m = minX ∨ m ∈ segmentsOfRows A.steps) ∧ (M = maxX ∨ M ∈ segmentsOfRows A.steps) := by
  induction rest generalizing pre minX maxX with
  | nil => exact ⟨minX,maxX,rfl,le_rfl,le_rfl,by simp,.inl rfl,.inl rfl⟩
  | cons row rest ih =>
    cases rest with
    | nil =>
      have hrow : row.2 = .empty := finalValue_rest hA
      refine ⟨minX,maxX,rfl,le_rfl,le_rfl,fun r hr x hx => ?_,.inl rfl,.inl rfl⟩
      rw [mem_singleton.mp hr,hrow] at hx
      cases hx
    | cons next rest =>
      have hnext : A.steps = (pre++[row])++next::rest := by simp [hA]
      have hi := length_segmentsOfRows_concat pre row
      rw [spansAt_cons,spansAt_cons,Shape.boundsLoop,← spansAt_cons,segments_shape]
      by_cases hn : (segmentsOfRows pre).length = (segmentsOfRows A.steps).length
      · have hrow : row.2.positions = [] := by
          rw [hA,segmentsOfRows_append,segmentsOfRows_cons,length_append,length_append] at hn
          exact length_eq_zero_iff.mp (by omega)
        obtain ⟨m,M,hl,hm,hM,hrows,hm',hM'⟩ := ih (pre++[row]) hnext minX maxX
        refine ⟨m,M,by rw [if_pos hn,hl],hm,hM,fun r hr x hx => ?_,hm',hM'⟩
        rcases mem_cons.mp hr with rfl | hr
        · rw [hrow] at hx
          cases hx
        · exact hrows r hr x hx
      · have hp := segments_pos hA
        obtain ⟨k,hk⟩ := row.2.even_positions
        obtain ⟨a,b,ha,hb,hab⟩ := boundsLoop_reads hA hn
        obtain ⟨m,M,hl,hm,hM,hrows,hm',hM'⟩ :=
          ih (pre++[row]) hnext (if a < minX then a else minX) (if b > maxX then b else maxX)
        refine ⟨m,M,?_,?_,?_,fun r hr x hx => ?_,?_,?_⟩
        · have hg : ¬((segmentsOfRows (pre++[row])).length = 0 ∨
              (segmentsOfRows (pre++[row])).length-1 = (segmentsOfRows pre).length) := by
            omega
          rw [if_neg hn,if_neg hg,ha,hb]
          exact hl
        · split at hm <;> omega
        · split at hM <;> omega
        · rcases mem_cons.mp hr with rfl | hr
          · have hx' := hab x hx
            constructor
            · split at hm <;> omega
            · split at hM <;> omega
          · exact hrows r hr x hx
        · have hmem := mem_of_getElem? ha
          split at hm'
          · exact .inr (hm'.elim (· ▸ hmem) id)
          · exact hm'
        · have hmem := mem_of_getElem? hb
          split at hM'
          · exact .inr (hM'.elim (· ▸ hmem) id)
          · exact hM'

theorem mem_segmentsOfRows : x ∈ segmentsOfRows rows ↔ ∃ row ∈ rows, x ∈ row.2.positions :=
  mem_flatMap

theorem mem_positions {s : Segments ℤ} : x ∈ s.positions ↔ ∃ u ∈ s.steps, u.1 = x := mem_map

/-- A coordinate that no other one is left of has a point, and one that no other one is right of has a
point before it. -/
theorem exists_mem_of_outermost (hx : x ∈ segmentsOfRows A.steps) :
    ((∀ row ∈ A.steps, ∀ z ∈ row.2.positions, x ≤ z) → ∃ p ∈ points A, p.x = x) ∧
      ((∀ row ∈ A.steps, ∀ z ∈ row.2.positions, z ≤ x) → ∃ p ∈ points A, p.x+1 = x) := by
  obtain ⟨row,hr,hx⟩ := mem_segmentsOfRows.mp hx
  obtain ⟨u,hu,rfl⟩ := mem_positions.mp hx
  have hp : ∀ z, row.2.value z ≠ false → ⟨z,row.1⟩ ∈ points A := by
    intro z hz
    rw [mem_points,Steps.value_of_mem hr]
    exact Bool.eq_true_of_not_eq_false hz
  constructor
  · exact fun h => ⟨_,hp _ (Steps.value_ne_of_least hu fun v hv =>
      h row hr v.1 (mem_positions.mpr ⟨v,hv,rfl⟩)),rfl⟩
  · exact fun h => ⟨_,hp _ (Steps.value_ne_of_greatest hu fun v hv =>
      h row hr v.1 (mem_positions.mpr ⟨v,hv,rfl⟩)),by simp⟩

/-- The row of a point, and segments of it on both sides. -/
theorem exists_row_of_mem {p : IntPoint} (hp : p ∈ points A) :
    ∃ row ∈ A.steps, (∃ z ∈ row.2.positions, z ≤ p.x) ∧ ∃ z ∈ row.2.positions, p.x < z := by
  rcases valueAt_eq_or_mem Segments.empty A.steps p.y with he | ⟨row,hr,hval⟩
  · exact absurd he (value_ne_of_mem hp)
  · have hval : A.value p.y = row.2 := hval
    have hne : row.2.value p.x ≠ false := by
      rw [← hval,mem_points.mp hp]
      decide
    obtain ⟨⟨u,hu,hle⟩,v,hv,hlt⟩ := Steps.exists_steps_of_value_ne hne
    exact ⟨row,hr,⟨u.1,mem_positions.mpr ⟨u,hu,rfl⟩,hle⟩,v.1,mem_positions.mpr ⟨v,hv,rfl⟩,hlt⟩

theorem getLast_spansFrom {n : ℕ} (hr : rows ≠ []) (hs : spansFrom n rows ≠ []) :
    ((spansFrom n rows).getLast hs).y = (rows.getLast hr).1 := by
  induction rows generalizing n with
  | nil => exact absurd rfl hr
  | cons row rows ih =>
    cases rows with
    | nil => rfl
    | cons next rest =>
      exact ih (cons_ne_nil _ _) (cons_ne_nil _ _)

theorem le_getLast_of_increasing (h : Increasing rows) (hrows : rows ≠ []) :
    ∀ row ∈ rows, row.1 ≤ (rows.getLast hrows).1 := by
  intro row hr
  obtain ⟨pre,last,rfl⟩ := (eq_nil_or_concat' rows).resolve_left hrows
  rw [getLast_concat]
  rcases mem_append.mp hr with hr | hr
  · exact ((pairwise_append.mp h).2.2 row hr last (by simp)).le
  · rw [mem_singleton.mp hr]

/-- The sides of a shape, as `bounds` computes them, enclose its points. -/
theorem encloses_sides {m M : ℤ} {last : Row} (hf : first ∈ A.steps)
    (hl : last ∈ A.steps) (hlow : ∀ row ∈ A.steps, first.1 ≤ row.1)
    (hh : ∀ row ∈ A.steps, row.1 ≤ last.1) (hm : m ∈ segmentsOfRows A.steps)
    (hM : M ∈ segmentsOfRows A.steps)
    (hmM : ∀ row ∈ A.steps, ∀ x ∈ row.2.positions, m ≤ x ∧ x ≤ M) :
    Encloses ⟨m,first.1,M-m,last.1-first.1⟩ (points A) := by
  refine ⟨fun p hp => ?_,?_,?_,?_,?_⟩
  · obtain ⟨row,hr,⟨z,hz,hle⟩,z',hz',hlt⟩ := exists_row_of_mem hp
    obtain ⟨⟨u,hu,hu'⟩,v,hv,hv'⟩ := Steps.exists_steps_of_value_ne (value_ne_of_mem hp)
    have h₁ := (hmM row hr z hz).1
    have h₂ := (hmM row hr z' hz').2
    have h₃ := hlow u hu
    have h₄ := hh v hv
    rw [IntRect.mem_points]
    simp only
    omega
  · exact (exists_mem_of_outermost hm).1 fun row hr z hz => (hmM row hr z hz).1
  · obtain ⟨p,hp,hx⟩ := (exists_mem_of_outermost hM).2 fun row hr z hz => (hmM row hr z hz).2
    exact ⟨p,hp,by simp only; omega⟩
  · obtain ⟨x,hx⟩ := exists_mem_of_value_ne (Steps.value_ne_of_least hf hlow)
    exact ⟨_,hx,rfl⟩
  · obtain ⟨x,hx⟩ := exists_mem_of_value_ne (Steps.value_ne_of_greatest hl hh)
    exact ⟨_,hx,by simp only; omega⟩

theorem bounds_eq (hsteps : A.steps = first::rest) (hA : A.steps ≠ []) :
    (shape A).bounds = ((shape A).boundsLoop (spansAt [] A.steps) maxInt minInt).bind fun r =>
      if r.1 ≤ r.2 ∧ first.1 ≤ (A.steps.getLast hA).1 then
        some ⟨r.1,first.1,int32 (r.2-r.1),int32 ((A.steps.getLast hA).1-first.1)⟩
      else none := by
  have hs : (shape A).spans = ⟨first.1,0⟩::spansFrom (0+first.2.positions.length) rest := by
    rw [shape,hsteps]
    rfl
  have hl : ((⟨first.1,0⟩::spansFrom (0+first.2.positions.length) rest).getLast
      (cons_ne_nil _ _)).y = (A.steps.getLast hA).1 := by
    simp only [hsteps]
    exact getLast_spansFrom (n := 0) (cons_ne_nil first rest) (cons_ne_nil _ _)
  rw [Shape.bounds]
  split
  · next hn =>
      rw [hs] at hn
      cases hn
  · next f r hc =>
      obtain ⟨rfl,rfl⟩ := List.cons.inj (hs.symm.trans hc)
      rw [hl,← hs]
      rfl

/-- `bounds` of a shape with points encloses them. -/
theorem bounds_shape (hw : RowsIn w A.steps) (hA : A.steps ≠ []) :
    ∃ r, (shape A).bounds = some r ∧ Encloses r (points A) := by
  obtain ⟨first,rest,hs⟩ := exists_cons_of_ne_nil hA
  have hf : first ∈ A.steps := by simp [hs]
  have hl := getLast_mem hA
  have hred := A.reduced
  rw [hs] at hred
  have hlow : ∀ row ∈ A.steps, first.1 ≤ row.1 := fun row hr =>
    A.increasing.head_le (by simp [hs]) hr
  have hh := le_getLast_of_increasing A.increasing hA
  obtain ⟨m,M,hloop,-,-,hmM,hm,hM⟩ := boundsLoop_spec [] A.steps rfl maxInt minInt
  obtain ⟨x,hx⟩ : ∃ x, x ∈ first.2.positions := by
    refine exists_mem_of_ne_nil _ fun hn => hred.1 ?_
    exact Segments.positions_eq_nil.mp hn
  have hmx := hmM first hf x hx
  have hxw := (hw first hf).2 x hx
  have hxmem : x ∈ segmentsOfRows A.steps := mem_segmentsOfRows.mpr ⟨first,hf,hx⟩
  have hlo := w.lo_ge
  have hhi := w.hi_le
  rw [Window.mem_iff] at hxw
  -- The values that the loop begins with are bounds of all coordinates themselves.
  have hm : m ∈ segmentsOfRows A.steps := by
    rcases hm with heq | hm
    · have hmx' : m = x := by omega
      exact hmx' ▸ hxmem
    · exact hm
  have hM : M ∈ segmentsOfRows A.steps := by
    rcases hM with heq | hM
    · have hMx' : M = x := by omega
      exact hMx' ▸ hxmem
    · exact hM
  have hmem : ∀ z ∈ segmentsOfRows A.steps, z ∈ w := by
    intro z hz
    obtain ⟨row,hr,hz⟩ := mem_segmentsOfRows.mp hz
    exact (hw row hr).2 z hz
  refine ⟨_,?_,encloses_sides hf hl hlow hh hm hM hmM⟩
  rw [bounds_eq hs hA,hloop,Option.bind_some,if_pos ⟨by simp only; omega,hlow _ hl⟩,
    Window.int32_sub (hmem M hM) (hmem m hm),
    Window.int32_sub (hw _ hl).1 (hw first hf).1]

end Bounds

end QPlusWeb.Regions
