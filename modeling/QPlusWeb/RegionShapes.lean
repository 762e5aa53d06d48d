import QPlusWeb.Boundaries
import QPlusWeb.Region
import Mathlib.Tactic.Linarith

/-!
# Shapes as nested step functions

A shape stands for a step function of the y coordinate whose values are step
functions of the x coordinate. The flat vectors of a shape are the rows of that function one
behind the other. Merging two shapes combines the two functions, first in every row
and then over the rows.
-/
namespace QPlusWeb.Regions

open StepFunctions List Option

/-- A y coordinate and the x coordinates from there on. -/
abbrev Row := ℤ × Segments ℤ

/-- The rows of a shape. -/
abbrev Scanlines := Steps ℤ (Segments.empty : Segments ℤ)

/-! ### Coordinates without overflow -/

/-- The coordinates between `lo` and `hi`, whose differences are values of `int`. -/
structure Window where
  lo : ℤ
  hi : ℤ
  lo_ge : minInt ≤ lo
  hi_le : hi ≤ maxInt
  diff_le : hi - lo ≤ maxInt

namespace Window
variable {w : Window} {a b : ℤ}

instance : Membership ℤ Window where
  mem w a := w.lo ≤ a ∧ a ≤ w.hi

theorem mem_iff : a ∈ w ↔ w.lo ≤ a ∧ a ≤ w.hi := Iff.rfl

theorem int32_eq {n : ℤ} (hlo : minInt ≤ n) (hhi : n ≤ maxInt) : int32 n = n := by
  unfold minInt at hlo
  unfold maxInt at hhi
  rw [int32,Int.bmod_eq_of_le] <;> omega

theorem int32_mem (ha : a ∈ w) : int32 a = a := int32_eq (w.lo_ge.trans ha.1) (ha.2.trans w.hi_le)

theorem int32_sub (ha : a ∈ w) (hb : b ∈ w) : int32 (a-b) = a-b := by
  have hd := w.diff_le
  rw [mem_iff] at ha hb
  refine int32_eq ?_ (by omega)
  unfold minInt
  unfold maxInt at hd
  omega

end Window

/-! ### Flat shapes -/

/-- The spans of rows whose segments begin at an index. -/
def spansFrom (n : ℕ) : List Row → List Span
  | [] => []
  | row :: rows => ⟨row.1, n⟩ :: spansFrom (n + row.2.positions.length) rows

def segmentsOfRows (rows : List Row) : List ℤ := rows.flatMap fun row => row.2.positions

def shapeOf (rows : List Row) : Shape := ⟨segmentsOfRows rows, spansFrom 0 rows⟩

section Flat
variable {rows pre post : List Row} {row : Row} {s : Segments ℤ} {y : ℤ} {n : ℕ}

@[simp] theorem segmentsOfRows_append (pre post : List Row) :
    segmentsOfRows (pre++post) = segmentsOfRows pre++segmentsOfRows post :=
  flatMap_append

@[simp] theorem segmentsOfRows_cons (row : Row) (rows : List Row) :
    segmentsOfRows (row::rows) = row.2.positions++segmentsOfRows rows :=
  flatMap_cons

theorem length_segmentsOfRows_concat (pre : List Row) (row : Row) :
    (segmentsOfRows (pre++[row])).length = (segmentsOfRows pre).length+row.2.positions.length := by
  simp [segmentsOfRows]

theorem spansFrom_append (n : ℕ) (pre post : List Row) : spansFrom n (pre++post) =
      spansFrom n pre++spansFrom (n+(segmentsOfRows pre).length) post := by
  induction pre generalizing n with
  | nil => rfl
  | cons row pre ih =>
    rw [cons_append,spansFrom,spansFrom,ih,segmentsOfRows_cons,length_append,
      cons_append,Nat.add_assoc]

theorem length_spansFrom (n : ℕ) (rows : List Row) : (spansFrom n rows).length = rows.length := by
  induction rows generalizing n with
  | nil => rfl
  | cons row rows ih => rw [spansFrom,length_cons,ih,length_cons]

/-- The segments of a span are the positions of its row. -/
theorem segmentsOf_shapeOf (hc : finalValue Segments.empty (pre++row::post) = .empty) :
    (shapeOf (pre++row::post)).segmentsOf ⟨row.1,(segmentsOfRows pre).length⟩
      (spansFrom ((segmentsOfRows pre).length+row.2.positions.length) post) =
      some row.2.positions := by
  unfold Shape.segmentsOf
  simp only [shapeOf,segmentsOfRows_append,segmentsOfRows_cons,length_append]
  split
  · next hl =>
      have hn : row.2.positions = [] := length_eq_zero_iff.mp (by omega)
      rw [hn]
  · next hl =>
      cases post with
      | nil =>
        rw [finalValue_append] at hc
        have hr : row.2 = Segments.empty := hc
        rw [hr] at hl
        exact absurd rfl hl
      | cons next post =>
        simp only [spansFrom]
        rw [if_pos (by omega),drop_left,Nat.add_sub_cancel_left,take_left]

theorem canCoalesce_shapeOf (hr : rows ≠ []) :
    (shapeOf rows).canCoalesce s.positions = decide (finalValue Segments.empty rows = s) := by
  obtain ⟨pre,row,rfl⟩ := (eq_nil_or_concat' rows).resolve_left hr
  have hl : finalValue Segments.empty (pre++[row]) = row.2 := by
    rw [finalValue_append]
    rfl
  rw [hl,Shape.canCoalesce]
  simp only [shapeOf,spansFrom_append,spansFrom,getLast?_concat,Nat.zero_add,
    segmentsOfRows_append,drop_left]
  simp only [segmentsOfRows,flatMap_cons,flatMap_nil,append_nil]
  exact decide_eq_decide.mpr Segments.positions_inj

/-- A span that does not repeat the last one is appended. -/
theorem appendSpan_shapeOf (rows : List Row)
    (hne : rows ≠ [] → finalValue Segments.empty rows ≠ s) :
    (shapeOf rows).appendSpan y s.positions = shapeOf (rows++[(y,s)]) := by
  have hn : (shapeOf rows).canCoalesce s.positions = false := by
    by_cases hr : rows = []
    · rw [hr]
      rfl
    · rw [canCoalesce_shapeOf hr,decide_eq_false (hne hr)]
  rw [Shape.appendSpan,hn]
  simp [Shape.appendSpanAt,shapeOf,spansFrom_append,spansFrom,segmentsOfRows]

theorem appendSpans_shapeOf (hr : Reduced (finalValue Segments.empty rows) post)
    (hc : finalValue Segments.empty (pre++post) = .empty) :
    (shapeOf rows).appendSpans (shapeOf (pre++post))
      (spansFrom (segmentsOfRows pre).length post) = some (shapeOf (rows++post)) := by
  induction post generalizing rows pre with
  | nil => simp [spansFrom,Shape.appendSpans]
  | cons row post ih =>
    have hs : (shapeOf rows).appendSpan row.1 row.2.positions = shapeOf (rows++[row]) :=
      appendSpan_shapeOf rows fun _ => hr.1.symm
    have hrest : Reduced (finalValue Segments.empty (rows++[row])) post := by
      rw [finalValue_append]
      exact hr.2
    have hp : pre++row::post = (pre++[row])++post := by simp
    rw [spansFrom,Shape.appendSpans,segmentsOf_shapeOf hc,bind_eq_bind,
      bind_some,hs,← length_segmentsOfRows_concat,hp,ih hrest (hp ▸ hc)]
    simp

/-- The end of one pass of the outer loop adds a row if it changes something. -/
theorem addSpan_shapeOf {op : Shape.Operation} {s₁ s₂ : List ℤ}
    (hm : op.mergeSegments s₁ s₂ 0 = s.positions) (rows : List Row) :
    op.addSpan (shapeOf rows) y s₁ s₂ =
      shapeOf (rows++reduce (finalValue Segments.empty rows) [(y,s)]) := by
  rw [Shape.Operation.addSpan,hm]
  by_cases hs : s = finalValue Segments.empty rows
  · have hr : reduce (finalValue Segments.empty rows) [(y,s)] = [] := by simp [reduce,hs]
    rw [hr,append_nil]
    by_cases hrows : rows = []
    · subst hrows hs
      rfl
    · have hc : (shapeOf rows).appendSpan y s.positions = shapeOf rows := by
        rw [Shape.appendSpan,canCoalesce_shapeOf hrows,decide_eq_true hs.symm,if_pos rfl]
      rw [hc,ite_self]
  · have hr : reduce (finalValue Segments.empty rows) [(y,s)] = [(y,s)] := by
      simp [reduce,hs]
    rw [hr,← appendSpan_shapeOf rows fun _ => Ne.symm hs,if_pos]
    by_cases hrows : rows = []
    · subst hrows
      have hp : s.positions ≠ [] := fun h => hs (Segments.positions_eq_nil.mp h)
      simp [hp]
    · obtain ⟨row,rest,rfl⟩ := exists_cons_of_ne_nil hrows
      simp [Shape.isEmpty,shapeOf,spansFrom]

end Flat

/-! ### Merging -/

/-- The bits of the two insides. -/
def flagOf (p q : Bool) : ℕ := p.toNat + 2 * q.toNat

/-- The operation computes a connective. -/
structure Computes (op : Shape.Operation) (f : Bool → Bool → Bool) : Prop where
  code : ∀ p q, f p q = (decide (flagOf p q = op.opCode) != decide (0 = op.opCode))
  segments₁ : ∀ p, f p false = (op.shouldAddRemainingSegmentsFromSpan1 && p)
  segments₂ : ∀ q, f false q = (op.shouldAddRemainingSegmentsFromSpan2 && q)
  spans₁ : op.shouldAddRemainingSpansFromShape1 = op.shouldAddRemainingSegmentsFromSpan1
  spans₂ : op.shouldAddRemainingSpansFromShape2 = op.shouldAddRemainingSegmentsFromSpan2

theorem computes_union : Computes Shape.unionOperation or := by
  constructor <;> decide

theorem computes_intersect : Computes Shape.intersectOperation and := by
  constructor <;> decide

theorem computes_subtract : Computes Shape.subtractOperation fun p q => p && !q := by
  constructor <;> decide

section Merge
variable {op : Shape.Operation} {f : Bool → Bool → Bool} {w : Window} {rows : List Row} {c : Bool}

theorem Computes.outside (h : Computes op f) : f false false = false := by
  rw [h.segments₁,Bool.and_false]

theorem flagOf_xor_one (p q : Bool) : flagOf p q ^^^ 1 = flagOf (!p) q := by
  cases p <;> cases q <;> rfl

theorem flagOf_xor_two (p q : Bool) : flagOf p q ^^^ 2 = flagOf p (!q) := by
  cases p <;> cases q <;> rfl

theorem flagOf_inj {p q p' q' : Bool} (h : flagOf p q = flagOf p' q') : p = p' ∧ q = q' := by
  revert h
  cases p <;> cases q <;> cases p' <;> cases q' <;> decide

/-- A coordinate is emitted exactly if the value changes there. -/
theorem Computes.emit (h : Computes op f) {p q p' q' : Bool} (hne : ¬(p = p' ∧ q = q')) (x : ℤ) :
    op.emit (flagOf p q) (flagOf p' q') x = if f p' q' = f p q then [] else [x] := by
  have hf : flagOf p q ≠ flagOf p' q' := fun heq => hne (flagOf_inj heq)
  rw [Shape.Operation.emit,h.code,h.code]
  by_cases h₁ : flagOf p' q' = op.opCode
  · have h₂ : flagOf p q ≠ op.opCode := fun heq => hf (heq.trans h₁.symm)
    simp [h₁,h₂]
  · by_cases h₂ : flagOf p q = op.opCode
    · simp [h₁,h₂]
    · simp [h₁,h₂]

theorem toggles_emit {d : Bool} (x : ℤ) (l : List ℤ) (m : List (ℤ × Bool))
    (h : toggles d l = reduce d m) :
    toggles c ((if d = c then [] else [x])++l) = reduce c ((x,d)::m) := by
  rw [reduce]
  split
  · next heq => rw [← heq,nil_append,h]
  · next hne =>
      have hd : d = !c := Bool.eq_not_of_ne hne
      rw [singleton_append,toggles,← hd,h]

/-- What is left of one list when the other one has ended. -/
theorem reduce_remaining {p : Bool} {g : Bool → Bool} (hg : ∀ p, g p = (c && p)) (l : List ℤ) :
    reduce (g p) ((toggles p l).map fun u => (u.1,g u.2)) =
      toggles (g p) (if c && !l.isEmpty then l else []) := by
  cases c with
  | false =>
    have hf : ∀ p, g p = false := hg
    simp [hf,reduce_constant,toggles]
  | true =>
    have hs : ∀ p, g p = p := hg
    cases l with
    | nil => rfl
    | cons x l => simp [hs,reduce_of_reduced (reduced_toggles p (x::l))]

theorem mergeSegments_nil_left (op : Shape.Operation) (l : List ℤ) (flag : ℕ) :
    op.mergeSegments [] l flag =
      if op.shouldAddRemainingSegmentsFromSpan2 && !l.isEmpty then l else [] := by
  cases l <;> simp [Shape.Operation.mergeSegments]

theorem mergeSegments_nil_right (op : Shape.Operation) (l : List ℤ) (flag : ℕ) :
    op.mergeSegments l [] flag =
      if op.shouldAddRemainingSegmentsFromSpan1 && !l.isEmpty then l else [] := by
  cases l <;> simp [Shape.Operation.mergeSegments]

/-- The inner loop combines two lists of segments. -/
theorem Computes.mergeSegments (h : Computes op f) : ∀ {p q : Bool} (l₁ l₂ : List ℤ),
    (∀ x ∈ l₁, x ∈ w) → (∀ x ∈ l₂, x ∈ w) → finalValue p (toggles p l₁) = false →
    finalValue q (toggles q l₂) = false →
    toggles (f p q) (op.mergeSegments l₁ l₂ (flagOf p q)) =
      reduce (f p q) (combine f p q (toggles p l₁) (toggles q l₂))
  | p, q, [], l₂, _, _, hp, _ => by
    subst hp
    rw [mergeSegments_nil_left,toggles,combine_nil_left,reduce_remaining h.segments₂]
  | p, q, x₁::s₁, [], _, _, _, hq => by
    subst hq
    rw [mergeSegments_nil_right]
    rw [toggles.eq_1,combine_nil_right,reduce_remaining (g := (f · false)) h.segments₁]
  | p, q, x₁::s₁, x₂::s₂, hl₁, hl₂, hp, hq => by
    have hs : int32 (x₁-x₂) = x₁-x₂ :=
      Window.int32_sub (hl₁ x₁ mem_cons_self) (hl₂ x₂ mem_cons_self)
    have hs₁ : ∀ x ∈ s₁, x ∈ w := (forall_mem_cons.mp hl₁).2
    have hs₂ : ∀ x ∈ s₂, x ∈ w := (forall_mem_cons.mp hl₂).2
    rw [Shape.Operation.mergeSegments,hs]
    simp only [toggles]
    rw [combine]
    by_cases hlt : x₁ < x₂
    · rw [if_pos (by omega),if_pos hlt,flagOf_xor_one,h.emit (by simp)]
      exact toggles_emit x₁ _ _ (h.mergeSegments s₁ (x₂::s₂) hs₁ hl₂ hp hq)
    · by_cases heq : x₁ = x₂
      · rw [if_neg (by omega),if_pos (by omega),if_neg hlt,if_pos heq,flagOf_xor_one,
          flagOf_xor_two,h.emit (by simp),heq]
        exact toggles_emit x₂ _ _ (h.mergeSegments s₁ s₂ hs₁ hs₂ hp hq)
      · rw [if_neg (by omega),if_neg (by omega),if_neg hlt,if_neg heq,flagOf_xor_two,
          h.emit (by simp)]
        exact toggles_emit x₂ _ _ (h.mergeSegments (x₁::s₁) s₂ hl₁ hs₂ hp hq)
termination_by _ _ l₁ l₂ => l₁.length+l₂.length

/-- The coordinates of the rows lie in the window. -/
def RowsIn (w : Window) (rows : List Row) : Prop :=
  ∀ row ∈ rows, row.1 ∈ w ∧ ∀ x ∈ row.2.positions, x ∈ w

theorem RowsIn.finalValue (h : RowsIn w rows) {s : Segments ℤ}
    (hs : ∀ x ∈ s.positions, x ∈ w) : ∀ x ∈ (finalValue s rows).positions, x ∈ w := by
  induction rows generalizing s with
  | nil => exact hs
  | cons row rows ih =>
    exact ih (forall_mem_cons.mp h).2 (h row mem_cons_self).2

/-- Two rows combined by a connective. -/
abbrev combineRows (f : Bool → Bool → Bool) (hf : f false false = false) (s t : Segments ℤ) :
    Segments ℤ :=
  Steps.combine f hf s t

variable {s t : Segments ℤ} (h : Computes op f)

/-- The merged segments are the positions of the combined row. -/
theorem Computes.mergeSegments_positions (hs : ∀ x ∈ s.positions, x ∈ w)
    (ht : ∀ x ∈ t.positions, x ∈ w) :
    op.mergeSegments s.positions t.positions 0 = (combineRows f h.outside s t).positions := by
  have hm := h.mergeSegments (p := false) (q := false) s.positions t.positions hs ht
    (by rw [s.toggles_positions,s.closed]) (by rw [t.toggles_positions,t.closed])
  rw [s.toggles_positions,t.toggles_positions,h.outside] at hm
  rw [← map_fst_toggles false (op.mergeSegments _ _ _)]
  exact congrArg _ hm

theorem Computes.combineRows_empty_left (s : Segments ℤ) : combineRows f h.outside .empty s =
      if op.shouldAddRemainingSegmentsFromSpan2 then s else .empty := by
  refine Steps.ext_value fun x => ?_
  rw [combineRows,Steps.value_combine,Steps.value_const,h.segments₂]
  cases op.shouldAddRemainingSegmentsFromSpan2 <;> rfl

theorem Computes.combineRows_empty_right (s : Segments ℤ) : combineRows f h.outside s .empty =
      if op.shouldAddRemainingSegmentsFromSpan1 then s else .empty := by
  refine Steps.ext_value fun x => ?_
  rw [combineRows,Steps.value_combine,Steps.value_const,h.segments₁]
  cases op.shouldAddRemainingSegmentsFromSpan1 <;> rfl

theorem combineRows_empty (hf : f false false = false) : combineRows f hf .empty .empty = .empty :=
  Steps.combine_const f hf

/-- The rows that are left when one shape has ended: they are kept or vanish. -/
theorem reduce_remaining_rows {g : Segments ℤ → Segments ℤ}
    (hg : ∀ s, g s = if c then s else .empty) (hr : Reduced s rows) :
    reduce (g s) (rows.map fun u => (u.1,g u.2)) = if c && !rows.isEmpty then rows else [] := by
  cases c with
  | false =>
    have he : ∀ s, g s = .empty := hg
    simp [he,reduce_constant]
  | true =>
    have hs : ∀ s, g s = s := hg
    cases rows with
    | nil => rfl
    | cons row rows => simp [hs,reduce_of_reduced hr]

/-! ### The outer loop -/

variable {A B : Scanlines} {pre pre₁ pre₂ rest acc : List Row} {row : Row}

/-- The rows of a shape. -/
def shape (A : Scanlines) : Shape := shapeOf A.steps

/-- The spans of the rows behind `pre`. -/
def spansAt (pre rest : List Row) : List Span := spansFrom (segmentsOfRows pre).length rest

theorem spansAt_cons (pre : List Row) (row : Row) (rest : List Row) : spansAt pre (row::rest) =
      ⟨row.1,(segmentsOfRows pre).length⟩::spansAt (pre++[row]) rest := by
  simp [spansAt,spansFrom,segmentsOfRows]

theorem segmentsOf_steps (hA : A.steps = pre++row::rest) :
    (shape A).segmentsOf ⟨row.1,(segmentsOfRows pre).length⟩
      (spansAt (pre++[row]) rest) = some row.2.positions := by
  rw [shape,hA,spansAt,length_segmentsOfRows_concat]
  exact segmentsOf_shapeOf (hA ▸ A.closed)

theorem appendSpans_steps (hA : A.steps = pre++rest)
    (ha : finalValue Segments.empty acc = finalValue Segments.empty pre) :
    (shapeOf acc).appendSpans (shape A) (spansAt pre rest) = some (shapeOf (acc++rest)) := by
  have hr := A.reduced
  rw [hA,reduced_append,← ha] at hr
  rw [shape,hA]
  exact appendSpans_shapeOf hr.2 (hA ▸ A.closed)

theorem spansAt_isEmpty (pre rest : List Row) : (spansAt pre rest).isEmpty = rest.isEmpty := by
  cases rest <;> rfl

/-- The combination of the rows behind two places, behind the rows that are already there. -/
def mergedRows (f : Bool → Bool → Bool) (hf : f false false = false)
    (pre₁ pre₂ rest₁ rest₂ : List Row) : List Row :=
  let cur₁ := finalValue Segments.empty pre₁
  let cur₂ := finalValue Segments.empty pre₂
  reduce (combineRows f hf cur₁ cur₂) (combine (combineRows f hf) cur₁ cur₂ rest₁ rest₂)

/-- One pass of the outer loop adds the row `s` at `y`. -/
theorem addSpan_mergedRows {y : ℤ} {s₁ s₂ c : Segments ℤ}
    (hs₁ : ∀ x ∈ s₁.positions, x ∈ w) (hs₂ : ∀ x ∈ s₂.positions, x ∈ w)
    (ha : finalValue Segments.empty acc = c) :
    op.addSpan (shapeOf acc) y s₁.positions s₂.positions =
      shapeOf (acc++reduce c [(y,combineRows f h.outside s₁ s₂)]) := by
  rw [addSpan_shapeOf (h.mergeSegments_positions hs₁ hs₂),ha]

theorem finalValue_acc {c s : Segments ℤ} {y : ℤ} (ha : finalValue Segments.empty acc = c) :
    finalValue Segments.empty (acc++reduce c [(y,s)]) = s := by
  rw [finalValue_append,ha,finalValue_reduce]
  rfl

theorem finalValue_concat (pre : List Row) (row : Row) :
    finalValue Segments.empty (pre++[row]) = row.2 := by
  rw [finalValue_append]
  rfl

theorem mergeSpans_nil (op : Shape.Operation) (shape₁ shape₂ result : Shape)
    (spans : List Span) (s₁ s₂ : List ℤ) :
    (op.mergeSpans shape₁ shape₂ [] spans s₁ s₂ result =
      if op.shouldAddRemainingSpansFromShape2 && !spans.isEmpty then
        result.appendSpans shape₂ spans
      else some result) ∧
    op.mergeSpans shape₁ shape₂ spans [] s₁ s₂ result =
      if op.shouldAddRemainingSpansFromShape1 && !spans.isEmpty then
        result.appendSpans shape₁ spans
      else some result := by
  cases spans <;> simp [Shape.Operation.mergeSpans]

/-- The remaining spans of one shape are appended or left out. -/
theorem appendRemaining (hA : A.steps = pre++rest)
    (ha : finalValue Segments.empty acc = if c then finalValue Segments.empty pre else .empty) :
    (if c && !(spansAt pre rest).isEmpty then
        (shapeOf acc).appendSpans (shape A) (spansAt pre rest)
      else some (shapeOf acc)) =
      some (shapeOf (acc++if c && !rest.isEmpty then rest else [])) := by
  rw [spansAt_isEmpty]
  split
  · next hc =>
      rw [(Bool.and_eq_true_iff.mp hc).1,if_pos rfl] at ha
      exact appendSpans_steps hA ha
  · rw [append_nil]

theorem mergedRows_nil_left {rest₂ : List Row}
    (hp₁ : finalValue Segments.empty pre₁ = .empty) (hB : B.steps = pre₂++rest₂) :
    mergedRows f h.outside pre₁ pre₂ [] rest₂ =
      if op.shouldAddRemainingSegmentsFromSpan2 && !rest₂.isEmpty then rest₂ else [] := by
  have hr := B.reduced
  rw [hB,reduced_append] at hr
  rw [mergedRows,hp₁,combine_nil_left]
  exact reduce_remaining_rows h.combineRows_empty_left hr.2

theorem mergedRows_nil_right {rest₁ : List Row}
    (hp₂ : finalValue Segments.empty pre₂ = .empty) (hA : A.steps = pre₁++rest₁) :
    mergedRows f h.outside pre₁ pre₂ rest₁ [] =
      if op.shouldAddRemainingSegmentsFromSpan1 && !rest₁.isEmpty then rest₁ else [] := by
  have hr := A.reduced
  rw [hA,reduced_append] at hr
  rw [mergedRows,hp₂,combine_nil_right]
  exact reduce_remaining_rows (g := (combineRows f h.outside · .empty)) h.combineRows_empty_right
    hr.2

theorem finalValue_of_steps (hA : A.steps = pre++[]) : finalValue Segments.empty pre = .empty := by
  have hc := A.closed
  rwa [hA,append_nil] at hc

/-- The outer loop combines the rows of two shapes. -/
theorem Computes.mergeSpans (h : Computes op f) (hA : RowsIn w A.steps) (hB : RowsIn w B.steps) :
    ∀ (pre₁ pre₂ acc rest₁ rest₂ : List Row), A.steps = pre₁++rest₁ → B.steps = pre₂++rest₂ →
      finalValue Segments.empty acc = combineRows f h.outside (finalValue Segments.empty pre₁)
        (finalValue Segments.empty pre₂) →
      op.mergeSpans (shape A) (shape B) (spansAt pre₁ rest₁) (spansAt pre₂ rest₂)
        (finalValue Segments.empty pre₁).positions (finalValue Segments.empty pre₂).positions
        (shapeOf acc) =
        some (shapeOf (acc++mergedRows f h.outside pre₁ pre₂ rest₁ rest₂))
  | pre₁, pre₂, acc, [], rest₂, h₁, h₂, ha => by
    have hc := finalValue_of_steps h₁
    rw [hc,h.combineRows_empty_left] at ha
    rw [← h.spans₂] at ha
    rw [mergedRows_nil_left h hc h₂,← h.spans₂]
    exact (mergeSpans_nil ..).1.trans (appendRemaining h₂ ha)
  | pre₁, pre₂, acc, row₁::rest₁, [], h₁, h₂, ha => by
    have hc := finalValue_of_steps h₂
    rw [hc,h.combineRows_empty_right] at ha
    rw [← h.spans₁] at ha
    rw [mergedRows_nil_right h hc h₁,← h.spans₁]
    exact (mergeSpans_nil ..).2.trans (appendRemaining h₁ ha)
  | pre₁, pre₂, acc, row₁::rest₁, row₂::rest₂, h₁, h₂, ha => by
    have hr₁ := hA row₁ (h₁ ▸ mem_append_right _ mem_cons_self)
    have hr₂ := hB row₂ (h₂ ▸ mem_append_right _ mem_cons_self)
    have hsub : int32 (row₁.1-row₂.1) = row₁.1-row₂.1 := Window.int32_sub hr₁.1 hr₂.1
    have hcur₁ : ∀ x ∈ (finalValue Segments.empty pre₁).positions, x ∈ w := by
      refine RowsIn.finalValue (fun r hr => hA r ?_) (by simp [Segments.positions,Steps.const])
      exact h₁ ▸ mem_append_left _ hr
    have hcur₂ : ∀ x ∈ (finalValue Segments.empty pre₂).positions, x ∈ w := by
      refine RowsIn.finalValue (fun r hr => hB r ?_) (by simp [Segments.positions,Steps.const])
      exact h₂ ▸ mem_append_left _ hr
    have hn₁ : A.steps = (pre₁++[row₁])++rest₁ := by simp [h₁]
    have hn₂ : B.steps = (pre₂++[row₂])++rest₂ := by simp [h₂]
    have hl₁ := finalValue_concat pre₁ row₁
    have hl₂ := finalValue_concat pre₂ row₂
    rw [spansAt_cons,spansAt_cons,Shape.Operation.mergeSpans,hsub,mergedRows,combine]
    by_cases hlt : row₁.1 < row₂.1
    · have hs := h.mergeSpans hA hB _ _ _ rest₁ (row₂::rest₂) hn₁ h₂
        ((finalValue_acc (y := row₁.1) ha).trans (by rw [hl₁]))
      rw [mergedRows,hl₁,spansAt_cons] at hs
      rw [if_pos (by omega),if_pos hlt,segmentsOf_steps h₁,reduce_cons,← append_assoc,
        bind_eq_bind,bind_some,addSpan_mergedRows h hr₁.2 hcur₂ ha]
      exact hs
    · by_cases heq : row₁.1 = row₂.1
      · have hs := h.mergeSpans hA hB _ _ _ rest₁ rest₂ hn₁ hn₂
          ((finalValue_acc (y := row₁.1) ha).trans (by rw [hl₁,hl₂]))
        rw [mergedRows,hl₁,hl₂] at hs
        rw [if_neg (by omega),if_pos (by omega),if_neg hlt,if_pos heq,segmentsOf_steps h₁,
          segmentsOf_steps h₂,reduce_cons,← append_assoc,bind_eq_bind,
          bind_some,bind_some,
          addSpan_mergedRows h hr₁.2 hr₂.2 ha,← heq]
        exact hs
      · have hs := h.mergeSpans hA hB _ _ _ (row₁::rest₁) rest₂ h₁ hn₂
          ((finalValue_acc (y := row₂.1) ha).trans (by rw [hl₂]))
        rw [mergedRows,hl₂,spansAt_cons] at hs
        rw [if_neg (by omega),if_neg (by omega),if_neg hlt,if_neg heq,segmentsOf_steps h₂,
          reduce_cons,← append_assoc,bind_eq_bind,bind_some,
          addSpan_mergedRows h hcur₁ hr₂.2 ha]
        exact hs
termination_by _ _ _ rest₁ rest₂ => rest₁.length+rest₂.length

/-- Two shapes combined by a connective. -/
abbrev combineScanlines (f : Bool → Bool → Bool) (hf : f false false = false) (A B : Scanlines) :
    Scanlines :=
  Steps.combine (combineRows f hf) (combineRows_empty hf) A B

/-- The general part of `shapeOperation` combines the two shapes. -/
theorem Computes.mergeSpans_shape (hA : RowsIn w A.steps) (hB : RowsIn w B.steps) :
    op.mergeSpans (shape A) (shape B) (shape A).spans (shape B).spans [] [] .empty =
      some (shape (combineScanlines f h.outside A B)) := by
  have hm := h.mergeSpans hA hB [] [] [] A.steps B.steps rfl rfl (combineRows_empty h.outside).symm
  have hr : mergedRows f h.outside [] [] A.steps B.steps =
      (combineScanlines f h.outside A B).steps := by
    rw [mergedRows,finalValue,combineRows_empty]
    rfl
  rw [hr] at hm
  exact hm

end Merge

end QPlusWeb.Regions
