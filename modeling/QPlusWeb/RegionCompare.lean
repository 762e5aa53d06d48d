import QPlusWeb.RegionPoints

/-!
# Comparing shapes

`compareShapes` walks over the spans and segments of two shapes at once, in search of a point of the
second shape that is not in the first one, or of a point that is in both.  It ends with its other answer
if and only if there is such a point.
-/
namespace QPlusWeb.Regions

open StepFunctions Shape.CompareOperation List Segments Option

@[simp] theorem firstOf_nil : firstOf [] = none := rfl

@[simp] theorem firstOf_cons_none (condition : Bool) (rest : List (Bool × Option Bool)) :
    firstOf ((condition,none)::rest) = firstOf rest := by
  cases condition <;> rfl

@[simp] theorem firstOf_cons_some (condition result : Bool) (rest : List (Bool × Option Bool)) :
    firstOf ((condition,some result)::rest) = if condition then some result else firstOf rest := by
  cases condition <;> rfl

open Classical in
/-- What ends the comparison if it is found. -/
noncomputable def answer (op : Shape.CompareOperation) (found : Prop) : Option Bool :=
  if found then some !op.defaultResult else none

/-- The operation looks for a point that is in the shapes as `f` says: at the beginnings of two segments
it tells whether there is one before the first of their ends. -/
structure Finds (op : Shape.CompareOperation) (f : Bool → Bool → Bool) : Prop where
  outside : ∀ inA, f inA false = false
  aOutsideB : op.aOutsideB = none
  bOutsideA : op.bOutsideA = answer op (f false true = true)
  segments : ∀ {aX aMaxX bX bMaxX : ℤ}, aX < aMaxX → bX < bMaxX →
    firstOf [(decide (bMaxX > aX ∧ bX < aMaxX), op.aOverlapsB), (decide (aX < bX), op.aOutsideB),
        (decide (bX < aX), op.bOutsideA)] =
      answer op (∃ x, (x < aMaxX ∧ x < bMaxX) ∧ f (decide (aX ≤ x)) (decide (bX ≤ x)) = true)

section
variable {op : Shape.CompareOperation} {found : Prop}

theorem answer_pos (h : found) : answer op found = some !op.defaultResult := if_pos h

theorem answer_neg (h : ¬found) : answer op found = none := if_neg h

theorem getD_answer : (answer op found).getD op.defaultResult = (!op.defaultResult) ↔ found := by
  by_cases hf : found
  · exact iff_of_true (by rw [answer_pos hf,getD_some]) hf
  · exact iff_of_false (by simp [answer_neg hf]) hf

theorem firstOf_answer (condition : Bool) :
    firstOf [(condition,answer op found)] = answer op (condition ∧ found) := by
  by_cases hf : found
  · rw [answer_pos hf,firstOf_cons_some]
    by_cases hc : condition
    · rw [answer_pos ⟨hc,hf⟩,if_pos hc]
    · rw [answer_neg fun h => hc h.1,if_neg hc,firstOf_nil]
  · rw [answer_neg hf,answer_neg fun h => hf h.2,firstOf_cons_none,firstOf_nil]

end

theorem finds_contains : Finds Shape.compareContainsOperation fun inA inB => !inA && inB where
  outside _ := Bool.and_false _
  aOutsideB := rfl
  bOutsideA := (@answer_pos Shape.compareContainsOperation _ rfl).symm
  segments {aX aMaxX bX bMaxX} ha hb := by
    simp only [Shape.compareContainsOperation,firstOf_cons_none,firstOf_cons_some,firstOf_nil]
    by_cases h : bX < aX
    · rw [answer_pos ⟨bX,by omega,by simp [h]⟩,if_pos (decide_eq_true h)]
      rfl
    · rw [answer_neg,if_neg (by simpa using h)]
      simp only [Bool.and_eq_true,Bool.not_eq_true',decide_eq_false_iff_not,decide_eq_true_eq]
      rintro ⟨x,-,hx⟩
      omega

theorem finds_intersects : Finds Shape.compareIntersectsOperation and where
  outside := Bool.and_false
  aOutsideB := rfl
  bOutsideA := (answer_neg Bool.false_ne_true).symm
  segments {aX aMaxX bX bMaxX} ha hb := by
    simp only [Shape.compareIntersectsOperation,firstOf_cons_none,firstOf_cons_some,firstOf_nil]
    by_cases h : bMaxX > aX ∧ bX < aMaxX
    · rw [answer_pos ⟨max aX bX,by omega,by simp⟩,if_pos (decide_eq_true h)]
      rfl
    · rw [answer_neg,if_neg (by simpa using h)]
      simp only [Bool.and_eq_true,decide_eq_true_eq]
      rintro ⟨x,he,hx⟩
      omega

variable {op : Shape.CompareOperation} {f : Bool → Bool → Bool} {y : ℤ} {l : List ℤ}

/-! ### Segments -/

section

theorem inside_of_ge {x z : ℤ} (hxy : x < y) (h : y ≤ z) : inside (x::y::l) z = inside l z := by
  rw [inside_cons_cons,if_neg (by omega),if_neg (by omega)]

theorem inside_of_lt_end {x z : ℤ} (h : z < y) : inside (x::y::l) z = decide (x ≤ z) := by
  rw [inside_cons_cons,if_pos h]
  by_cases hx : z < x
  · simp [hx]
  · simp [not_lt.mp hx]

/-- The search goes on behind `m` if there is nothing before it, and what is found before it in what is
left is also found there. -/
theorem exists_iff_of_behind {p q : ℤ → Prop} {m : ℤ} (hbef : ∀ x < m, ¬p x)
    (hb : ∀ x, m ≤ x → (q x ↔ p x)) (hback : ∀ x < m, q x → q m) :
    (∃ x, q x) ↔ ∃ x, p x := by
  constructor
  · rintro ⟨x,hx⟩
    by_cases hm : x < m
    · exact ⟨m,(hb m le_rfl).mp (hback x hm hx)⟩
    · exact ⟨x,(hb x (not_lt.mp hm)).mp hx⟩
  · rintro ⟨x,hx⟩
    exact ⟨x,(hb x (not_lt.mp fun hm => hbef x hm hx)).mpr hx⟩

theorem Finds.compareSegments (h : Finds op f) : ∀ (a b : List ℤ), a.Pairwise (· < ·) →
    b.Pairwise (· < ·) → Even a.length → Even b.length →
    op.compareSegments a b = some (answer op (∃ x, f (inside a x) (inside b x)))
  | [], [], _, _, _, _ => by
    rw [answer_neg (by simp [h.outside])]
    simp [Shape.CompareOperation.compareSegments,firstOf]
  | [], [_], _, _, _, hb => absurd hb (by simp)
  | [], bX::bMaxX::b, _, hb, _, _ => by
    have hbX := (pairwise_cons.mp hb).1 bMaxX mem_cons_self
    have hh : inside (bX::bMaxX::b) bX := by
      rw [inside_of_lt_end hbX]
      simp
    rw [Shape.CompareOperation.compareSegments,h.bOutsideA,firstOf_answer]
    congr 2
    refine propext ⟨fun hf => ⟨bX,by rw [hh]; exact hf.2⟩,fun hf => ⟨rfl,?_⟩⟩
    obtain ⟨x,hx⟩ := hf
    cases hin : inside (bX::bMaxX::b) x with
    | false =>
      rw [hin,h.outside] at hx
      cases hx
    | true => rwa [hin] at hx
  | [_], _, _, _, ha, _ => absurd ha (by simp)
  | _::_::_, [], _, _, _, _ => by
    rw [answer_neg (by simp [h.outside])]
    simp [Shape.CompareOperation.compareSegments,h.aOutsideB]
  | _, [_], _, _, _, hb => absurd hb (by simp)
  | aX::aMaxX::a, bX::bMaxX::b, ha, hb, haEven, hbEven => by
    have haX := (pairwise_cons.mp ha).1 aMaxX mem_cons_self
    have hbX := (pairwise_cons.mp hb).1 bMaxX mem_cons_self
    obtain ⟨haMaxX,ha'⟩ := pairwise_cons.mp ha.of_cons
    obtain ⟨hbMaxX,hb'⟩ := pairwise_cons.mp hb.of_cons
    have haEven' := even_of_even_cons_cons haEven
    have hbEven' := even_of_even_cons_cons hbEven
    have hh : ∀ x, x < aMaxX → x < bMaxX → f (inside (aX::aMaxX::a) x)
        (inside (bX::bMaxX::b) x) = f (decide (aX ≤ x)) (decide (bX ≤ x)) := by
      intro x hxa hxb
      rw [inside_of_lt_end hxa,inside_of_lt_end hxb]
    -- Before its first boundary the rest of `b` has nothing that is looked for.
    have hr : ∀ {c : List ℤ} {x : ℤ}, x ≤ bMaxX → ¬f (inside c x) (inside b x) := by
      intro c x hx
      rw [inside_of_lt fun y hy => hx.trans_lt (hbMaxX y hy),h.outside]
      exact Bool.false_ne_true
    rw [Shape.CompareOperation.compareSegments,h.segments haX hbX]
    by_cases hn : ∃ x, (x < aMaxX ∧ x < bMaxX) ∧ f (decide (aX ≤ x)) (decide (bX ≤ x))
    · obtain ⟨x,⟨hxa,hxb⟩,hx⟩ := hn
      rw [answer_pos ⟨x,⟨hxa,hxb⟩,hx⟩,answer_pos ⟨x,by rw [hh x hxa hxb]; exact hx⟩]
    · have hbef : ∀ x, x < aMaxX → x < bMaxX → ¬f (inside (aX::aMaxX::a) x)
          (inside (bX::bMaxX::b) x) := by
        intro x hxa hxb hx
        rw [hh x hxa hxb] at hx
        exact hn ⟨x,⟨hxa,hxb⟩,hx⟩
      rw [answer_neg hn]
      dsimp only
      rcases lt_trichotomy aMaxX bMaxX with hlt | rfl | hlt
      · rw [if_pos hlt,Finds.compareSegments h a _ ha' hb haEven' hbEven]
        congr 2
        refine propext (exists_iff_of_behind (m := aMaxX) (fun x hx => hbef x hx (hx.trans hlt))
          (fun x hx => by rw [inside_of_ge haX hx]) fun x hx hfound => ?_)
        -- The segment of `b` goes on behind the end of the one of `a`.
        have hnot : ∀ y ≤ aMaxX, inside a y = false := fun y hy =>
          inside_of_lt fun z hz => hy.trans_lt (haMaxX z hz)
        rw [hnot x hx.le,inside_of_lt_end (hx.trans hlt)] at hfound
        rw [hnot aMaxX le_rfl,inside_of_lt_end hlt]
        by_cases hbx : bX ≤ x
        · rw [decide_eq_true hbx] at hfound
          rwa [decide_eq_true (hbx.trans hx.le)]
        · rw [decide_eq_false hbx,h.outside] at hfound
          cases hfound
      · rw [if_neg (lt_irrefl _),if_neg (lt_irrefl _),
          Finds.compareSegments h a b ha' hb' haEven' hbEven']
        congr 2
        exact propext (exists_iff_of_behind (m := aMaxX) (fun x hx => hbef x hx hx)
          (fun x hx => by rw [inside_of_ge haX hx,inside_of_ge hbX hx])
          fun x hx hfound => absurd hfound (hr hx.le))
      · rw [if_neg (not_lt.mpr hlt.le),if_pos hlt,Finds.compareSegments h _ b ha hb' haEven hbEven']
        congr 2
        exact propext (exists_iff_of_behind (m := bMaxX) (fun x hx => hbef x (hx.trans hlt) hx)
          (fun x hx => by rw [inside_of_ge hbX hx]) fun x hx hfound => absurd hfound (hr hx.le))
termination_by a b => a.length+b.length

end

/-! ### Spans -/

section
variable {A B : Scanlines} {pre₁ pre₂ rest₁ rest₂ rest pre : List Row} {hadA hadB : Bool}

theorem Finds.compareSpans_short (h : Finds op f) {spans₁ spans₂ : List Span}
    (hs : spans₁.length < 2 ∨ spans₂.length < 2) (shape₁ shape₂ : Shape) (hadA hadB : Bool) :
    op.compareSpans shape₁ shape₂ spans₁ spans₂ hadA hadB =
      some ((answer op (2 ≤ spans₂.length ∧ f false true)).getD op.defaultResult) := by
  unfold Shape.CompareOperation.compareSpans
  split
  · simp only [length_cons] at hs
    omega
  · rw [h.aOutsideB,h.bOutsideA,firstOf_cons_none,firstOf_answer]
    simp

/-- The rows of the first shape begin before those of the second one, or what is left of the second
one there has been compared. -/
def Behind (hadA : Bool) (rest₁ rest₂ : List Row) : Prop :=
  ∀ a ∈ rest₁.head?, ∀ b ∈ rest₂.head?,
    a.1 ≤ b.1 ∨ (b.2 = .empty ∨ hadA = true) ∧ ∀ b' ∈ rest₂.tail.head?, a.1 < b'.1

theorem Finds.compareSpans_cons_cons (h : Finds op f) {a a' b b' : Row}
    (h₁ : A.steps = pre₁++a::a'::rest₁) (h₂ : B.steps = pre₂++b::b'::rest₂)
    (hb : f false true → Behind hadA (a::a'::rest₁) (b::b'::rest₂)) :
    op.compareSpans (shape A) (shape B) (spansAt pre₁ (a::a'::rest₁))
      (spansAt pre₂ (b::b'::rest₂)) hadA hadB =
      match answer op ((b'.1 > a.1 ∧ b.1 < a'.1) ∧ ∃ x, f (a.2.value x) (b.2.value x)) with
      | some result => some result
      | none =>
        op.compareSpans (shape A) (shape B)
          (if a'.1 ≤ b'.1 then spansAt (pre₁++[a]) (a'::rest₁) else spansAt pre₁ (a::a'::rest₁))
          (if b'.1 ≤ a'.1 then spansAt (pre₂++[b]) (b'::rest₂) else spansAt pre₂ (b::b'::rest₂))
          (!a.2.positions.isEmpty) (!b.2.positions.isEmpty) := by
  have hsegs₁ := segmentsOf_steps h₁
  have hsegs₂ := segmentsOf_steps h₂
  rw [spansAt_cons] at hsegs₁ hsegs₂
  have hfst : firstOf [(decide (a.1 < b.1) && !hadB && !a.2.positions.isEmpty,op.aOutsideB),
        (decide (b.1 < a.1) && !hadA && !b.2.positions.isEmpty,op.bOutsideA)] = none := by
    rw [h.aOutsideB,h.bOutsideA,firstOf_cons_none,firstOf_answer,answer_neg]
    simp only [Bool.and_eq_true,decide_eq_true_eq,Bool.not_eq_true',isEmpty_eq_false_iff]
    rintro ⟨⟨⟨hlt,hn⟩,hne⟩,hf⟩
    rcases hb hf a rfl b rfl with hle | ⟨he | hh,-⟩
    · omega
    · exact hne (positions_eq_nil.mpr he)
    · rw [hh] at hn
      cases hn
  have ho : op.compareOverlap (b'.1 > a.1 ∧ b.1 < a'.1) a.2.positions b.2.positions =
      some (answer op ((b'.1 > a.1 ∧ b.1 < a'.1) ∧ ∃ x, f (a.2.value x) (b.2.value x))) := by
    rw [Shape.CompareOperation.compareOverlap]
    by_cases hs : b'.1 > a.1 ∧ b.1 < a'.1
    · rw [if_pos (decide_eq_true hs),h.compareSegments _ _ a.2.positions_pairwise
        b.2.positions_pairwise a.2.even_positions b.2.even_positions]
      simp [hs,← value_eq_inside]
    · rw [if_neg (by simpa using hs),answer_neg fun hboth => hs hboth.1]
  rw [spansAt_cons pre₁,spansAt_cons,spansAt_cons pre₂,spansAt_cons,
    Shape.CompareOperation.compareSpans,hsegs₁,bind_eq_bind,bind_some,
    hsegs₂,bind_some]
  simp only [hfst,ho]
  cases answer op ((b'.1 > a.1 ∧ b.1 < a'.1) ∧ ∃ x, f (a.2.value x) (b.2.value x)) with
  | some result => rfl
  | none =>
    rcases lt_trichotomy a'.1 b'.1 with hlt | heq | hlt
    · simp [hlt.le,not_le.mpr hlt]
    · simp [heq]
    · simp [hlt.le,not_le.mpr hlt,not_lt.mpr hlt.le]

theorem valueAt_advance {a a' : Row} (ha : a.1 ≤ y) (ha' : a'.1 ≤ y) :
    valueAt empty (a::a'::rest) y = valueAt empty (a'::rest) y := by
  simp [valueAt,not_lt.mpr ha,not_lt.mpr ha']

theorem valueAt_stay {a a' : Row} (ha : a.1 ≤ y) (ha' : y < a'.1) :
    valueAt empty (a::a'::rest) y = a.2 := by
  simp [valueAt,not_lt.mpr ha,ha']

/-- A point that is looked for, from the place on where the rows of both shapes have begun. -/
def Found (f : Bool → Bool → Bool) (rest₁ rest₂ : List Row) : Prop :=
  ∃ p : IntPoint, (∀ row ∈ rest₁.head?, row.1 ≤ p.y) ∧ (∀ row ∈ rest₂.head?, row.1 ≤ p.y) ∧
    f ((valueAt empty rest₁ p.y).value p.x) ((valueAt empty rest₂ p.y).value p.x) =
      true

theorem valueAt_of_short (hA : A.steps = pre++rest) (h : rest.length < 2)
    (y : ℤ) : valueAt empty rest y = .empty := by
  rcases rest with _ | ⟨row,_ | ⟨row',rest⟩⟩
  · rfl
  · have hr : row.2 = .empty := finalValue_rest hA
    simp [valueAt,hr]
  · simp only [length_cons] at h
    omega

theorem increasing_rest (hA : A.steps = pre++rest) : Increasing rest :=
  (pairwise_append.mp (hA ▸ A.increasing)).2.1

theorem lt_of_steps {a a' : Row} (hA : A.steps = pre++a::a'::rest) :
    a.1 < a'.1 := (pairwise_cons.mp (increasing_rest hA)).1 a' mem_cons_self

theorem Behind.lt {b b' : Row} (h : Behind hadA rest₁ (b::b'::rest₂)) (hlt : b.1 < b'.1) :
    ∀ a ∈ rest₁.head?, a.1 < b'.1 := by
  intro a ha
  rcases h a ha b rfl with hle | ⟨-,hb⟩
  · exact hle.trans_lt hlt
  · exact hb b' rfl

/-- The rows of the second shape that are left at the end of the first one. -/
theorem found_of_ended {b b' : Row} (h₁ : A.steps = pre₁++rest₁)
    (h₂ : B.steps = pre₂++b::b'::rest₂) (hf : f false true) (hl : rest₁.length < 2)
    (hbehind : Behind hadA rest₁ (b::b'::rest₂)) : Found f rest₁ (b::b'::rest₂) := by
  have hlt := lt_of_steps h₂
  have hbef := hbehind.lt hlt
  have hfound : ∀ {y : ℤ} {s : Segments ℤ}, s ≠ .empty → b.1 ≤ y →
      (∀ row ∈ rest₁.head?, row.1 ≤ y) → valueAt empty (b::b'::rest₂) y = s →
      Found f rest₁ (b::b'::rest₂) := by
    intro y s hs hb hy heq
    obtain ⟨x,hx⟩ := Steps.exists_value_ne hs
    refine ⟨⟨x,y⟩,hy,by simpa using hb,?_⟩
    rw [valueAt_of_short h₁ hl,heq,Steps.value_const,Bool.eq_true_of_not_eq_false hx]
    exact hf
  by_cases hb : b.2 = .empty
  · have hb' : b'.2 ≠ .empty := by
      have hr := B.reduced
      rw [h₂,reduced_append] at hr
      rw [← hb]
      exact hr.2.2.1
    exact hfound hb' hlt.le (fun row hrow => (hbef row hrow).le)
      (valueAt_of_mem (increasing_rest h₂) (by simp))
  · cases rest₁ with
    | nil => exact hfound hb le_rfl (by simp) (valueAt_stay le_rfl hlt)
    | cons row rest₁ =>
      exact hfound hb (le_max_left b.1 row.1) (by simp)
        (valueAt_stay (le_max_left _ _) (max_lt hlt (hbef row rfl)))

theorem Finds.eq_true (h : Finds op f) {inA inB : Bool} (hf : f inA inB) : inB := by
  cases inB with
  | false =>
    rw [h.outside] at hf
    cases hf
  | true => rfl

theorem Finds.compareSpans_ended (h : Finds op f) (h₁ : A.steps = pre₁++rest₁)
    (h₂ : B.steps = pre₂++rest₂) (hb : f false true → Behind hadA rest₁ rest₂)
    (hs : rest₁.length < 2 ∨ rest₂.length < 2) :
    op.compareSpans (shape A) (shape B) (spansAt pre₁ rest₁) (spansAt pre₂ rest₂) hadA hadB =
      some ((answer op (Found f rest₁ rest₂)).getD op.defaultResult) := by
  rw [h.compareSpans_short (by simpa [spansAt,length_spansFrom] using hs),spansAt,length_spansFrom]
  congr 3
  refine propext ⟨?_,?_⟩
  · rintro ⟨hl,hf⟩
    rcases rest₂ with _ | ⟨b,_ | ⟨b',rest₂⟩⟩
    · simp at hl
    · simp at hl
    · exact found_of_ended h₁ h₂ hf (hs.resolve_right (not_lt.mpr hl)) (hb hf)
  · rintro ⟨p,-,-,hp⟩
    have hin := h.eq_true hp
    have hl : 2 ≤ rest₂.length := by
      by_contra hl
      rw [valueAt_of_short h₂ (not_le.mp hl)] at hin
      cases hin
    rw [hin,valueAt_of_short h₁ (hs.resolve_right (not_lt.mpr hl))] at hp
    exact ⟨hl,hp⟩

/-- The rows from the next one on, if it does not begin behind `k`. -/
def later (k : ℤ) (a a' : Row) (rest : List Row) : List Row :=
  if a'.1 ≤ k then a' :: rest else a :: a' :: rest

theorem exists_later {a a' : Row} (hA : A.steps = pre++a::a'::rest)
    (k : ℤ) : ∃ pre', A.steps = pre'++later k a a' rest ∧
      (if a'.1 ≤ k then spansAt (pre++[a]) (a'::rest) else spansAt pre (a::a'::rest)) =
        spansAt pre' (later k a a' rest) := by
  unfold later
  split
  next => exact ⟨pre++[a],by simp [hA],rfl⟩
  next => exact ⟨pre,hA,rfl⟩

/-- From the first of the next rows on nothing changes. -/
theorem later_spec {a a' : Row} {k : ℤ} (hlt : a.1 < a'.1) (hy : min a'.1 k ≤ y) (rest : List Row) :
    ((∀ row ∈ (later k a a' rest).head?, row.1 ≤ y) ↔ a.1 ≤ y) ∧ (a.1 ≤ y →
      valueAt empty (later k a a' rest) y = valueAt empty (a::a'::rest) y) := by
  unfold later
  split
  next hle =>
    rw [min_eq_left hle] at hy
    exact ⟨iff_of_true (by simpa using hy) (hlt.le.trans hy),fun ha => (valueAt_advance ha hy).symm⟩
  next => exact ⟨by simp,fun _ => rfl⟩

theorem found_later {a a' b b' : Row} (ha : a.1 < a'.1) (hb : b.1 < b'.1)
    (hn : ¬((b'.1 > a.1 ∧ b.1 < a'.1) ∧ ∃ x, f (a.2.value x) (b.2.value x))) :
    Found f (later b'.1 a a' rest₁) (later a'.1 b b' rest₂) ↔
      Found f (a::a'::rest₁) (b::b'::rest₂) := by
  constructor
  · rintro ⟨p,ha₁,hb₁,hp⟩
    have hy : min a'.1 b'.1 ≤ p.y := by
      rcases le_total a'.1 b'.1 with hle | hle
      · rw [later,if_pos hle] at ha₁
        exact (min_le_left _ _).trans (ha₁ a' rfl)
      · rw [later,if_pos hle] at hb₁
        exact (min_le_right _ _).trans (hb₁ b' rfl)
    obtain ⟨hheadA,hvalA⟩ := later_spec ha hy rest₁
    obtain ⟨hheadB,hvalB⟩ := later_spec hb (min_comm a'.1 b'.1 ▸ hy) rest₂
    rw [hheadA] at ha₁
    rw [hheadB] at hb₁
    rw [hvalA ha₁,hvalB hb₁] at hp
    exact ⟨p,by simpa using ha₁,by simpa using hb₁,hp⟩
  · rintro ⟨p,ha₁,hb₁,hp⟩
    have ha₁ : a.1 ≤ p.y := ha₁ a rfl
    have hb₁ : b.1 ≤ p.y := hb₁ b rfl
    -- Above the end of the upper span the segments were compared.
    have hy : min a'.1 b'.1 ≤ p.y := by
      by_contra hlt
      obtain ⟨ha',hb'⟩ := lt_min_iff.mp (not_le.mp hlt)
      rw [valueAt_stay ha₁ ha',valueAt_stay hb₁ hb'] at hp
      exact hn ⟨⟨by omega,by omega⟩,p.x,hp⟩
    obtain ⟨hheadA,hvalA⟩ := later_spec ha hy rest₁
    obtain ⟨hheadB,hvalB⟩ := later_spec hb (min_comm a'.1 b'.1 ▸ hy) rest₂
    rw [← hvalA ha₁,← hvalB hb₁] at hp
    exact ⟨p,hheadA.mpr ha₁,hheadB.mpr hb₁,hp⟩

/-- The second shape does not reach back to an empty span of the first one. -/
theorem Behind.later {a a' b b' : Row} (h : Behind hadA (a::a'::rest₁) (b::b'::rest₂))
    (hb : b.1 < b'.1) (hf : f false true)
    (hnow : ¬((b'.1 > a.1 ∧ b.1 < a'.1) ∧ ∃ x, f (a.2.value x) (b.2.value x))) :
    Behind (!a.2.positions.isEmpty) (later b'.1 a a' rest₁) (later a'.1 b b' rest₂) := by
  have hbegun : a.1 < b'.1 := h.lt hb a rfl
  by_cases hab : a'.1 ≤ b'.1
  · rw [Regions.later,if_pos hab,Regions.later]
    rintro _ ⟨⟩
    split
    next =>
      rintro _ ⟨⟩
      exact .inl hab
    next hba =>
      rintro _ ⟨⟩
      refine or_iff_not_imp_left.mpr fun hle => ⟨?_,by simpa using not_le.mp hba⟩
      by_contra hn
      simp only [not_or,Bool.not_eq_true,Bool.not_eq_false',List.isEmpty_iff,positions_eq_nil] at hn
      obtain ⟨x,hx⟩ := Steps.exists_value_ne hn.1
      refine hnow ⟨⟨hbegun,not_le.mp hle⟩,x,?_⟩
      rw [hn.2,Steps.value_const,Bool.eq_true_of_not_eq_false hx]
      exact hf
  · rw [Regions.later,if_neg hab,Regions.later,if_pos (not_le.mp hab).le]
    rintro _ ⟨⟩ _ ⟨⟩
    exact .inl hbegun.le

/-- The outer loop finds what is there from the place on where both shapes have begun. -/
theorem Finds.compareSpans (h : Finds op f) (n : ℕ) (hl : rest₁.length+rest₂.length ≤ n)
    (h₁ : A.steps = pre₁++rest₁) (h₂ : B.steps = pre₂++rest₂)
    (hbehind : f false true → Behind hadA rest₁ rest₂) :
    op.compareSpans (shape A) (shape B) (spansAt pre₁ rest₁) (spansAt pre₂ rest₂) hadA hadB =
      some ((answer op (Found f rest₁ rest₂)).getD op.defaultResult) := by
  induction n generalizing pre₁ pre₂ rest₁ rest₂ hadA hadB with
  | zero => exact h.compareSpans_ended h₁ h₂ hbehind (.inl (by omega))
  | succ n ih =>
    rcases rest₁ with _ | ⟨a,_ | ⟨a',rest₁⟩⟩
    · exact h.compareSpans_ended h₁ h₂ hbehind (.inl (by simp))
    · exact h.compareSpans_ended h₁ h₂ hbehind (.inl (by simp))
    rcases rest₂ with _ | ⟨b,_ | ⟨b',rest₂⟩⟩
    · exact h.compareSpans_ended h₁ h₂ hbehind (.inr (by simp))
    · exact h.compareSpans_ended h₁ h₂ hbehind (.inr (by simp))
    have ha := lt_of_steps h₁
    have hb := lt_of_steps h₂
    rw [h.compareSpans_cons_cons h₁ h₂ hbehind]
    by_cases hn : (b'.1 > a.1 ∧ b.1 < a'.1) ∧ ∃ x, f (a.2.value x) (b.2.value x)
    · obtain ⟨hspans,x,hx⟩ := hn
      have hfound : Found f (a::a'::rest₁) (b::b'::rest₂) := by
        refine ⟨⟨x,max a.1 b.1⟩,by simp,by simp,?_⟩
        rw [valueAt_stay (by simp) (by simp; omega),valueAt_stay (by simp) (by simp; omega)]
        exact hx
      rw [answer_pos ⟨hspans,x,hx⟩,answer_pos hfound]
      rfl
    · obtain ⟨pre₁',hnext₁,hspans₁⟩ := exists_later h₁ b'.1
      obtain ⟨pre₂',hnext₂,hspans₂⟩ := exists_later h₂ a'.1
      have hs : (later b'.1 a a' rest₁).length+(later a'.1 b b' rest₂).length ≤ n := by
        simp only [length_cons] at hl
        unfold later
        split_ifs <;> simp only [length_cons] <;> omega
      rw [answer_neg hn]
      rw [hspans₁,hspans₂,ih hs hnext₁ hnext₂ fun hf => (hbehind hf).later hb hf hn,
        found_later ha hb hn]

theorem head_le_of_mem {p : IntPoint} (hp : p ∈ points A) : ∀ row ∈ A.steps.head?, row.1 ≤ p.y := by
  intro row hr
  obtain ⟨⟨u,hu,hle⟩,-⟩ := Steps.exists_steps_of_value_ne (value_ne_of_mem hp)
  exact (A.increasing.head_le hr hu).trans hle

/-- `compareShapes`, of shapes whose first spans are in order if the first one may end the search. -/
theorem Finds.compareShapes (h : Finds op f) (A B : Scanlines)
    (hfst : f false true → ∀ p ∈ points B, ∀ row ∈ A.steps.head?, row.1 ≤ p.y) :
    ∃ result, op.compareShapes (shape A) (shape B) = some result ∧ (result = !op.defaultResult ↔
      ∃ p : IntPoint, f ((A.value p.y).value p.x) ((B.value p.y).value p.x)) := by
  have hbehind : f false true → Behind false A.steps B.steps := by
    intro hf a ha b hb
    have hne := Steps.value_ne_of_least (mem_of_mem_head? hb) fun v hv =>
      B.increasing.head_le hb hv
    obtain ⟨x,hx⟩ := exists_mem_of_value_ne hne
    exact .inl (hfst hf _ hx a ha)
  refine ⟨_,h.compareSpans _ le_rfl (nil_append _).symm (nil_append _).symm hbehind,
    getD_answer.trans ⟨Exists.imp fun p hp => hp.2.2,Exists.imp fun p hp => ?_⟩⟩
  have hpB : p ∈ points B := h.eq_true hp
  refine ⟨?_,head_le_of_mem hpB,hp⟩
  by_cases hpA : p ∈ points A
  · exact head_le_of_mem hpA
  · refine hfst ?_ p hpB
    rwa [h.eq_true hp,Bool.eq_false_of_not_eq_true hpA] at hp

end

end QPlusWeb.Regions
