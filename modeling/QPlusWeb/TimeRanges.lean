import Mathlib.Order.Interval.Set.LinearOrder
import Mathlib.Order.BoundedOrder.Basic
import Mathlib.Data.List.Pairwise
import Mathlib.Order.Fin.Basic

/-!
# Time ranges

`TimeRanges` keeps a list of ranges and merges a range that is added with those it overlaps or
touches.  Times are the elements of a linear order with both infinities.
-/

namespace QPlusWeb.TimeRanges

open Set (Icc Ico)

structure Range (T : Type*) where
  start : T
  stop : T
  deriving DecidableEq

variable {T : Type*} [LinearOrder T]

namespace Range

def isPointInRange (r : Range T) (point : T) : Bool := r.start ≤ point && point < r.stop

def isOverlappingRange (r range : Range T) : Bool :=
  r.isPointInRange range.start || r.isPointInRange range.stop || range.isPointInRange r.start

def isContiguousWithRange (r range : Range T) : Bool := range.start = r.stop || range.stop = r.start

def unionWithOverlappingOrContiguousRange (r range : Range T) : Range T :=
  ⟨min r.start range.start, max r.stop range.stop⟩

def isBeforeRange (r range : Range T) : Bool := range.start ≥ r.stop

end Range

/-- The loop of `add` and the insertion after it; `passed` are the ranges before the index, and the
last of them, if there is one, is compared with the added range. -/
def addLoop (passed : List (Range T)) (addedRange : Range T) : List (Range T) → List (Range T)
  | [] => passed ++ [addedRange]
  | range :: ranges =>
    if addedRange.isOverlappingRange range || addedRange.isContiguousWithRange range then
      addLoop passed (addedRange.unionWithOverlappingOrContiguousRange range) ranges
    else if passed.getLast?.all (·.isBeforeRange addedRange) && addedRange.isBeforeRange range then
      passed ++ addedRange :: range :: ranges
    else addLoop (passed ++ [range]) addedRange ranges

def add (ranges : List (Range T)) (start stop : T) : List (Range T) :=
  addLoop [] ⟨start, stop⟩ ranges

/-- One call of `add` for each range of a list. -/
def addAll (ranges added : List (Range T)) : List (Range T) :=
  added.foldl (fun ranges range => add ranges range.start range.stop) ranges

def copy (ranges : List (Range T)) : List (Range T) := addAll [] ranges

def unionWith (ranges other : List (Range T)) : List (Range T) := addAll (copy ranges) other

section
variable [BoundedOrder T]

/-- The gaps behind each range. -/
def invertLoop (inverted : List (Range T)) : List (Range T) → List (Range T)
  | [] => inverted
  | [range] => if range.stop ≠ ⊤ then add inverted range.stop ⊤ else inverted
  | range :: next :: ranges =>
    invertLoop (add inverted range.stop next.start) (next :: ranges)

def invert : List (Range T) → List (Range T)
  | [] => add [] ⊥ ⊤
  | range :: ranges =>
    invertLoop (if range.start ≠ ⊥ then add [] ⊥ range.start else []) (range :: ranges)

/-- Without an argument, the intersection of an object with itself. -/
def intersectWith (ranges : List (Range T)) : Option (List (Range T)) → List (Range T)
  | none => ranges
  | some other => invert (unionWith (invert ranges) (invert (copy other)))

end

/-- The ranges are in order, and no two of them overlap or touch. -/
abbrev Sorted (ranges : List (Range T)) : Prop := ranges.Pairwise fun r s => r.stop < s.start

/-- What the ranges cover, as closed or half-open intervals. -/
def cover (points : T → T → Set T) (ranges : List (Range T)) : Set T :=
  {x | ∃ r ∈ ranges, x ∈ points r.start r.stop}

variable {r s added : Range T} {passed ranges other : List (Range T)} {points : T → T → Set T}
  {P : Range T → Prop} {x : T}

omit [LinearOrder T] in
@[simp] theorem not_mem_cover_nil : x ∉ cover points [] := by
  simp [cover]

omit [LinearOrder T] in
@[simp] theorem mem_cover_cons :
    x ∈ cover points (r::ranges) ↔ x ∈ points r.start r.stop ∨ x ∈ cover points ranges := by
  simp [cover]

omit [LinearOrder T] in
theorem mem_cover_append :
    x ∈ cover points (ranges++other) ↔ x ∈ cover points ranges ∨ x ∈ cover points other := by
  simp [cover,or_and_right,exists_or]

/-! ### Adding ranges -/

theorem merges_iff (hr : r.start ≤ r.stop) (hs : s.start ≤ s.stop) :
    (r.isOverlappingRange s || r.isContiguousWithRange s) ↔
      r.start ≤ s.stop ∧ s.start ≤ r.stop := by
  simp only [Range.isOverlappingRange,Range.isContiguousWithRange,Range.isPointInRange,
    Bool.or_eq_true,Bool.and_eq_true,decide_eq_true_eq]
  grind

section
variable (hP : ∀ r s, P r → P s → P (r.unionWithOverlappingOrContiguousRange s))
  (hle : ∀ r, P r → r.start ≤ r.stop)
  (hunion : ∀ {a b c d : T}, c ≤ b → a ≤ d → points a b ∪ points c d = points (min a c) (max b d))
include hP hle hunion

/-- The passed ranges are before the added one, and those that are merged with it meet it. -/
theorem addLoop_spec (hpassed : ∀ r ∈ passed, P r ∧ r.stop < added.start) (ha : P added)
    (hranges : ∀ r ∈ ranges, P r) (hs : Sorted (passed++ranges)) :
    (∀ r ∈ addLoop passed added ranges, P r) ∧ Sorted (addLoop passed added ranges) ∧
      ∀ x, x ∈ cover points (addLoop passed added ranges) ↔
        x ∈ cover points (passed++added::ranges) := by
  induction ranges generalizing passed added with
  | nil =>
    rw [addLoop]
    rw [List.append_nil] at hs
    refine ⟨?_,List.pairwise_append.mpr ⟨hs,List.pairwise_singleton _ _,?_⟩,fun x => .rfl⟩
    · grind
    · grind
  | cons range ranges ih =>
    obtain ⟨hrange,hrest⟩ := List.forall_mem_cons.mp hranges
    obtain ⟨hleft,hrt,hmid⟩ := List.pairwise_append.mp hs
    rw [addLoop]
    split
    · next hm =>
      rw [merges_iff (hle _ ha) (hle _ hrange)] at hm
      have hpassed' : ∀ r ∈ passed, P r ∧ r.stop < min added.start range.start := fun r hr =>
        ⟨(hpassed r hr).1,lt_min (hpassed r hr).2 (hmid r hr range List.mem_cons_self)⟩
      obtain ⟨hall,hsort',hc⟩ := ih hpassed' (hP _ _ ha hrange) hrest
        (hs.sublist ((List.sublist_cons_self _ _).append_left _))
      refine ⟨hall,hsort',fun x => (hc x).trans ?_⟩
      simp [mem_cover_append,Range.unionWithOverlappingOrContiguousRange,← hunion hm.2 hm.1,or_assoc]
    · next hm =>
      rw [merges_iff (hle _ ha) (hle _ hrange)] at hm
      have hl : passed.getLast?.all (·.isBeforeRange added) := by
        rw [Option.all_eq_true]
        exact fun p hp => decide_eq_true (hpassed p (List.mem_of_getLast? hp)).2.le
      rw [hl,Bool.true_and,Range.isBeforeRange]
      have := hle _ ha
      have := hle _ hrange
      split
      · next hb =>
        have hlt : added.stop < range.start := by grind
        refine ⟨by grind,List.pairwise_append.mpr ⟨hleft,List.pairwise_cons.mpr ⟨?_,hrt⟩,?_⟩,
          fun x => .rfl⟩
        · have hn := (List.pairwise_cons.mp hrt).1
          grind
        · grind
      · next hb =>
        have hlt : range.stop < added.start := by grind
        obtain ⟨hall,hsort',hc⟩ := ih (List.forall_mem_append.mpr
          ⟨hpassed,List.forall_mem_singleton.mpr ⟨hrange,hlt⟩⟩) ha hrest (by simpa using hs)
        refine ⟨hall,hsort',fun x => (hc x).trans ?_⟩
        simp [mem_cover_append,or_left_comm (a := x ∈ points added.start added.stop)]

theorem addAll_spec (ho : ∀ r ∈ other, P r) (hr : ∀ r ∈ ranges, P r) (hsort : Sorted ranges) :
    (∀ r ∈ addAll ranges other, P r) ∧ Sorted (addAll ranges other) ∧
      ∀ x, x ∈ cover points (addAll ranges other) ↔
        x ∈ cover points ranges ∨ x ∈ cover points other := by
  induction other generalizing ranges with
  | nil => exact ⟨hr,hsort,by simp [addAll]⟩
  | cons added other ih =>
    obtain ⟨ha,ho⟩ := List.forall_mem_cons.mp ho
    obtain ⟨hall,hsort',hcover⟩ := addLoop_spec hP hle hunion (List.forall_mem_nil _) ha hr hsort
    obtain ⟨hall,hsort',hcover'⟩ := ih ho hall hsort'
    refine ⟨hall,hsort',fun x => (hcover' x).trans ?_⟩
    rw [hcover,List.nil_append,mem_cover_cons,mem_cover_cons]
    tauto

end

/-! ### The half-open sets -/

/-- A list as it is kept, without empty ranges. -/
abbrev Stored (ranges : List (Range T)) : Prop := (∀ r ∈ ranges, r.start < r.stop) ∧ Sorted ranges

theorem stored_nil : Stored ([] : List (Range T)) := ⟨List.forall_mem_nil _,.nil⟩

theorem stored_cons :
    Stored (r::ranges) ↔ r.start < r.stop ∧ (∀ s ∈ ranges, r.stop < s.start) ∧ Stored ranges := by
  simp only [Stored,List.forall_mem_cons,List.pairwise_cons]
  tauto

theorem Stored.addAll (h : Stored ranges) (ho : ∀ r ∈ other, r.start < r.stop) :
    Stored (addAll ranges other) ∧
      ∀ x, x ∈ cover Ico (addAll ranges other) ↔ x ∈ cover Ico ranges ∨ x ∈ cover Ico other := by
  obtain ⟨hlt,hs,hc⟩ := addAll_spec (P := fun r => r.start < r.stop)
    (fun r s hr _ => (min_le_left _ _).trans_lt (hr.trans_le (le_max_left _ _)))
    (fun r hr => hr.le) Set.Ico_union_Ico' ho h.1 h.2
  exact ⟨⟨hlt,hs⟩,hc⟩

theorem Stored.add (h : Stored ranges) (hr : r.start < r.stop) :
    Stored (add ranges r.start r.stop) ∧ ∀ x, x ∈ cover Ico (TimeRanges.add ranges r.start r.stop) ↔
      x ∈ cover Ico ranges ∨ r.start ≤ x ∧ x < r.stop := by
  simpa [TimeRanges.addAll] using h.addAll (List.forall_mem_singleton.mpr hr)

theorem Stored.unionWith (h : Stored ranges) (h' : Stored other) : Stored (unionWith ranges other) ∧
      cover Ico (unionWith ranges other) = cover Ico ranges ∪ cover Ico other := by
  obtain ⟨hst,hcover⟩ := stored_nil.addAll h.1
  obtain ⟨hst',hcover'⟩ := hst.addAll h'.1
  refine ⟨hst',Set.ext fun x => (hcover' x).trans ?_⟩
  simp [hcover]

theorem lt_of_mem_cover (h : ∀ s ∈ ranges, r.stop < s.start) (hx : x ∈ cover Ico ranges) :
    r.stop < x := by
  obtain ⟨s,hs,hx⟩ := hx
  exact (h s hs).trans_le hx.1

/-- The points determine the list: its first range starts at the least of them and ends at the least
later time that is not one of them. -/
theorem Stored.unique (h : Stored ranges) (h' : Stored other)
    (heq : ∀ x, x ∈ cover Ico ranges ↔ x ∈ cover Ico other) : ranges = other := by
  induction ranges generalizing other with
  | nil =>
    cases other with
    | nil => rfl
    | cons s other => simpa [(stored_cons.mp h').1] using heq s.start
  | cons r ranges ih =>
    cases other with
    | nil => simpa [(stored_cons.mp h).1] using heq r.start
    | cons s other =>
      obtain ⟨hr,hbef,hranges⟩ := stored_cons.mp h
      obtain ⟨hs,hbef',ho⟩ := stored_cons.mp h'
      simp only [mem_cover_cons,Set.mem_Ico] at heq
      have hlt := fun x => @lt_of_mem_cover _ _ _ _ x hbef
      have hlt' := fun x => @lt_of_mem_cover _ _ _ _ x hbef'
      have hstart : r.start = s.start := by
        have := heq r.start
        have := heq s.start
        grind
      have hstop : r.stop = s.stop := by
        have := heq r.stop
        have := heq s.stop
        grind
      obtain rfl : r = s := by
        cases r
        cases s
        simp_all
      grind

/-- Neither the order of the calls nor how they cut the times into ranges leaves a trace. -/
theorem addAll_eq_iff (h : ∀ r ∈ ranges, r.start < r.stop) (h' : ∀ r ∈ other, r.start < r.stop) :
    addAll [] ranges = addAll [] other ↔ cover Ico ranges = cover Ico other := by
  obtain ⟨hs,hc⟩ := stored_nil.addAll h
  obtain ⟨hs',hc'⟩ := stored_nil.addAll h'
  simp only [not_mem_cover_nil,false_or] at hc hc'
  constructor
  · intro heq
    ext x
    rw [← hc,← hc',heq]
  · intro heq
    exact hs.unique hs' fun x => by rw [hc,hc',heq]

theorem addAll_eq_iff_of_cut : addAll [] [⟨0, 1⟩, ⟨1, 3⟩] = addAll [] [⟨0, (3 : ℕ)⟩] ↔
    cover Ico [⟨0, 1⟩, ⟨1, 3⟩] = cover Ico [⟨0, (3 : ℕ)⟩] :=
  addAll_eq_iff (by decide) (by decide)

variable [BoundedOrder T]

theorem Stored.invertLoop {inverted : List (Range T)} (hi : Stored inverted)
    (h : Stored (r::ranges)) :
    Stored (invertLoop inverted (r::ranges)) ∧
      ∀ x, x ∈ cover Ico (invertLoop inverted (r::ranges)) ↔
        x ∈ cover Ico inverted ∨ r.stop ≤ x ∧ x < ⊤ ∧ x ∉ cover Ico ranges := by
  induction ranges generalizing r inverted with
  | nil =>
    rw [TimeRanges.invertLoop]
    split
    · next hne => simpa using hi.add (r := ⟨r.stop,⊤⟩) hne.lt_top
    · next ht => exact ⟨hi,fun x => by grind⟩
  | cons next ranges ih =>
    obtain ⟨_,hbef,h⟩ := stored_cons.mp h
    obtain ⟨hn,hbef',_⟩ := stored_cons.mp h
    obtain ⟨hst,hcover⟩ := hi.add (r := ⟨r.stop,next.start⟩) (hbef next List.mem_cons_self)
    obtain ⟨hst',hcover'⟩ := ih hst h
    refine ⟨hst',fun x => (hcover' x).trans ?_⟩
    have hlt := @lt_of_mem_cover _ _ _ _ x hbef'
    have ht : next.stop ≤ ⊤ := le_top
    rw [hcover,mem_cover_cons,Set.mem_Ico]
    grind

theorem Stored.invert [Nontrivial T] (h : Stored ranges) :
    Stored (invert ranges) ∧ ∀ x, x ∈ cover Ico (invert ranges) ↔ x < ⊤ ∧ x ∉ cover Ico ranges := by
  cases ranges with
  | nil =>
    rw [TimeRanges.invert]
    simpa using stored_nil.add (r := ⟨⊥,⊤⟩) bot_lt_top
  | cons r ranges =>
    obtain ⟨hr,hb,_⟩ := stored_cons.mp h
    have hf : ∀ first, (if r.start ≠ ⊥ then TimeRanges.add [] ⊥ r.start else []) = first →
        Stored first ∧ ∀ x, x ∈ cover Ico first ↔ x < r.start := by
      rintro first rfl
      split_ifs with hne
      · simpa using stored_nil.add (r := ⟨⊥,r.start⟩) (bot_lt_iff_ne_bot.mpr hne)
      · exact ⟨stored_nil,by simp [not_ne_iff.mp hne]⟩
    obtain ⟨hst,hcover⟩ := hf _ rfl
    obtain ⟨hst',hcover'⟩ := hst.invertLoop h
    refine ⟨hst',fun x => (hcover' x).trans ?_⟩
    have hlt := @lt_of_mem_cover _ _ _ _ x hb
    have ht : r.stop ≤ ⊤ := le_top
    rw [hcover,mem_cover_cons,Set.mem_Ico]
    grind

/-- `TimeRanges` is a set algebra: the ranges that are added leave a sorted list without overlaps or
contacts that covers their closed intervals, and on lists without empty ranges the operations are
those of the half-open sets. -/
theorem set_algebra [Nontrivial T] :
    (∀ added : List (Range T), (∀ r ∈ added, r.start ≤ r.stop) →
      (∀ r ∈ addAll [] added, r.start ≤ r.stop) ∧ Sorted (addAll [] added) ∧
        cover Icc (addAll [] added) = cover Icc added) ∧
    (∀ added : List (Range T), (∀ r ∈ added, r.start < r.stop) → Stored (addAll [] added)) ∧
    ∀ ranges other : List (Range T), Stored ranges → Stored other →
      cover Ico (unionWith ranges other) = cover Ico ranges ∪ cover Ico other ∧
      cover Ico (intersectWith ranges (some other)) = cover Ico ranges ∩ cover Ico other ∧
      intersectWith ranges none = ranges ∧
      cover Ico (invert ranges) = (cover Ico ranges)ᶜ \ {⊤} ∧ invert (invert ranges) = ranges := by
  have hf : ∀ {ranges : List (Range T)} {x}, x ∈ cover Ico ranges → x < ⊤ :=
    fun ⟨r,_,hx⟩ => hx.2.trans_le le_top
  refine ⟨fun added hle => ?_,fun added hlt => (stored_nil.addAll hlt).1,
    fun ranges other h h' => ⟨(h.unionWith h').2,?_,rfl,?_,?_⟩⟩
  · obtain ⟨ha,hs,hc⟩ := addAll_spec (P := fun r => r.start ≤ r.stop)
      (fun r s hr _ => (min_le_left _ _).trans (hr.trans (le_max_left _ _))) (fun r hr => hr)
      Set.Icc_union_Icc' hle (List.forall_mem_nil _) .nil
    exact ⟨ha,hs,Set.ext fun x => (hc x).trans (by simp)⟩
  · obtain ⟨hst,hc⟩ := stored_nil.addAll h'.1
    obtain ⟨hu,hunion⟩ := h.invert.1.unionWith hst.invert.1
    ext x
    have := @hf ranges x
    rw [intersectWith,copy,hu.invert.2,hunion,Set.mem_union,h.invert.2,hst.invert.2,hc,
      Set.mem_inter_iff]
    simp only [not_mem_cover_nil]
    tauto
  · ext x
    simp [h.invert.2,lt_top_iff_ne_top,and_comm]
  · refine h.invert.1.invert.1.unique h fun x => ?_
    have := @hf ranges x
    rw [h.invert.1.invert.2,h.invert.2]
    tauto

theorem set_algebra_of_two :
    let ranges : List (Range (Fin 6)) := [⟨0, 2⟩, ⟨3, 4⟩]
    Stored ranges ∧ invert (invert ranges) = ranges ∧
      cover Ico (invert ranges) = (cover Ico ranges)ᶜ \ {⊤} ∧
      cover Ico (intersectWith ranges (some [⟨1, 5⟩])) = cover Ico ranges ∩ cover Ico [⟨1, 5⟩] := by
  intro ranges
  have hst : Stored ranges := by decide
  obtain ⟨-,-,h⟩ := set_algebra (T := Fin 6)
  obtain ⟨-,hi,-,hc,hinv⟩ := h ranges [⟨1,5⟩] hst (by decide)
  exact ⟨hst,hinv,hc,hi⟩

end QPlusWeb.TimeRanges
