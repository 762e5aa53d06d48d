import Mathlib.Order.Bounds.Basic
import Mathlib.Data.Set.Basic
import Mathlib.Tactic.Tauto
import Mathlib.Tactic.SplitIfs

/-!
# Finite ordered tables and directed positions

A table is a strictly sorted list of entries, so its keys are distinct and it
can be walked in both directions. A position is an optional key; `none` lies
past the end in the direction of travel. `IsFirst` says that a position is the
first element of a set met in that direction, and every search of a table is
specified by it once. Callers never unfold a search.
-/
namespace QPlusWeb.OrderedTable
open List Option

inductive Direction where
  | forward | reverse
  deriving DecidableEq, Repr

section Positions
variable {K : Type*} [LinearOrder K] {d : Direction} {p : Option K} {S : Set K}

/-- `a` is met strictly before `b` when travelling in the given direction. -/
def Precedes : Direction → K → K → Prop
  | .forward, a, b => a < b
  | .reverse, a, b => b < a

@[simp] theorem precedes_forward (a b : K) : Precedes .forward a b ↔ a < b := Iff.rfl
@[simp] theorem precedes_reverse (a b : K) : Precedes .reverse a b ↔ b < a := Iff.rfl

instance decidablePrecedes : (d : Direction) → (a b : K) → Decidable (Precedes d a b)
  | .forward, a, b => inferInstanceAs (Decidable (a < b))
  | .reverse, a, b => inferInstanceAs (Decidable (b < a))

theorem Precedes.trans {a b c : K} (h : Precedes d a b) (h' : Precedes d b c) : Precedes d a c := by
  cases d
  · exact lt_trans h h'
  · exact lt_trans h' h

theorem Precedes.irrefl (d : Direction) (a : K) : ¬Precedes d a a := by
  cases d <;> exact lt_irrefl a

theorem Precedes.asymm {a b : K} (h : Precedes d a b) : ¬Precedes d b a :=
  fun h' => Precedes.irrefl d a (h.trans h')

theorem precedes_trichotomy (d : Direction) (a b : K) :
    Precedes d a b ∨ a = b ∨ Precedes d b a := by
  cases d
  · exact lt_trichotomy a b
  · rcases lt_trichotomy a b with h | h | h
    · exact Or.inr (Or.inr h)
    · exact Or.inr (Or.inl h)
    · exact Or.inl h

/-- A key lies before a position; the end position is after every key. -/
def Before (d : Direction) (x : K) (p : Option K) : Prop :=
  ∀ k, p = some k → Precedes d x k

@[simp] theorem before_none (d : Direction) (x : K) : Before d x none := by
  simp [Before]

@[simp] theorem before_some (d : Direction) (x k : K) : Before d x (some k) ↔ Precedes d x k := by
  simp [Before]

instance decidableBefore (d : Direction) (x : K) : (p : Option K) → Decidable (Before d x p)
  | none => isTrue (before_none d x)
  | some k => decidable_of_iff (Precedes d x k) (before_some d x k).symm

/-- The position is the first member of the set in travel order, or the end
position when the set is empty. -/
def IsFirst : Direction → Set K → Option K → Prop
  | _, S, none => S = ∅
  | .forward, S, some k => IsLeast S k
  | .reverse, S, some k => IsGreatest S k

theorem isFirst_iff (d : Direction) (S : Set K) (p : Option K) :
    IsFirst d S p ↔ (∀ k, p = some k → k ∈ S) ∧ ∀ x ∈ S, ¬Before d x p := by
  cases p with
  | none => cases d <;> simp [IsFirst,Set.eq_empty_iff_forall_notMem]
  | some k =>
    cases d <;>
      simp [IsFirst,IsLeast,IsGreatest,lowerBounds,upperBounds]

theorem IsFirst.mem {k : K} (h : IsFirst d S p) (hp : p = some k) : k ∈ S :=
  ((isFirst_iff d S p).mp h).1 k hp

theorem IsFirst.not_before (h : IsFirst d S p) {x : K} (hx : x ∈ S) : ¬Before d x p :=
  ((isFirst_iff d S p).mp h).2 x hx

theorem IsFirst.unique {q : Option K} (hp : IsFirst d S p) (hq : IsFirst d S q) : p = q := by
  cases p with
  | none =>
    cases q with
    | none => rfl
    | some k => exact absurd (before_none d k) (hp.not_before (hq.mem rfl))
  | some j =>
    cases q with
    | none => exact absurd (before_none d j) (hq.not_before (hp.mem rfl))
    | some k =>
      have hjk := hp.not_before (hq.mem rfl)
      have hkj := hq.not_before (hp.mem rfl)
      rw [before_some] at hjk hkj
      have := precedes_trichotomy d j k
      tauto

theorem IsFirst.congr {T : Set K}
    (h : IsFirst d S p) (hST : ∀ x, x ∈ S ↔ x ∈ T) : IsFirst d T p := by
  have he : S = T := Set.ext hST
  exact he ▸ h

end Positions

/-- Entries are strictly increasing in their keys. -/
structure Table (K V : Type*) [LinearOrder K] where
  entries : List (K × V)
  sorted : entries.Pairwise (fun a b => a.1 < b.1)

namespace Table
variable {K V : Type*} [LinearOrder K] {t : Table K V} {k : K} {es : List (K × V)} {v : V}

def empty : Table K V := ⟨[], List.Pairwise.nil⟩

def keys (t : Table K V) : Set K := {k | ∃ v, (k, v) ∈ t.entries}

def keyList (t : Table K V) : List K := t.entries.map Prod.fst

def get (t : Table K V) (k : K) : Option V :=
  (t.entries.find? (fun e => decide (e.1 = k))).map Prod.snd

def firstKey (t : Table K V) (p : K → Bool) : Option K :=
  (t.entries.find? (fun e => p e.1)).map Prod.fst

def lastKey (t : Table K V) (p : K → Bool) : Option K :=
  (t.entries.reverse.find? (fun e => p e.1)).map Prod.fst

def equalKey (t : Table K V) (k : K) : Option K := t.firstKey (fun x => decide (x = k))
def ceiling (t : Table K V) (k : K) : Option K := t.firstKey (fun x => decide (k ≤ x))
def after (t : Table K V) (k : K) : Option K := t.firstKey (fun x => decide (k < x))
def before (t : Table K V) (k : K) : Option K := t.lastKey (fun x => decide (x < k))
def last (t : Table K V) : Option K := t.lastKey (fun _ => true)

/-- One step of a cursor standing on `k`. -/
def step (t : Table K V) : Direction → K → Option K
  | .forward, k => t.after k
  | .reverse, k => t.before k

theorem mem_keys : k ∈ t.keys ↔ k ∈ t.keyList := by
  simp [keys,keyList]

/-- Searching a list sorted in travel order stops at the first accepted key. -/
theorem find?_isFirst {d : Direction}
    (h : es.Pairwise (fun a b => Precedes d a.1 b.1)) (p : K → Bool) :
    IsFirst d {x | (∃ v, (x,v) ∈ es) ∧ p x = true} ((es.find? (fun e => p e.1)).map Prod.fst) := by
  rw [isFirst_iff]
  refine ⟨?_,?_⟩
  · intro k hk
    obtain ⟨e,he,rfl⟩ := map_eq_some_iff.mp hk
    exact ⟨⟨e.2,mem_of_find?_eq_some he⟩,by simpa using find?_some he⟩
  · rintro x ⟨⟨v,hx⟩,hpx⟩ hb
    induction es with
    | nil => simp at hx
    | cons e es ih =>
      rw [pairwise_cons] at h
      by_cases hp : p e.1
      · simp only [find?_cons,hp,map_some,before_some] at hb
        rcases mem_cons.mp hx with rfl | hx
        · exact Precedes.irrefl d _ hb
        · exact hb.asymm (h.1 _ hx)
      · rcases mem_cons.mp hx with rfl | hx
        · exact hp hpx
        · simp only [find?_cons,hp] at hb
          exact ih h.2 hx hb

section
variable (t : Table K V)

theorem firstKey_isFirst (p : K → Bool) :
    IsFirst .forward {x | x ∈ t.keys ∧ p x = true} (t.firstKey p) :=
  find?_isFirst t.sorted p

theorem lastKey_isFirst (p : K → Bool) :
    IsFirst .reverse {x | x ∈ t.keys ∧ p x = true} (t.lastKey p) :=
  (find?_isFirst (d := .reverse) (pairwise_reverse.mpr t.sorted) p).congr (by simp [keys])

theorem ceiling_isFirst (k : K) : IsFirst .forward {x | x ∈ t.keys ∧ k ≤ x} (t.ceiling k) :=
  (t.firstKey_isFirst _).congr (by simp)

theorem after_isFirst (k : K) : IsFirst .forward {x | x ∈ t.keys ∧ k < x} (t.after k) :=
  (t.firstKey_isFirst _).congr (by simp)

theorem before_isFirst (k : K) : IsFirst .reverse {x | x ∈ t.keys ∧ x < k} (t.before k) :=
  (t.lastKey_isFirst _).congr (by simp)

theorem last_isFirst : IsFirst .reverse t.keys t.last := (t.lastKey_isFirst _).congr (by simp)

theorem step_isFirst (d : Direction) (k : K) :
    IsFirst d {x | x ∈ t.keys ∧ Precedes d k x} (t.step d k) := by
  cases d
  · exact t.after_isFirst k
  · exact t.before_isFirst k

end

theorem step_congr {W : Type*} {u : Table K W}
    (h : ∀ x, x ∈ t.keys ↔ x ∈ u.keys) (d : Direction) (k : K) : t.step d k = u.step d k :=
  ((t.step_isFirst d k).congr fun x => and_congr_left' (h x)).unique (u.step_isFirst d k)

/-- A ceiling probe followed by one step off an equal key finds the successor. -/
theorem ceiling_then_after (t : Table K V) (k : K) : (match t.ceiling k with
      | some b => if b = k then t.after b else some b
      | none => none) = t.after k := by
  have hc := t.ceiling_isFirst k
  refine IsFirst.unique (d := .forward) ?_ (t.after_isFirst k)
  cases h : t.ceiling k with
  | none =>
    rw [h] at hc
    rw [isFirst_iff]
    exact ⟨by simp,fun x hx _ => hc.not_before ⟨hx.1,hx.2.le⟩ (before_none _ x)⟩
  | some b =>
    rw [h] at hc
    by_cases hb : b = k
    · simpa [hb] using t.after_isFirst k
    · simp only [hb,if_false]
      have hm := hc.mem rfl
      exact ⟨⟨hm.1,lt_of_le_of_ne hm.2 (Ne.symm hb)⟩,fun x hx => hc.2 ⟨hx.1,hx.2.le⟩⟩

/-- Stepping back from the ceiling, or from the end, finds the predecessor. -/
theorem ceiling_then_before (t : Table K V) (k : K) : (match t.ceiling k with
      | some b => t.before b
      | none => t.last) = t.before k := by
  have hc := t.ceiling_isFirst k
  refine IsFirst.unique (d := .reverse) ?_ (t.before_isFirst k)
  cases h : t.ceiling k with
  | none =>
    rw [h] at hc
    refine t.last_isFirst.congr ?_
    intro x
    refine ⟨fun hx => ⟨hx,?_⟩,fun hx => hx.1⟩
    by_contra hk
    exact hc.not_before ⟨hx,not_lt.mp hk⟩ (before_none _ x)
  | some b =>
    rw [h] at hc
    refine (t.before_isFirst b).congr ?_
    intro x
    refine ⟨fun hx => ⟨hx.1,?_⟩,fun hx => ⟨hx.1,lt_of_lt_of_le hx.2 (hc.mem rfl).2⟩⟩
    by_contra hk
    exact not_lt.mpr (hc.2 ⟨hx.1,not_lt.mp hk⟩) hx.2

theorem equalKey_of_mem (h : k ∈ t.keys) : t.equalKey k = some k := by
  refine (t.firstKey_isFirst _).unique ⟨⟨h,decide_eq_true rfl⟩,fun x hx => ?_⟩
  exact (of_decide_eq_true hx.2).ge

theorem equalKey_of_notMem (h : k ∉ t.keys) : t.equalKey k = none := by
  refine (t.firstKey_isFirst _).unique (Set.eq_empty_of_forall_notMem fun x hx => h ?_)
  exact of_decide_eq_true hx.2 ▸ hx.1

theorem get_eq_some_iff : t.get k = some v ↔ (k,v) ∈ t.entries := by
  obtain ⟨es,hs⟩ := t
  simp only [get]
  induction es with
  | nil => simp
  | cons e es ih =>
    have hc := pairwise_cons.mp hs
    by_cases he : e.1 = k
    · subst he
      have hes : (e.1,v) ∉ es := fun hm => lt_irrefl e.1 (hc.1 (e.1,v) hm)
      simp only [find?_cons,decide_true,map_some,Option.some.injEq,mem_cons,hes,or_false]
      constructor
      · rintro rfl
        rfl
      · intro h
        rw [← h]
    · have hne : (k,v) ≠ e := fun h => he (by rw [← h])
      simp only [find?_cons,he,decide_false,mem_cons,hne,false_or]
      exact ih hc.2

theorem get_isSome_iff : (t.get k).isSome ↔ k ∈ t.keys := by
  rw [isSome_iff_exists]
  exact exists_congr fun v => get_eq_some_iff

theorem get_eq_none_iff : t.get k = none ↔ k ∉ t.keys := by
  rw [← get_isSome_iff,not_isSome_iff_eq_none]

/-- Insert a new entry at its place, or replace the entry with the same key. -/
def setEntries (k : K) (v : V) : List (K × V) → List (K × V)
  | [] => [(k, v)]
  | e :: es =>
    if k < e.1 then (k, v) :: e :: es
    else if k = e.1 then (k, v) :: es
    else e :: setEntries k v es

theorem mem_setEntries {x : K × V} (h : x ∈ setEntries k v es) : x = (k,v) ∨ x ∈ es := by
  induction es with
  | nil => simpa [setEntries] using h
  | cons e es ih =>
    unfold setEntries at h
    split_ifs at h
    · simpa using h
    · rcases mem_cons.mp h with h | h
      · exact Or.inl h
      · exact Or.inr (mem_cons_of_mem _ h)
    · rcases mem_cons.mp h with h | h
      · exact Or.inr (h ▸ mem_cons_self)
      · exact (ih h).imp_right (mem_cons_of_mem _)

theorem setEntries_sorted (k : K) (v : V) (h : es.Pairwise (fun a b => a.1 < b.1)) :
    (setEntries k v es).Pairwise (fun a b => a.1 < b.1) := by
  induction es with
  | nil => simp [setEntries]
  | cons e es ih =>
    have hc := pairwise_cons.mp h
    unfold setEntries
    split_ifs with hlt heq
    · refine pairwise_cons.mpr ⟨forall_mem_cons.mpr ⟨hlt,fun x hx => ?_⟩,h⟩
      exact lt_trans hlt (hc.1 x hx)
    · subst heq
      exact pairwise_cons.mpr ⟨hc.1,hc.2⟩
    · refine pairwise_cons.mpr ⟨?_,ih hc.2⟩
      intro x hx
      rcases mem_setEntries hx with rfl | hx
      · exact lt_of_le_of_ne (not_lt.mp hlt) (Ne.symm heq)
      · exact hc.1 x hx

def set (t : Table K V) (k : K) (v : V) : Table K V :=
  ⟨setEntries k v t.entries, setEntries_sorted k v t.sorted⟩

theorem get_set (t : Table K V) (k : K) (v : V) (x : K) :
    (t.set k v).get x = if x = k then some v else t.get x := by
  obtain ⟨es,hs⟩ := t
  simp only [get,set]
  clear hs
  induction es with
  | nil =>
    by_cases hx : x = k
    · simp [setEntries,hx]
    · simp [setEntries,hx,Ne.symm hx]
  | cons e es ih =>
    unfold setEntries
    by_cases hlt : k < e.1
    · by_cases hx : x = k
      · simp [hlt,hx]
      · simp [hlt,hx,Ne.symm hx]
    · by_cases heq : k = e.1
      · by_cases hx : x = k
        · simp [heq,hx]
        · have hex : e.1 ≠ x := fun h => hx (by rw [heq,h])
          simp [heq,hex,Ne.symm hex]
      · by_cases he : e.1 = x
        · have hx : x ≠ k := fun h => heq (by rw [he,h])
          rw [if_neg hlt,if_neg heq,if_neg hx]
          simp [he]
        · simp [hlt,heq,he,ih]

theorem mem_keys_set {k x : K} : x ∈ (t.set k v).keys ↔ x = k ∨ x ∈ t.keys := by
  rw [← get_isSome_iff,← get_isSome_iff,get_set]
  split_ifs with h <;> simp [h]

/-- Overwriting an entry leaves the key sequence as it was. -/
theorem keyList_set_of_mem (v : V) (h : k ∈ t.keys) : (t.set k v).keyList = t.keyList := by
  obtain ⟨u,hu⟩ := h
  obtain ⟨es,hs⟩ := t
  simp only [keyList,set] at hu ⊢
  induction es with
  | nil => simp at hu
  | cons e es ih =>
    have hc := pairwise_cons.mp hs
    unfold setEntries
    split_ifs with hlt heq
    · rcases mem_cons.mp hu with rfl | hu
      · exact absurd hlt (lt_irrefl _)
      · exact absurd (hc.1 _ hu) (lt_asymm hlt)
    · simp [heq]
    · rcases mem_cons.mp hu with rfl | hu
      · exact absurd rfl heq
      · simp [ih hc.2 hu]

end Table

end QPlusWeb.OrderedTable
