import Mathlib.Data.List.TakeWhile
import Mathlib.Data.List.DropRight

/-!
# Positions in a list

A scanner moves a position through a text as long as a predicate holds.  The parts between positions
that are in order make up the whole, and a scan over a text that is known to be an append stops where
the part ends that the predicate holds of.
-/

namespace QPlusWeb.ListScans
open List

variable {α : Type*} {c : α}

/-- The part from one position up to another. -/
def slice (s : List α) (i j : ℕ) : List α := (s.drop i).take (j - i)

/-- The first position from `i` on at which the predicate does not hold. -/
def scan (p : α → Bool) (s : List α) (i : ℕ) : ℕ := i + ((s.drop i).takeWhile p).length

section
variable {s : List α} {i j k : ℕ}

theorem slice_append (hij : i ≤ j) (hjk : j ≤ k) : slice s i j++slice s j k = slice s i k := by
  have hd : s.drop j = (s.drop i).drop (j-i) := by
    rw [drop_drop]
    congr 1
    omega
  have hl : k-i = (j-i)+(k-j) := by omega
  rw [slice,slice,slice,hd,hl,take_add]

theorem slice_self : slice s i i = [] := by simp [slice]

theorem slice_zero_length : slice s 0 s.length = s := by simp [slice]

/-- A part of an append that is one of its members. -/
theorem slice_mid (a m r : List α) : slice (a++(m++r)) a.length (a.length+m.length) = m := by
  simp [slice]

theorem slice_of_eq_append {a m r : List α} (hs : s = a++(m++r)) (hi : i = a.length)
    (hj : j = (a++m).length) : slice s i j = m := by
  rw [hs,hi,hj,length_append]
  exact slice_mid a m r

theorem slice_of_prefix {a m : List α} (h : a++m <+: s) : slice s a.length (a++m).length = m := by
  obtain ⟨r,rfl⟩ := h
  exact slice_of_eq_append (append_assoc ..) rfl rfl

theorem slice_one (h : s[i]? = some c) : slice s i (i+1) = [c] := by
  obtain ⟨hlt,hc⟩ := List.getElem?_eq_some_iff.mp h
  simp [slice,drop_eq_getElem_cons hlt,hc]

end

section Scans
variable {p q : α → Bool} {s : List α} {i : ℕ}

theorem head?_dropWhile_eq (h : c ∈ (s.dropWhile p).head?) : p c = false := by
  have hn := head?_dropWhile_not p s
  rw [Option.mem_def.mp h] at hn
  simpa using hn

/-- A list is split where the predicate fails first. -/
theorem takeWhile_dropWhile_append {a r : List α} (ha : ∀ c ∈ a, p c)
    (hr : ∀ c ∈ r.head?, p c = false) : (a++r).takeWhile p = a ∧ (a++r).dropWhile p = r := by
  have hs : r.takeWhile p = [] ∧ r.dropWhile p = r := by
    cases r with
    | nil => exact ⟨rfl,rfl⟩
    | cons c r =>
      have hc : ¬p c := by simp [hr c rfl]
      exact ⟨takeWhile_cons_of_neg hc,dropWhile_cons_of_neg hc⟩
  rw [takeWhile_append_of_pos ha,dropWhile_append_of_pos ha,hs.1,hs.2]
  exact ⟨append_nil _,rfl⟩

theorem le_scan : i ≤ scan p s i := Nat.le_add_right _ _

theorem scan_le (h : i ≤ s.length) : scan p s i ≤ s.length := by
  have hle := (List.takeWhile_prefix (l := s.drop i) p).length_le
  rw [length_drop] at hle
  unfold scan
  omega

theorem slice_scan : slice s i (scan p s i) = (s.drop i).takeWhile p := by
  have hp := takeWhile_prefix (l := s.drop i) p
  rw [slice,scan,Nat.add_sub_cancel_left]
  exact (prefix_iff_eq_take.mp hp).symm

theorem of_mem_slice_scan (h : c ∈ slice s i (scan p s i)) : p c := by
  rw [slice_scan] at h
  exact mem_takeWhile_imp h

theorem drop_scan : s.drop (scan p s i) = (s.drop i).dropWhile p := by
  have hs := takeWhile_append_dropWhile (p := p) (l := s.drop i)
  rw [scan,← drop_drop]
  conv_lhs => arg 2; rw [← hs]
  rw [drop_left]

/-- The scan stops before an element of which the predicate does not hold. -/
theorem scan_stop (h : s[scan p s i]? = some c) : p c = false := by
  rw [← head?_drop,drop_scan] at h
  exact head?_dropWhile_eq h

theorem scan_eq_self (h : ∀ c ∈ s[i]?, p c = false) : scan p s i = i := by
  rw [← head?_drop] at h
  have hn := (takeWhile_dropWhile_append (a := []) (by simp) h).1
  rw [scan,← nil_append (s.drop i),hn,length_nil,Nat.add_zero]

/-- Up to where the scan stops the predicate holds. -/
theorem exists_of_lt_scan {k : ℕ} (hik : i ≤ k) (hk : k < scan p s i) :
    ∃ c, s[k]? = some c ∧ p c := by
  have hlt : k-i < ((s.drop i).takeWhile p).length := by
    unfold scan at hk
    omega
  obtain ⟨rest,hr⟩ := takeWhile_prefix (l := s.drop i) p
  have hg : ((s.drop i).takeWhile p++rest)[k-i]? = ((s.drop i).takeWhile p)[k-i]? :=
    getElem?_append_left hlt
  rw [hr,getElem?_eq_getElem hlt,getElem?_drop,Nat.add_sub_cancel' hik] at hg
  exact ⟨_,hg,mem_takeWhile_imp (getElem_mem hlt)⟩

theorem scan_and_le : scan (fun c => p c && q c) s i ≤ scan p s i := by
  by_contra hlt
  obtain ⟨c,hc,hpq⟩ := exists_of_lt_scan le_scan (not_le.mp hlt)
  have hs := scan_stop hc
  rw [Bool.and_eq_true] at hpq
  rw [hpq.1] at hs
  cases hs

/-- A scan with one more condition stops earlier only because of that one. -/
theorem exists_of_scan_and_ne (h : scan (fun c => p c && q c) s i ≠ scan p s i) :
    ∃ c, s[scan (fun c => p c && q c) s i]? = some c ∧ q c = false := by
  obtain ⟨c,hc,hp⟩ := exists_of_lt_scan le_scan (lt_of_le_of_ne scan_and_le h)
  have hs := scan_stop hc
  rw [hp,Bool.true_and] at hs
  exact ⟨c,hc,hs⟩

end Scans

end QPlusWeb.ListScans
