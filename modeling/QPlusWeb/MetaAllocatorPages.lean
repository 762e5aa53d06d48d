import QPlusWeb.MetaAllocator
import Mathlib.Data.List.Count
import Mathlib.Data.List.Range
import Mathlib.Data.Finset.Card

/-!
# Pages in use

`Counts b s occ` says that the page map holds the numbers `occ`, that the committed
bytes are those of the pages with a number, and that the calls about each page have
alternated so far. Incrementing and decrementing a list of pages adds and takes
away how often a page is in the list.
-/
namespace QPlusWeb.MetaAllocation

open Ranges List Range Function Nat Finset

namespace Pages
variable {b : Build} {s u : Pages} {occ : ℕ → ℕ} {page p n a : ℕ}
  (handles : List MetaAllocatorHandle)

/-- What a call says about the commitment of a page; no state means that the calls
did not alternate. -/
def observe (page : ℕ) (state : Option Bool) : PageCall → Option Bool
  | .notifyNeedPage q =>
    if q ≠ page then state else if state = some false then some true else none
  | .notifyPageIsFree q =>
    if q ≠ page then state else if state = some true then some false else none

/-- Whether a page is committed after some calls, if those about it have alternated,
starting with `notifyNeedPage`. -/
def committed (page : ℕ) (calls : List PageCall) : Option Bool :=
  calls.foldl (observe page) (some false)

structure Counts (b : Build) (s : Pages) (occ : ℕ → ℕ) : Prop where
  map : ∀ p, s.occupancyMap p = if occ p = 0 then none else some (occ p)
  bytes : ∃ P : Finset ℕ, (∀ p, p ∈ P ↔ occ p ≠ 0) ∧ s.bytesCommitted = P.card * b.pageSize
  calls : ∀ p, committed (p <<< b.logPageSize) s.calls = some (decide (occ p ≠ 0))

theorem shift_inj (b : Build) {p q : ℕ} (h : p <<< b.logPageSize = q <<< b.logPageSize) :
    p = q := by
  rw [shiftLeft_eq,shiftLeft_eq] at h
  exact eq_of_mul_eq_mul_right (Nat.two_pow_pos _) h

theorem committed_append (page : ℕ) (calls : List PageCall) (c : PageCall) :
    committed page (calls++[c]) = observe page (committed page calls) c := by
  simp [committed]

section
variable (h : Counts b s occ)
include h

/-- The number of one page changes, and with it the committed bytes and the calls. -/
theorem Counts.update
    (hmap : u.occupancyMap = Function.update s.occupancyMap page (if n = 0 then none else some n))
    (hb : u.bytesCommitted+(if occ page = 0 then 0 else b.pageSize) =
      s.bytesCommitted+(if n = 0 then 0 else b.pageSize))
    (hc : ∀ p ≠ page, committed (p <<< b.logPageSize) u.calls =
      committed (p <<< b.logPageSize) s.calls)
    (hpage : committed (page <<< b.logPageSize) u.calls = some (decide (n ≠ 0))) :
    Counts b u (Function.update occ page n) := by
  obtain ⟨P,hP,hcard⟩ := h.bytes
  refine ⟨fun p => ?_,⟨if n = 0 then P.erase page else insert page P,fun p => ?_,?_⟩,fun p => ?_⟩
  · rw [hmap]
    by_cases hp : p = page
    · rw [hp,update_self,update_self]
    · rw [update_of_ne hp,update_of_ne hp,h.map p]
  · by_cases hp : p = page
    · split <;> simp_all
    · rw [update_of_ne hp,← hP p]
      split <;> simp [hp]
  · have hm := hP page
    by_cases hn : n = 0 <;> by_cases ho : occ page = 0
    · simp only [hn,ho,if_true] at hb hm ⊢
      rw [erase_eq_of_notMem (by simp [hm])]
      omega
    · simp only [hn,ho,if_true,if_false] at hb ⊢
      have hone := card_erase_add_one (hm.mpr ho)
      rw [hcard,← hone,Nat.add_one_mul] at hb
      omega
    · simp only [hn,ho,if_true,if_false] at hb ⊢
      rw [card_insert_of_notMem fun hin => hm.mp hin ho,Nat.add_one_mul]
      omega
    · simp only [hn,ho,if_false] at hb ⊢
      rw [insert_eq_of_mem (hm.mpr ho)]
      omega
  · by_cases hp : p = page
    · rw [hp,update_self,hpage]
    · rw [update_of_ne hp,hc p hp,h.calls p]

theorem Counts.incrementPage (page : ℕ) :
    Counts b (s.incrementPage b page) (Function.update occ page (occ page+1)) := by
  have hm := h.map page
  by_cases hz : occ page = 0
  · rw [if_pos hz] at hm
    refine h.update ?_ ?_ (fun p hp => ?_) ?_
    · simp [Pages.incrementPage,hm,hz]
    · simp [Pages.incrementPage,hm,hz]
    · have hne : page <<< b.logPageSize ≠ p <<< b.logPageSize := fun heq =>
        hp (shift_inj b heq).symm
      simp [Pages.incrementPage,hm,committed_append,observe,hne]
    · simp [Pages.incrementPage,hm,committed_append,observe,h.calls page,hz]
  · rw [if_neg hz] at hm
    refine h.update ?_ ?_ (fun p hp => ?_) ?_
    · simp [Pages.incrementPage,hm]
    · simp [Pages.incrementPage,hm,hz]
    · simp [Pages.incrementPage,hm]
    · simp [Pages.incrementPage,hm,h.calls page,hz]

theorem Counts.decrementPage (hn : occ page = n+1) :
    ∃ u, s.decrementPage b page = some u ∧ Counts b u (Function.update occ page n) := by
  have hm := h.map page
  rw [hn,if_neg n.succ_ne_zero] at hm
  by_cases hz : n = 0
  · refine ⟨_,by simp [Pages.decrementPage,hm,hz]; rfl,?_⟩
    have hc : b.pageSize ≤ s.bytesCommitted := by
      obtain ⟨P,hP,hb⟩ := h.bytes
      have hpos : 0 < P.card := Finset.card_pos.mpr ⟨page,(hP page).mpr (by omega)⟩
      rw [hb]
      exact Nat.le_mul_of_pos_left _ hpos
    refine h.update ?_ ?_ (fun p hp => ?_) ?_
    · simp [hz]
    · have hb : s.bytesCommitted-b.pageSize+b.pageSize = s.bytesCommitted := Nat.sub_add_cancel hc
      simp [hn,hz,hb]
    · have hne : page <<< b.logPageSize ≠ p <<< b.logPageSize := fun heq =>
        hp (shift_inj b heq).symm
      simp [committed_append,observe,hne]
    · simp [committed_append,observe,h.calls page,hn,hz]
  · refine ⟨_,by simp [Pages.decrementPage,hm,hz]; rfl,?_⟩
    refine h.update ?_ ?_ (fun p hp => ?_) ?_
    · simp [hz]
    · simp [hn,hz]
    · rfl
    · simp [h.calls page,hn,hz]

theorem Counts.increments (l : List ℕ) :
    Counts b (l.foldl (Pages.incrementPage b) s) fun p => occ p+l.count p := by
  induction l generalizing s occ with
  | nil => simpa using h
  | cons page l ih =>
    refine cast (congrArg _ ?_) (ih (h.incrementPage page))
    funext p
    by_cases hp : p = page
    · rw [hp,update_self,count_cons_self]
      omega
    · rw [update_of_ne hp,count_cons_of_ne (Ne.symm hp)]

end

/-- Decrementing a list of pages finds every page that has been counted. -/
theorem Counts.decrements {l : List ℕ} (h : Counts b s fun p => occ p+l.count p) :
    ∃ u, l.foldlM (Pages.decrementPage b) s = some u ∧ Counts b u occ := by
  induction l generalizing s with
  | nil => exact ⟨s,rfl,by simpa using h⟩
  | cons page l ih =>
    have hpage : occ page+(page::l).count page = occ page+l.count page+1 := by
      rw [count_cons_self]
      omega
    obtain ⟨v,hv,hc⟩ := h.decrementPage hpage
    have ho : Function.update (fun p => occ p+(page::l).count p) page
        (occ page+l.count page) = fun p => occ p+l.count p := by
      funext p
      by_cases hp : p = page
      · rw [hp,update_self]
      · rw [update_of_ne hp,count_cons_of_ne (Ne.symm hp)]
    rw [ho] at hc
    obtain ⟨u,hu,hcounts'⟩ := ih hc
    refine ⟨u,?_,hcounts'⟩
    rw [foldlM_cons,hv]
    exact hu

/-! ### The pages of a range -/

theorem pageSize_pos (b : Build) : 0 < b.pageSize := Nat.two_pow_pos _

/-- A page as a range of addresses. -/
def pageRange (b : Build) (p : ℕ) : Range := ⟨p * b.pageSize, b.pageSize⟩

/-- The range and the page have an address in common. -/
def Touches (b : Build) (r : Range) (p : ℕ) : Prop := ∃ a, a ∈ r ∧ a ∈ pageRange b p

theorem mem_pageRange : a ∈ pageRange b p ↔ a / b.pageSize = p := by
  have hl : p ≤ a / b.pageSize ↔ p*b.pageSize ≤ a := Nat.le_div_iff_mul_le (pageSize_pos b)
  have hh : a / b.pageSize < p+1 ↔ a < p*b.pageSize+b.pageSize := by
    rw [Nat.div_lt_iff_lt_mul (pageSize_pos b),Nat.add_one_mul]
  rw [mem_iff,stop]
  simp only [pageRange]
  omega

theorem touches_iff {r : Range} : Touches b r p ↔
    0 < r.size ∧ r.start / b.pageSize ≤ p ∧ p ≤ (r.stop-1) / b.pageSize := by
  constructor
  · rintro ⟨a,⟨hl,hh⟩,hp⟩
    rw [mem_pageRange] at hp
    subst hp
    refine ⟨?_,Nat.div_le_div_right hl,Nat.div_le_div_right (by omega)⟩
    rw [stop] at hh
    omega
  · rintro ⟨hs,hl,hh⟩
    refine ⟨max r.start (p*b.pageSize),⟨le_max_left _ _,?_⟩,?_⟩
    · have hm := (Nat.le_div_iff_mul_le (pageSize_pos b)).mp hh
      rw [stop] at hm ⊢
      omega
    · have hlt := (Nat.div_lt_iff_lt_mul (pageSize_pos b)).mp (lt_add_one_of_le hl)
      rw [Nat.add_one_mul] at hlt
      have hpos := pageSize_pos b
      simp only [mem_iff,stop,pageRange]
      omega

instance (b : Build) (r : Range) (p : ℕ) : Decidable (Touches b r p) :=
  decidable_of_iff _ touches_iff.symm

/-- The number of handles on a page. -/
def occupancy (b : Build) (handles : List MetaAllocatorHandle) (p : ℕ) : ℕ :=
  handles.countP fun h => Touches b h p

/-- The pages from the page of one address to that of another. -/
theorem touched_eq {address size : ℕ} (h : address+size ≤ addressSpace) (hs : 0 < size) :
    touched b address size = List.range' (address / b.pageSize)
      ((address+size-1) / b.pageSize+1-address / b.pageSize) := by
  have hlt : address+size-1 < addressSpace := by omega
  simp only [touched,mod_eq_of_lt hlt,shiftRight_eq_div_pow]
  rfl

theorem count_touched {r : Range} (h : r.stop ≤ addressSpace) (hs : 0 < r.size) (p : ℕ) :
    (touched b r.start r.size).count p = if Touches b r p then 1 else 0 := by
  rw [touched_eq h hs,(nodup_range' 1).count]
  congr 1
  rw [mem_range'_1,touches_iff,stop]
  simp only [eq_iff_iff]
  omega

theorem occupancy_cons {h : MetaAllocatorHandle}
    (hstop : h.stop ≤ addressSpace) (hs : 0 < h.size) (p : ℕ) :
    occupancy b (h::handles) p = occupancy b handles p+(touched b h.start h.size).count p := by
  rw [count_touched hstop hs,occupancy,countP_cons]
  simp [occupancy]

theorem occupancy_cons_empty {h : MetaAllocatorHandle}
    (hs : h.size = 0) (p : ℕ) : occupancy b (h::handles) p = occupancy b handles p := by
  have hn : ¬Touches b h p := fun ht => by
    have := (touches_iff.mp ht).1
    omega
  simp [occupancy,hn]

/-! ### The pages that a shrunken handle gives up -/

section
variable {h : MetaAllocatorHandle} {new : ℕ}

/-- The page number of `firstCompletelyFreePage`. -/
def firstFree (b : Build) (freeStart : ℕ) : ℕ := (freeStart + b.pageSize - 1) / b.pageSize

/-- The pages in front of the first completely free one. -/
def kept (b : Build) (h : MetaAllocatorHandle) (new : ℕ) : List ℕ :=
  List.range' (h.start / b.pageSize) (firstFree b (h.start + new) - h.start / b.pageSize)

theorem firstCompletelyFreePage_eq (ha : a+b.pageSize ≤ addressSpace) :
    MetaAllocator.firstCompletelyFreePage b a = firstFree b a*b.pageSize := by
  have hp := pageSize_pos b
  have hlt : a+b.pageSize-1 < addressSpace := by omega
  rw [MetaAllocator.firstCompletelyFreePage,Build.alignDown,mod_eq_of_lt hlt,
    shiftRight_eq_div_pow,shiftLeft_eq]
  rfl

theorem le_firstFree_mul (a : ℕ) : a ≤ firstFree b a*b.pageSize := by
  have hp := pageSize_pos b
  have hd := div_add_mod' (a+b.pageSize-1) b.pageSize
  have hm := mod_lt (a+b.pageSize-1) hp
  rw [firstFree]
  omega

theorem range'_cut {m : ℕ} (ham : a ≤ m) (hmn : m ≤ n) :
    List.range' a (n-a) = List.range' a (m-a)++List.range' m (n-m) := by
  have hl : n-a = (m-a)+(n-m) := by omega
  have hs : m = a+(m-a) := by omega
  rw [hl,← range'_append_1,← hs]

/-- The pages of a handle are those it keeps and those it gives up. -/
theorem touched_split (hn : new < h.size) (hs : h.stop+b.pageSize ≤ addressSpace) :
    touched b h.start h.size = kept b h new ++
      if firstFree b (h.start+new)*b.pageSize < h.stop then
        touched b (firstFree b (h.start+new)*b.pageSize)
          (h.size-new-(firstFree b (h.start+new)*b.pageSize-(h.start+new)))
      else [] := by
  have hp := pageSize_pos b
  have hc := le_firstFree_mul (b := b) (h.start+new)
  have hlow : h.start / b.pageSize ≤ firstFree b (h.start+new) := Nat.div_le_div_right (by omega)
  have hh : firstFree b (h.start+new) ≤ (h.start+h.size-1) / b.pageSize+1 := by
    rw [← add_div_right _ hp]
    exact Nat.div_le_div_right (by omega)
  have hi : firstFree b (h.start+new)*b.pageSize < h.stop ↔
      firstFree b (h.start+new) ≤ (h.start+h.size-1) / b.pageSize := by
    rw [Nat.le_div_iff_mul_le hp,stop]
    omega
  rw [stop] at hs
  rw [touched_eq (by omega) (by omega),kept]
  by_cases hlt : firstFree b (h.start+new)*b.pageSize < h.stop
  · have hle := hi.mp hlt
    rw [stop] at hlt
    rw [if_pos (by rwa [stop]),touched_eq (by omega) (by omega),Nat.mul_div_cancel _ hp]
    have hl : firstFree b (h.start+new)*b.pageSize +
        (h.size-new-(firstFree b (h.start+new)*b.pageSize-(h.start+new)))-1 =
        h.start+h.size-1 := by omega
    rw [hl]
    exact range'_cut hlow hh
  · rw [if_neg hlt,append_nil]
    have hl : firstFree b (h.start+new) = (h.start+h.size-1) / b.pageSize+1 := by
      omega
    rw [hl]

/-- A handle that keeps something keeps exactly the pages in front of the free ones. -/
theorem kept_of_pos (hn : 0 < new) (hs : h.start+new ≤ addressSpace) :
    kept b h new = touched b h.start new := by
  have hp := pageSize_pos b
  have hf : firstFree b (h.start+new) = (h.start+new-1) / b.pageSize+1 := by
    rw [← add_div_right _ hp,firstFree]
    congr 1
    omega
  rw [touched_eq hs hn,kept,hf]

/-- A handle that keeps nothing and starts at a page boundary gives up all its pages. -/
theorem kept_of_aligned (ha : h.start % b.pageSize = 0) : kept b h 0 = [] := by
  have hp := pageSize_pos b
  have hf : firstFree b h.start = h.start / b.pageSize := by
    obtain ⟨k,hk⟩ := dvd_of_mod_eq_zero ha
    have hr : (b.pageSize-1) / b.pageSize = 0 := div_eq_of_lt (by omega)
    rw [firstFree,Nat.add_sub_assoc hp,hk,mul_add_div hp,hr,Nat.add_zero,
      Nat.mul_div_cancel_left _ hp]
  rw [kept,Nat.add_zero,hf,Nat.sub_self,range'_zero]

/-- `shrink` gives up the pages behind those that it keeps. -/
theorem Counts.shrink {s : Pages} {occ : ℕ → ℕ} (hn : new < h.size)
    (hs : h.stop+b.pageSize ≤ addressSpace)
    (hc : Counts b s fun p => occ p+(touched b h.start h.size).count p) :
    ∃ u, MetaAllocator.decrementFreePages b s (h.start+new) (h.size-new) = some u ∧
      Counts b u fun p => occ p+(kept b h new).count p := by
  have he : h.start+new+(h.size-new) = h.stop := by
    rw [stop]
    omega
  simp only [MetaAllocator.decrementFreePages,he,
    firstCompletelyFreePage_eq (b := b) (a := h.start+new) (by omega)]
  rw [touched_split hn hs] at hc
  simp only [count_append,← Nat.add_assoc] at hc
  by_cases hlt : firstFree b (h.start+new)*b.pageSize < h.stop
  · rw [if_pos hlt]
    simp only [if_pos hlt] at hc
    exact hc.decrements
  · simp only [if_neg hlt,count_nil,Nat.add_zero] at hc
    exact ⟨s,if_neg hlt,hc⟩

end

end Pages

end QPlusWeb.MetaAllocation
