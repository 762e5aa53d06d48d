import QPlusWeb.MetaAllocatorRuns

/-!
# What every run of the allocator guarantees

In a run whose allocations have sound sizes, free nodes, handles and reserved memory
agree. If in addition no handle is shrunk to nothing inside a page, the page map
counts the handles of every page. Both conditions are needed.
-/
namespace QPlusWeb.MetaAllocation

open RedBlack Ranges KeyedIndex FuelledCalls Pages Function

section Runs
variable {b : Build} {sys : System}

theorem Run.inv (hrun : Run b (SoundSize b) sys) : ∃ F stuck, Inv b sys F stuck := by
  induction hrun with
  | empty node range => exact ⟨_,_,Inv.empty b node range⟩
  | call _ hv hs hret ih =>
    obtain ⟨F,stuck,hinv⟩ := ih
    obtain ⟨sys',F',stuck',hret',hinv',-⟩ := hinv.call hv hs
    rw [hret.unique hret']
    exact ⟨F',stuck',hinv'⟩

/-- Without a shrink to nothing inside a page, the pages count the handles exactly. -/
theorem Run.inv_exact (hrun : Run b (SoundShrink b) sys) : ∃ F, Inv b sys F fun _ => 0 := by
  induction hrun with
  | empty node range => exact ⟨_,Inv.empty b node range⟩
  | call _ hv hs hret ih =>
    obtain ⟨F,hinv⟩ := ih
    obtain ⟨sys',F',stuck',hret',hinv',hstuck⟩ := hinv.call hv hs.soundSize
    rw [hret.unique hret']
    exact ⟨F',hstuck hs ▸ hinv'⟩

theorem Run.mono {ok ok' : Op → Prop} (hrun : Run b ok sys) (h : ∀ op, ok op → ok' op) :
    Run b ok' sys := by
  induction hrun with
  | empty node range => exact .empty node range
  | call _ hv hok hr ih => exact ih.call hv (h _ hok) hr

/-! ### Runs of a small allocator -/

/-- A build with granules of 32 bytes and pages of 4096 bytes. -/
def smallBuild (asserts : Bool) : Build := ⟨5, 12, by decide, by decide, asserts⟩

/-- `allocateNewSpace` that has one page left. -/
def lastPage (numberOfPages : ℕ) : Option (ℕ × ℕ) :=
  if numberOfPages ≤ 1 then some (4096, 1) else none

theorem lastPage_fresh (asserts : Bool) (k start pages : ℕ) (h : lastPage k = some (start,pages)) :
    k ≤ pages ∧ Core.Fresh (smallBuild asserts) [] ⟨start,pages <<< 12⟩ := by
  unfold lastPage at h
  split at h
  · next hle =>
      cases h
      exact ⟨hle,fun _ _ => rfl,by cases asserts <;> decide,by cases asserts <;> decide⟩
  · cases h

/-- The state after some calls. -/
def after (asserts : Bool) (calls : List Op) : System :=
  let new : System := .empty (fun _ => ⟨none, none, none, .red⟩) fun _ => ⟨0, 0⟩
  (calls.foldlM (fun (sys : System) op => sys.call (smallBuild asserts) 6 op) new).getD new

theorem Run.after_concat {asserts : Bool} {ok : Op → Prop} {calls : List Op}
    (h : Run (smallBuild asserts) ok (after asserts calls)) (op : Op)
    (hv : (after asserts calls).Valid (smallBuild asserts) op) (hok : ok op)
    (hc : ∀ k, (after asserts calls).call (smallBuild asserts) (k+6) op =
      some (after asserts (calls++[op]))) :
    Run (smallBuild asserts) ok (after asserts (calls++[op])) := by
  refine h.call hv hok ⟨6,fun fuel hf => ?_⟩
  obtain ⟨k,rfl⟩ := Nat.exists_eq_add_of_le' hf
  exact hc k

/-- Two allocations from one page. -/
def twoAllocations : List Op := [.allocate 32 lastPage 0, .allocate 32 (fun _ => none) 1]

theorem run_twoAllocations :
    Run (smallBuild true) (SoundShrink (smallBuild true)) (after true twoAllocations) := by
  have h₀ : Run (smallBuild true) (SoundShrink (smallBuild true)) (after true []) := .empty _ _
  have h₁ := h₀.after_concat (.allocate 32 lastPage 0) ⟨rfl,fun _ => nofun,lastPage_fresh true⟩
    (fun n hn => ?_) fun _ => rfl
  · refine h₁.after_concat (.allocate 32 (fun _ => none) 1) ⟨rfl,fun a ha => ?_,nofun⟩
      (fun _ _ => .inl rfl) fun _ => rfl
    change add (fun _ => none) 4128 0 a = some 1 at ha
    simp [add,update_apply] at ha
  · cases hn
    exact .inr (by decide)

theorem unused_twoAllocations : (after true twoAllocations).Unused 1 := by
  intro a ha
  change add (remove (add (fun _ => none) 4128 0) 4128) 4160 0 a = some 1 at ha
  simp [add,remove,update_apply] at ha

/-! ### Memory -/

/-- The nodes `F`, the live handles and the reserved memory agree. -/
structure Accounted (sys : System) (F : Finset ℕ) : Prop where
  sizeMap : RedBlackTree.IsRedBlack sys.allocator.free.key sys.allocator.free.sizeMap F
  startAddressMap : ∀ a i, sys.allocator.free.startAddressMap a = some i ↔
    i ∈ F ∧ (sys.allocator.free.node i).start = a
  endAddressMap : ∀ a i, sys.allocator.free.endAddressMap a = some i ↔
    i ∈ F ∧ (sys.allocator.free.node i).stop = a
  nonempty : ∀ i ∈ F, 0 < (sys.allocator.free.node i).size
  coalesced : ∀ i ∈ F, ∀ j ∈ F, (sys.allocator.free.node i).stop ≠ (sys.allocator.free.node j).start
  nodesDisjoint : ∀ i ∈ F, ∀ j ∈ F, i ≠ j →
    (sys.allocator.free.node i).Disjoint (sys.allocator.free.node j)
  handlesDisjoint : sys.handles.Pairwise Range.Disjoint
  nodesHandlesDisjoint : ∀ i ∈ F, ∀ h ∈ sys.handles, (sys.allocator.free.node i).Disjoint h
  reservedDisjoint : sys.allocator.reserved.Pairwise Range.Disjoint
  exact : ∀ a, (∃ r ∈ sys.allocator.reserved, a ∈ r) ↔
    (∃ i ∈ F, a ∈ sys.allocator.free.node i) ∨ ∃ h ∈ sys.handles, a ∈ h
  bytesAllocated : sys.allocator.bytesAllocated = totalSize sys.handles
  bytesReserved : sys.allocator.bytesReserved = totalSize sys.allocator.reserved

theorem Inv.accounted {F : Finset ℕ} {stuck : ℕ → ℕ} (hinv : Inv b sys F stuck) :
    Accounted sys F := by
  have hb := hinv.core.balance
  have hs := hinv.core.single
  refine ⟨hinv.core.holds.sizes.isRedBlack,hinv.core.holds.starts,hinv.core.holds.stops,
    hinv.core.holds.nonempty,hinv.core.holds.apart,?_,?_,?_,?_,?_,hinv.allocated,
    hinv.reserved⟩
  · intro i hi j hj hne a hai haj
    exact hne (hinv.core.holds.eq_of_mem hi hj hai haj)
  · exact pairwise_disjoint fun a => by
      have := hb a
      have := hs a
      omega
  · intro i hi h hh
    refine Range.disjoint_of_covers fun a => ?_
    have := FreeSpace.covers_le_freeCover (s := sys.allocator.free) hi a
    have := covers_le_cover hh a
    have := hb a
    have := hs a
    omega
  · exact pairwise_disjoint hs
  · intro a
    rw [← cover_pos,← cover_pos,← FreeSpace.freeCover_pos,← hb a,Nat.add_pos_iff_pos_or_pos]

/-- In a run of valid calls with sound sizes the free nodes, the handles and the reserved
memory agree, every call returns, and new space is only asked for if no node fits. -/
theorem run_accounted (hrun : Run b (SoundSize b) sys) :
    (∃ F, Accounted sys F) ∧
      (∀ op, sys.Valid b op → SoundSize b op →
        ∃ sys', Returns (fun fuel => sys.call b fuel op) sys') ∧
      ∀ size n newSpace fresh a i, 0 < size → b.roundUp size = some n →
        sys.Valid b (.allocate size newSpace fresh) →
        sys.allocator.free.startAddressMap a = some i → n ≤ (sys.allocator.free.node i).size →
        ∃ h s, Returns (fun fuel => sys.allocator.allocate b newSpace fuel size fresh)
          (some h, s) ∧ s.requests = sys.allocator.requests := by
  obtain ⟨F,stuck,hinv⟩ := hrun.inv
  refine ⟨⟨F,hinv.accounted⟩,fun op hv hs => ?_,?_⟩
  · obtain ⟨sys',-,-,hr,-⟩ := hinv.call hv hs
    exact ⟨sys',hr⟩
  · rintro size n newSpace fresh a i hsize hround ⟨-,hu,hspace⟩ hi hfits
    have hm := ((hinv.core.holds.starts a i).mp hi).1
    -- What fits in a node can be rounded up to pages.
    have hs : n+b.pageSize ≤ addressSpace := by
      have hh := (hinv.core.node_bounds hm).2
      rw [Range.stop] at hh
      omega
    obtain ⟨r,s,F',hr,-,hf⟩ := hinv.allocate hround (.inr hs) hspace (hinv.notMem_of_unused hu)
    obtain ⟨hsome,hreqs⟩ := hf hsize ⟨i,hm,hfits⟩
    obtain ⟨h,rfl⟩ := Option.ne_none_iff_exists'.mp hsome
    exact ⟨h,s,hr,hreqs⟩

theorem run_accounted_twoAllocations : ∃ F, Accounted (after true twoAllocations) F :=
  (run_accounted (run_twoAllocations.mono fun _ => SoundShrink.soundSize)).1

/-- If the number of pages wraps around, `allocate` returns a handle that is larger
than the memory that it reserves. -/
theorem allocate_wraps : ∃ sys, Run (smallBuild false) (fun _ => True) sys ∧
    sys.handles = [⟨4096, 2 ^ 64 - 96⟩] ∧ sys.allocator.reserved = [⟨4096, 4096⟩] ∧
    ∀ F, ¬Accounted sys F := by
  have h₀ : Run (smallBuild false) (fun _ => True) (after false []) := .empty _ _
  have h₁ := h₀.after_concat (.allocate (2^64-100) lastPage 0)
    ⟨rfl,fun _ => nofun,lastPage_fresh false⟩ trivial fun _ => rfl
  refine ⟨_,h₁,rfl,rfl,fun F hF => ?_⟩
  obtain ⟨r,hr,hm⟩ := (hF.exact 8192).mpr
    (.inr ⟨⟨4096,2^64-96⟩,List.mem_singleton.mpr rfl,by decide⟩)
  rw [List.mem_singleton.mp hr] at hm
  exact absurd hm (by decide)

/-! ### Pages -/

/-- Without a shrink to nothing inside a page, the page map counts the handles on every page,
the committed bytes are those of the counted pages, the notifications about a page
alternate, and every call finds the pages that it looks up. -/
theorem run_pages (hrun : Run b (SoundShrink b) sys) :
    (∀ p, sys.allocator.pages.occupancyMap p =
      if occupancy b sys.handles p = 0 then none else some (occupancy b sys.handles p)) ∧
    (∃ P : Finset ℕ, (∀ p, p ∈ P ↔ sys.allocator.pages.occupancyMap p ≠ none) ∧
      sys.allocator.pages.bytesCommitted = b.pageSize * P.card) ∧
    (∀ p, committed (p <<< b.logPageSize) sys.allocator.pages.calls =
      some (sys.allocator.pages.occupancyMap p).isSome) ∧
    (∀ op, sys.Valid b op → SoundShrink b op →
      ∃ sys', Returns (fun fuel => sys.call b fuel op) sys') ∧
    (sys.handles = [] → (∀ p, sys.allocator.pages.occupancyMap p = none) ∧
      sys.allocator.pages.bytesCommitted = 0) := by
  obtain ⟨F,hi⟩ := hrun.inv_exact
  have hm : ∀ p, sys.allocator.pages.occupancyMap p =
      if occupancy b sys.handles p = 0 then none else some (occupancy b sys.handles p) :=
    hi.pages.map
  have hmapped : ∀ p, sys.allocator.pages.occupancyMap p ≠ none ↔ occupancy b sys.handles p ≠ 0 := by
    intro p
    rw [hm p]
    split <;> simp_all
  obtain ⟨P,hP,hb⟩ := hi.pages.bytes
  refine ⟨hm,⟨P,fun p => (hP p).trans (hmapped p).symm,hb.trans (Nat.mul_comm ..)⟩,
    fun p => ?_,fun op hv hs => ?_,fun hn => ?_⟩
  · have hc := hi.pages.calls p
    rw [hc,Option.some_inj,hm p]
    split <;> simp_all
  · obtain ⟨sys',-,-,hr,-⟩ := hi.call hv hs.soundSize
    exact ⟨sys',hr⟩
  · have hz : ∀ p, occupancy b sys.handles p = 0 := by
      intro p
      rw [hn]
      rfl
    have he : P = ∅ := Finset.eq_empty_of_forall_notMem fun p hp => (hP p).mp hp (hz p)
    refine ⟨fun p => ?_,?_⟩
    · rw [hm p,if_pos (hz p)]
    · rw [hb,he,Finset.card_empty,Nat.zero_mul]

end Runs

/-- When both handles have been released, nothing is committed. -/
theorem run_pages_twoAllocations : ∃ sys, Run (smallBuild true) (SoundShrink (smallBuild true)) sys ∧
    sys.handles = [] ∧ sys.allocator.pages.calls = [.notifyNeedPage 4096, .notifyPageIsFree 4096] ∧
    ∀ p, sys.allocator.pages.occupancyMap p = none := by
  have h₃ := run_twoAllocations.after_concat (.release ⟨4128,32⟩ 1)
    ⟨by decide,unused_twoAllocations⟩ trivial fun _ => rfl
  have h₄ := h₃.after_concat (.release ⟨4096,32⟩ 1) ⟨by decide,fun a ha => ?_⟩ trivial fun _ => rfl
  · exact ⟨_,h₄,rfl,rfl,((run_pages h₄).2.2.2.2 rfl).1⟩
  · change add (remove (add (remove (add (fun _ => none) 4128 0) 4128) 4160 0) 4160) 4128 0 a =
      some 1 at ha
    simp [add,remove,update_apply] at ha

/-- A handle that starts inside a page is shrunk to nothing: when all handles have been
released, its page is still counted and committed. -/
theorem shrink_keeps_page : ∃ sys, Run (smallBuild true) (SoundSize (smallBuild true)) sys ∧
    sys.handles = [] ∧ sys.allocator.pages.occupancyMap 1 = some 1 ∧
    sys.allocator.pages.bytesCommitted = 4096 := by
  have h₂ := run_twoAllocations.mono fun _ => SoundShrink.soundSize
  have h₃ := h₂.after_concat (.shrink ⟨4128,32⟩ 0 1)
    ⟨rfl,unused_twoAllocations,by decide,by decide⟩ trivial fun _ => rfl
  have h₄ := h₃.after_concat (.release ⟨4096,32⟩ 1) ⟨by decide,fun a ha => ?_⟩ trivial fun _ => rfl
  · have h₅ := h₄.after_concat (.release ⟨4128,0⟩ 1) ⟨by decide,fun a ha => ?_⟩ trivial fun _ => rfl
    · exact ⟨_,h₅,rfl,rfl,rfl⟩
    · change add (remove (add (remove (add (remove (add (fun _ => none) 4128 0) 4128) 4160 0) 4160)
        4128 0) 4128) 4096 0 a = some 1 at ha
      simp [add,remove,update_apply] at ha
  · change add (remove (add (remove (add (fun _ => none) 4128 0) 4128) 4160 0) 4160) 4128 0 a =
      some 1 at ha
    simp [add,remove,update_apply] at ha

end QPlusWeb.MetaAllocation
