import QPlusWeb.MetaAllocatorMemory

/-!
# Runs of the allocator

The allocator with its live handles, the calls that a user can make, and what
every run of such calls keeps. Two conditions are needed. An allocation whose size
is so large that the number of pages wraps around gets less memory than it takes,
and a handle that is shrunk to nothing keeps its first page in use unless it starts
at a page boundary.
-/
namespace QPlusWeb.MetaAllocation

open RedBlack Ranges KeyedIndex FuelledCalls Pages Nat List

structure System where
  allocator : MetaAllocator
  handles : List MetaAllocatorHandle

/-- A call, with the node that `fastMalloc` would return and the answers of
`allocateNewSpace`. -/
inductive Op where
  | addFreshFreeSpace (r : Range) (fresh : ℕ)
  | allocate (sizeInBytes : ℕ) (newSpace : ℕ → Option (ℕ × ℕ)) (fresh : ℕ)
  | shrink (h : MetaAllocatorHandle) (newSizeInBytes fresh : ℕ)
  | release (h : MetaAllocatorHandle) (fresh : ℕ)

namespace System

/-- The allocator of the constructor, which knows no memory. -/
def empty (node : ℕ → Node ℕ) (range : ℕ → Range) : System :=
  ⟨⟨⟨⟨none, node⟩, fun _ => none, fun _ => none, range⟩, ⟨fun _ => none, 0, []⟩, 0, 0, [], []⟩, []⟩

def call (b : Build) (sys : System) (fuel : ℕ) : Op → Option System
  | .addFreshFreeSpace r fresh => do
    let s ← sys.allocator.addFreshFreeSpace b fuel r.start r.size fresh
    some ⟨s, sys.handles⟩
  | .allocate sizeInBytes newSpace fresh => do
    let r ← sys.allocator.allocate b newSpace fuel sizeInBytes fresh
    some ⟨r.2, r.1.toList ++ sys.handles⟩
  | .shrink h newSizeInBytes fresh => do
    let r ← sys.allocator.shrink b fuel h newSizeInBytes fresh
    some ⟨r.2, r.1 :: sys.handles.erase h⟩
  | .release h fresh => do
    let s ← sys.allocator.release b fuel h fresh
    some ⟨s, sys.handles.erase h⟩

/-- The node is not in use. -/
def Unused (sys : System) (fresh : ℕ) : Prop :=
  ∀ a, sys.allocator.free.startAddressMap a ≠ some fresh

/-- What a call may rely on: new memory is new, `allocateNewSpace` returns at least as
many pages as it was asked for, handles are live and do not grow, and rounding up the
size does not end in a crash. -/
def Valid (b : Build) (sys : System) : Op → Prop
  | .addFreshFreeSpace r fresh => Core.Fresh b sys.allocator.reserved r ∧ sys.Unused fresh
  | .allocate sizeInBytes newSpace fresh => (b.roundUp sizeInBytes).isSome ∧ sys.Unused fresh ∧
      ∀ k start pages, newSpace k = some (start, pages) →
        k ≤ pages ∧ Core.Fresh b sys.allocator.reserved ⟨start, pages <<< b.logPageSize⟩
  | .shrink h newSizeInBytes fresh => (b.roundUp newSizeInBytes).isSome ∧ sys.Unused fresh ∧
      h ∈ sys.handles ∧ newSizeInBytes ≤ h.size
  | .release h fresh => h ∈ sys.handles ∧ sys.Unused fresh

end System

/-- New memory is not empty, and an allocation gets new memory only if its size can be
rounded up to pages. -/
def SoundSize (b : Build) : Op → Prop
  | .addFreshFreeSpace r _ => 0 < r.size
  | .allocate sizeInBytes newSpace _ => ∀ n, b.roundUp sizeInBytes = some n →
      newSpace (MetaAllocator.requestedNumberOfPages b n) = none ∨ n + b.pageSize ≤ addressSpace
  | .shrink .. => True
  | .release .. => True

/-- Sound sizes, and no handle is shrunk to nothing inside a page. -/
def SoundShrink (b : Build) : Op → Prop
  | .shrink h newSizeInBytes _ => h.size = 0 ∨ newSizeInBytes ≠ 0 ∨ h.start % b.pageSize = 0
  | op => SoundSize b op

/-- The states that valid calls with the property `ok` lead to. -/
inductive Run (b : Build) (ok : Op → Prop) : System → Prop
  | empty (node : ℕ → Node ℕ) (range : ℕ → Range) : Run b ok (System.empty node range)
  | call {sys sys' : System} {op : Op} : Run b ok sys → sys.Valid b op → ok op →
      Returns (fun fuel => sys.call b fuel op) sys' → Run b ok sys'

/-- The invariant of runs. The numbers `stuck` are counted on the pages without a handle. -/
structure Inv (b : Build) (sys : System) (F : Finset ℕ) (stuck : ℕ → ℕ) : Prop where
  core : Core b sys.allocator.free sys.handles sys.allocator.reserved F
  allocated : sys.allocator.bytesAllocated = totalSize sys.handles
  reserved : sys.allocator.bytesReserved = totalSize sys.allocator.reserved
  granular : ∀ h ∈ sys.handles, b.allocationGranule ∣ h.size
  pages : Counts b sys.allocator.pages fun p => occupancy b sys.handles p + stuck p

namespace Inv
variable {b : Build} {sys sys' : System} {F : Finset ℕ} {stuck : ℕ → ℕ} {fresh n new : ℕ}
  {h : MetaAllocatorHandle} {handles : List MetaAllocatorHandle} {s : MetaAllocator}

theorem empty (b : Build) (node : ℕ → Node ℕ) (range : ℕ → Range) :
    Inv b (System.empty node range) ∅ fun _ => 0 := by
  have hh : (System.empty node range).allocator.free.Holds ∅ := by
    refine ⟨RedBlackTree.stores_empty _ rfl,?_,?_,?_,?_,fun a => ?_⟩
    · intro a i
      simp [System.empty]
    · intro a i
      simp [System.empty]
    · simp
    · simp
    · simp [FreeSpace.freeCover]
  refine ⟨⟨hh,fun a => ?_,fun a => ?_,?_,?_⟩,rfl,rfl,?_,⟨fun p => ?_,⟨∅,?_,?_⟩,fun p => ?_⟩⟩
  · simp [System.empty,FreeSpace.freeCover]
  · simp [System.empty]
  · simp [System.empty]
  · simp [System.empty]
  · simp [System.empty]
  · simp [System.empty,occupancy]
  · simp [System.empty,occupancy]
  · simp [System.empty]
  · simp [System.empty,occupancy,committed]

theorem notMem_of_unused (hi : Inv b sys F stuck) (hu : sys.Unused fresh) : fresh ∉ F :=
  fun hm => hu _ (hi.core.holds.starts.apply hm)

theorem addFreshFreeSpace {r : Range} (hi : Inv b sys F stuck)
    (hr : Core.Fresh b sys.allocator.reserved r) (hf : fresh ∉ F) (hs : 0 < r.size) :
    ∃ sys' F', Returns (fun fuel => sys.call b fuel (.addFreshFreeSpace r fresh)) sys' ∧
      Inv b sys' F' stuck := by
  obtain ⟨free,F',hret,hc⟩ := (hi.core.reserve hr).add hs hf
  let s : MetaAllocator := {sys.allocator with
    free := free
    bytesReserved := sys.allocator.bytesReserved+r.size
    reserved := r::sys.allocator.reserved}
  refine ⟨⟨s,sys.handles⟩,F',?_,hc,hi.allocated,?_,hi.granular,hi.pages⟩
  · exact Returns.bind (a := s) (hret.bind (.of_eq fun _ => rfl)) (.of_eq fun _ => rfl)
  · rw [totalSize_cons,← hi.reserved,Nat.add_comm]

/-! ### Allocation -/

theorem makeHandle {start size : ℕ}
    (hcore : Core b s.free (⟨start,size⟩::handles) s.reserved F) (hs : 0 < size)
    (ha : s.bytesAllocated = totalSize handles)
    (hr : s.bytesReserved = totalSize s.reserved)
    (hg : ∀ h ∈ handles, b.allocationGranule ∣ h.size) (hsizeGranular : b.allocationGranule ∣ size)
    (hp : Counts b s.pages fun p => occupancy b handles p+stuck p) :
    ∃ s', s.makeHandle b start size = some (⟨start,size⟩,s') ∧ s'.requests = s.requests ∧
      Inv b ⟨s',⟨start,size⟩::handles⟩ F stuck := by
  have hb := hcore.bounds mem_cons_self hs
  have hpos := pageSize_pos b
  have hstart : start ≠ 0 := by
    have hl := hb.1
    simp only at hl
    omega
  let s' : MetaAllocator := {s with
    pages := s.pages.incrementPageOccupancy b start size
    bytesAllocated := s.bytesAllocated+size}
  refine ⟨s',?_,rfl,hcore,?_,hr,?_,?_⟩
  · simp only [MetaAllocator.makeHandle,Build.assert_of hstart,Build.assert_of hs.ne']
    rfl
  · rw [totalSize_cons,← ha,Nat.add_comm]
  · exact forall_mem_cons.mpr ⟨hsizeGranular,hg⟩
  · have hc := hp.increments (touched b start size)
    have hstop : Range.stop ⟨start,size⟩ ≤ addressSpace := by omega
    refine cast (congrArg _ ?_) hc
    funext p
    rw [occupancy_cons handles hstop hs]
    exact Nat.add_right_comm ..

/-- The part of `allocate` that uses new space. -/
theorem reserveSpace {start pages : ℕ} (hcore : Core b s.free handles s.reserved F)
    (hreserved : s.bytesReserved = totalSize s.reserved) (hn : 0 < n)
    (hsound : n+b.pageSize ≤ addressSpace)
    (hp : MetaAllocator.requestedNumberOfPages b n ≤ pages)
    (hnew : Core.Fresh b s.reserved ⟨start,pages <<< b.logPageSize⟩) (hfresh : fresh ∉ F) :
    ∃ free reserved F', Returns (fun fuel => s.reserveSpace b fuel start pages n fresh)
        {s with free := free, bytesReserved := totalSize reserved, reserved := reserved} ∧
      Core b free (⟨start,n⟩::handles) reserved F' := by
  obtain ⟨-,hpagesSize⟩ := requestedNumberOfPages_spec hn hsound
  have hs : pages <<< b.logPageSize = pages*b.pageSize := shiftLeft_eq ..
  have hr : n ≤ pages <<< b.logPageSize := by
    rw [hs]
    exact hpagesSize.trans (Nat.mul_le_mul_right _ hp)
  have hcore' := hcore.reserve hnew
  have ht : s.bytesReserved+pages <<< b.logPageSize =
      totalSize (⟨start,pages <<< b.logPageSize⟩::s.reserved) := by
    rw [totalSize_cons,hreserved,Nat.add_comm]
  rcases Nat.lt_or_eq_of_le hr with hlt | heq
  · rw [show pages <<< b.logPageSize = n+(pages <<< b.logPageSize-n) by omega] at hcore'
    obtain ⟨free,F',hret,hf⟩ := (hcore'.cut.perm (List.Perm.swap ..)).add
      (Nat.sub_pos_of_lt hlt) hfresh
    rw [show n+(pages <<< b.logPageSize-n) = pages <<< b.logPageSize by omega] at hf
    refine ⟨free,_,F',?_,hf⟩
    rw [← ht]
    refine .bind (.of_eq fun _ => Build.assert_of hp)
      (.bind (.of_eq fun _ => Build.assert_of hr) ?_)
    simp only [gt_iff_lt,hlt,if_true]
    exact hret.bind (.of_eq fun _ => rfl)
  · subst heq
    refine ⟨s.free,_,F,?_,hcore'⟩
    rw [← ht]
    refine .bind (.of_eq fun _ => Build.assert_of hp)
      (.bind (.of_eq fun _ => Build.assert_of hr) ?_)
    simp only [gt_iff_lt,lt_irrefl,if_false]
    exact .of_eq fun _ => rfl

/-- `allocate` keeps the invariant. It asks for new space only if no node is large enough. -/
theorem allocate {size : ℕ} {newSpace : ℕ → Option (ℕ × ℕ)} (hinv : Inv b sys F stuck)
    (hround : b.roundUp size = some n)
    (hsound : newSpace (MetaAllocator.requestedNumberOfPages b n) = none ∨
      n+b.pageSize ≤ addressSpace)
    (hv : ∀ k start pages, newSpace k = some (start,pages) →
      k ≤ pages ∧ Core.Fresh b sys.allocator.reserved ⟨start,pages <<< b.logPageSize⟩)
    (hfresh : fresh ∉ F) :
    ∃ r s F', Returns (fun fuel => sys.allocator.allocate b newSpace fuel size fresh) (r,s) ∧
      Inv b ⟨s,r.toList++sys.handles⟩ F' stuck ∧
      (0 < size → (∃ i ∈ F, n ≤ (sys.allocator.free.node i).size) →
        r ≠ none ∧ s.requests = sys.allocator.requests) := by
  by_cases hz : size = 0
  · refine ⟨none,sys.allocator,F,.of_eq fun _ => ?_,hinv,fun hpos => by omega⟩
    rw [MetaAllocator.allocate,if_pos hz]
  have hroundSpec := Build.roundUp_eq_some hround
  have hn : 0 < n := by omega
  simp only [MetaAllocator.allocate,if_neg hz,hround,Option.bind_eq_bind,Option.bind_some]
  rcases hinv.core.take hn with ⟨hf,hs⟩ | ⟨start,free,F',hf,hstart,hc⟩
  · have hl : ¬∃ i ∈ F, n ≤ (sys.allocator.free.node i).size := by
      rintro ⟨i,hi,hle⟩
      exact absurd (hs i hi) (by omega)
    cases hnew : newSpace (MetaAllocator.requestedNumberOfPages b n) with
    | none =>
      refine ⟨none,_,F,hf.bind (.of_eq fun _ => rfl),?_,fun _ hex => absurd hex hl⟩
      exact ⟨hinv.core,hinv.allocated,hinv.reserved,hinv.granular,hinv.pages⟩
    | some answer =>
      obtain ⟨start,pages⟩ := answer
      obtain ⟨hp,hspace⟩ := hv _ _ _ hnew
      let s₁ : MetaAllocator := {sys.allocator with
        requests := sys.allocator.requests++[MetaAllocator.requestedNumberOfPages b n]}
      obtain ⟨free,reserved,F',hr,hc⟩ := reserveSpace (s := s₁) hinv.core
        hinv.reserved hn (hsound.resolve_left (by simp [hnew])) hp hspace hfresh
      obtain ⟨s₂,hm,-,hinv'⟩ := makeHandle (s := {s₁ with
        free := free, bytesReserved := totalSize reserved, reserved := reserved}) hc hn
        hinv.allocated rfl hinv.granular hroundSpec.1 hinv.pages
      refine ⟨some ⟨start,n⟩,s₂,F',?_,hinv',fun _ hex => absurd hex hl⟩
      refine hf.bind (hr.bind (.of_eq fun _ => ?_))
      rw [hm]
      rfl
  · obtain ⟨s,hm,hreqs,hinv'⟩ := makeHandle
      (s := {sys.allocator with free := free}) hc hn hinv.allocated hinv.reserved
      hinv.granular hroundSpec.1 hinv.pages
    refine ⟨some ⟨start,n⟩,s,F',hf.bind (.of_eq fun _ => ?_),hinv',fun _ _ => ⟨nofun,hreqs⟩⟩
    rw [if_neg hstart,hm]
    rfl

/-! ### Shrinking and releasing -/

theorem perm (hi : Inv b sys F stuck)
    (hp : handles.Perm sys.handles) : Inv b ⟨sys.allocator,handles⟩ F stuck := by
  refine ⟨hi.core.perm hp,?_,hi.reserved,fun h hh => ?_,?_⟩
  · rw [hi.allocated]
    exact ((hp.map _).sum_eq).symm
  · exact hi.granular h (hp.mem_iff.mp hh)
  · have ho : occupancy b handles = occupancy b sys.handles :=
      funext fun p => hp.countP_eq _
    simpa only [ho] using hi.pages

theorem front (hi : Inv b sys F stuck) (hm : h ∈ sys.handles) :
    Inv b ⟨sys.allocator,h::sys.handles.erase h⟩ F stuck :=
  hi.perm (perm_cons_erase hm).symm

theorem shrink_front (hi : Inv b ⟨s,h::handles⟩ F stuck) (hle : new ≤ h.size)
    (hr : b.roundUp new = some n) (hlt : n < h.size) (hf : fresh ∉ F) :
    ∃ s' F', Returns (fun fuel => s.shrink b fuel h new fresh) (⟨h.start,n⟩,s') ∧
      Core b s'.free (⟨h.start,n⟩::handles) s'.reserved F' ∧
      s'.bytesAllocated = totalSize (⟨h.start,n⟩::handles) ∧
      s'.bytesReserved = totalSize s'.reserved ∧
      Counts b s'.pages fun p => occupancy b handles p+stuck p+(kept b h n).count p := by
  have hs : 0 < h.size := zero_lt_of_lt hlt
  have hh := (hi.core.bounds mem_cons_self hs).2
  have hp : Counts b s.pages fun p =>
      occupancy b handles p+stuck p+(touched b h.start h.size).count p := by
    refine cast (congrArg _ (funext fun p => ?_)) hi.pages
    rw [occupancy_cons handles (le_of_add_right_le hh) hs,Nat.add_right_comm]
  obtain ⟨pages,hd,hc⟩ := hp.shrink hlt hh
  have hcore : Core b s.free (⟨h.start,n+(h.size-n)⟩::handles) s.reserved F := by
    rw [Nat.add_sub_cancel' hlt.le]
    exact hi.core
  obtain ⟨free,F',hret,hfree⟩ := (hcore.cut.perm (List.Perm.swap ..)).add (Nat.sub_pos_of_lt hlt) hf
  refine ⟨⟨free,pages,s.bytesAllocated-(h.size-n),s.bytesReserved,s.reserved,s.requests⟩,
    F',?_,hfree,?_,hi.reserved,hc⟩
  · refine .bind (.of_eq fun _ => Build.assert_of hle) (.bind (.of_eq fun _ => hr)
      (.bind (.of_eq fun _ => Build.assert_of hlt.le) ?_))
    simp only [hlt.ne,if_false]
    refine .bind (.of_eq fun _ => hd) ?_
    refine .bind ?_ (.of_eq fun _ => rfl)
    exact hret.bind (.of_eq fun _ => rfl)
  · have ha := hi.allocated
    simp only [totalSize_cons] at ha ⊢
    omega

/-- `shrink` keeps the invariant. The pages in front of the first completely free one
are not given up, and they stay in use even if nothing is left of the handle. -/
theorem shrink (hi : Inv b sys F stuck) (hm : h ∈ sys.handles)
    (hle : new ≤ h.size) (hround : b.roundUp new = some n) (hf : fresh ∉ F) :
    ∃ sys' F' stuck', Returns (fun fuel => sys.call b fuel (.shrink h new fresh)) sys' ∧
      Inv b sys' F' stuck' ∧
      (h.size = 0 ∨ new ≠ 0 ∨ h.start % b.pageSize = 0 → stuck' = stuck) := by
  obtain ⟨hd,hn,hb⟩ := Build.roundUp_eq_some hround
  have hle' : n ≤ h.size := Build.roundUp_le hround (hi.granular h hm) hle
  rcases Nat.lt_or_eq_of_le hle' with hlt | heq
  · have hinv' := hi.front hm
    have hh := (hi.core.bounds hm (zero_lt_of_lt hlt)).2
    obtain ⟨s',F',hret,hcore,halloc,hr,hc⟩ := hinv'.shrink_front hle hround hlt hf
    have hg : ∀ h' ∈ (⟨h.start,n⟩::sys.handles.erase h : List Range),
        b.allocationGranule ∣ h'.size :=
      forall_mem_cons.mpr ⟨hd,fun h' hh' => hi.granular h' (mem_of_mem_erase hh')⟩
    rcases Nat.eq_zero_or_pos n with rfl | hp
    · refine ⟨_,F',fun p => stuck p+(kept b h 0).count p,hret.bind (.of_eq fun _ => rfl),
        ⟨hcore,halloc,hr,hg,?_⟩,fun hsound => ?_⟩
      · refine cast (congrArg _ (funext fun p => ?_)) hc
        rw [occupancy_cons_empty _ rfl,Nat.add_assoc]
      · have ha : h.start % b.pageSize = 0 := by omega
        simp [kept_of_aligned ha]
    · refine ⟨_,F',stuck,hret.bind (.of_eq fun _ => rfl),⟨hcore,halloc,hr,hg,?_⟩,fun _ => rfl⟩
      have hs : Range.stop ⟨h.start,n⟩ ≤ addressSpace := by
        simp only [Range.stop] at hh ⊢
        omega
      have hk : kept b h n = touched b h.start n := kept_of_pos hp hs
      refine cast (congrArg _ (funext fun p => ?_)) hc
      rw [occupancy_cons _ hs hp,hk,Nat.add_right_comm]
  · refine ⟨_,F,stuck,.bind (a := (h,sys.allocator)) ?_ (.of_eq fun _ => rfl),
      hi.front hm,fun _ => rfl⟩
    refine .bind (.of_eq fun _ => Build.assert_of hle) (.bind (.of_eq fun _ => hround)
      (.bind (.of_eq fun _ => Build.assert_of hle') ?_))
    simp only [heq,if_true]
    exact .of_eq fun _ => rfl

theorem release (hinv : Inv b sys F stuck) (hm : h ∈ sys.handles) (hf : fresh ∉ F) :
    ∃ sys' F', Returns (fun fuel => sys.call b fuel (.release h fresh)) sys' ∧
      Inv b sys' F' stuck := by
  have hinv' := hinv.front hm
  have hg : ∀ h' ∈ sys.handles.erase h, b.allocationGranule ∣ h'.size :=
    fun h' hh' => hinv.granular h' (mem_of_mem_erase hh')
  have ha := hinv'.allocated
  simp only [totalSize_cons] at ha
  rcases Nat.eq_zero_or_pos h.size with hz | hp
  · refine ⟨⟨sys.allocator,sys.handles.erase h⟩,F,.of_eq fun _ => ?_,
      hinv'.core.of_cons_empty hz,?_,hinv.reserved,hg,?_⟩
    · simp [System.call,MetaAllocator.release,hz]
    · simp only
      omega
    · refine cast (congrArg _ (funext fun p => ?_)) hinv'.pages
      rw [occupancy_cons_empty _ hz]
  · have hh := (hinv.core.bounds hm hp).2
    have hpages : Counts b sys.allocator.pages fun p => occupancy b (sys.handles.erase h) p +
        stuck p+(touched b h.start h.size).count p := by
      refine cast (congrArg _ (funext fun p => ?_)) hinv'.pages
      rw [occupancy_cons _ (le_of_add_right_le hh) hp,Nat.add_right_comm]
    obtain ⟨pages,hd,hc⟩ := hpages.decrements
    obtain ⟨free,F',hr,hfree⟩ := hinv'.core.add hp hf
    refine ⟨⟨⟨free,pages,sys.allocator.bytesAllocated-h.size,sys.allocator.bytesReserved,
      sys.allocator.reserved,sys.allocator.requests⟩,sys.handles.erase h⟩,F',?_,hfree,?_,
      hinv.reserved,hg,hc⟩
    · refine .bind ?_ (.of_eq fun _ => rfl)
      simp only [MetaAllocator.release,ne_eq,hp.ne',not_false_eq_true,if_true]
      exact .bind (.of_eq fun _ => hd) (hr.bind (.of_eq fun _ => rfl))
    · simp only
      omega

/-- A valid call with sound sizes returns and keeps the invariant. -/
theorem call {op : Op} (hi : Inv b sys F stuck) (hv : sys.Valid b op) (hsound : SoundSize b op) :
    ∃ sys' F' stuck', Returns (fun fuel => sys.call b fuel op) sys' ∧ Inv b sys' F' stuck' ∧
      (SoundShrink b op → stuck' = stuck) := by
  cases op with
  | addFreshFreeSpace r fresh =>
    obtain ⟨sys',F',hret,hinv'⟩ := hi.addFreshFreeSpace hv.1 (hi.notMem_of_unused hv.2) hsound
    exact ⟨sys',F',stuck,hret,hinv',fun _ => rfl⟩
  | allocate size newSpace fresh =>
    obtain ⟨hs,hu,hspace⟩ := hv
    obtain ⟨n,hr⟩ := Option.isSome_iff_exists.mp hs
    obtain ⟨r,s,F',hret,hinv',-⟩ := hi.allocate hr (hsound n hr) hspace (hi.notMem_of_unused hu)
    exact ⟨_,F',stuck,hret.bind (.of_eq fun _ => rfl),hinv',fun _ => rfl⟩
  | shrink h new fresh =>
    obtain ⟨hs,hu,hm,hle⟩ := hv
    obtain ⟨n,hr⟩ := Option.isSome_iff_exists.mp hs
    exact hi.shrink hm hle hr (hi.notMem_of_unused hu)
  | release h fresh =>
    obtain ⟨sys',F',hret,hinv'⟩ := hi.release hv.1 (hi.notMem_of_unused hv.2)
    exact ⟨sys',F',stuck,hret,hinv',fun _ => rfl⟩

end Inv

theorem SoundShrink.soundSize {b : Build} {op : Op} (h : SoundShrink b op) : SoundSize b op := by
  cases op with
  | addFreshFreeSpace r fresh | allocate size newSpace fresh => exact h
  | shrink h new fresh | release h fresh => trivial

end QPlusWeb.MetaAllocation
