import QPlusWeb.MetaAllocatorFreeSpace
import QPlusWeb.MetaAllocatorPages

/-!
# Free, live and reserved memory

`Core` says that free space and live ranges together are the reserved memory. It
is stable under the elementary moves of memory: new memory is reserved, free
space is taken, a range is cut in two, and a live range becomes free. The calls of
the allocator are sequences of such moves.
-/
namespace QPlusWeb.MetaAllocation

open RedBlack Ranges KeyedIndex FuelledCalls Range

/-- The free space and the live ranges are disjoint and cover the reserved memory,
which lies neither in the first nor in the last page of the address space. -/
structure Core (b : Build) (free : FreeSpace) (live reserved : List Range) (F : Finset ℕ) :
    Prop where
  holds : free.Holds F
  balance : ∀ a, free.freeCover F a + cover live a = cover reserved a
  single : ∀ a, cover reserved a ≤ 1
  low : ∀ r ∈ reserved, b.pageSize ≤ r.start
  high : ∀ r ∈ reserved, r.stop + b.pageSize ≤ addressSpace

namespace Core
variable {b : Build} {free : FreeSpace} {live live' reserved : List Range} {F : Finset ℕ}
  {r : Range} {size fresh start m n : ℕ}

theorem congr (h : Core b free live reserved F) (hc : ∀ a, cover live' a = cover live a) :
    Core b free live' reserved F :=
  {h with balance := fun a => by rw [hc a,h.balance a]}

theorem perm (h : Core b free live reserved F) (hp : live'.Perm live) :
    Core b free live' reserved F :=
  h.congr fun _ => (hp.map _).sum_eq

/-- A live range is the same as its two parts. -/
theorem cut (h : Core b free (⟨start,m+n⟩::live) reserved F) :
    Core b free (⟨start,m⟩::⟨start+m,n⟩::live) reserved F := by
  refine h.congr fun a => ?_
  rw [cover_cons,cover_cons,cover_cons,covers_cut,Nat.add_assoc]

theorem of_cons_empty (h : Core b free (r::live) reserved F) (hr : r.size = 0) :
    Core b free live reserved F := by
  refine h.congr fun a => ?_
  have hn : a ∉ r := by
    rw [mem_iff,stop]
    omega
  rw [cover_cons,covers_of_notMem hn,Nat.zero_add]

/-- Memory that can be added: it is not reserved, and lies inside the address space. -/
structure Fresh (b : Build) (reserved : List Range) (r : Range) : Prop where
  disjoint : ∀ a ∈ r, cover reserved a = 0
  low : b.pageSize ≤ r.start
  high : r.stop + b.pageSize ≤ addressSpace

section
variable (h : Core b free live reserved F)
include h

theorem reserve (hr : Fresh b reserved r) : Core b free (r::live) (r::reserved) F := by
  refine ⟨h.holds,fun a => ?_,fun a => ?_,?_,?_⟩
  · have hb := h.balance a
    rw [cover_cons,cover_cons]
    omega
  · have hs := h.single a
    rw [cover_cons,covers]
    split
    · next hm => rw [hr.disjoint a hm]
    · omega
  · exact List.forall_mem_cons.mpr ⟨hr.low,h.low⟩
  · exact List.forall_mem_cons.mpr ⟨hr.high,h.high⟩

/-- A range of reserved memory lies inside the address space. -/
theorem bounds_of_reserved (hs : 0 < r.size) (hr : ∀ a ∈ r, 0 < cover reserved a) :
    b.pageSize ≤ r.start ∧ r.stop+b.pageSize ≤ addressSpace := by
  obtain ⟨r₁,hr₁,hstart⟩ := cover_pos.mp (hr _ (start_mem hs))
  obtain ⟨r₂,hr₂,hl⟩ := cover_pos.mp (hr _ (last_mem hs))
  have hlow := h.low r₁ hr₁
  have hh := h.high r₂ hr₂
  rw [mem_iff] at hstart hl
  omega

theorem bounds (hr : r ∈ live) (hs : 0 < r.size) :
    b.pageSize ≤ r.start ∧ r.stop+b.pageSize ≤ addressSpace := by
  refine h.bounds_of_reserved hs fun a ha => ?_
  have hle := covers_le_cover hr a
  rw [covers_of_mem ha] at hle
  have hb := h.balance a
  omega

theorem node_bounds {i : ℕ} (hi : i ∈ F) :
    b.pageSize ≤ (free.node i).start ∧ (free.node i).stop+b.pageSize ≤ addressSpace := by
  refine h.bounds_of_reserved (h.holds.nonempty i hi) fun a ha => ?_
  have hle := FreeSpace.covers_le_freeCover (s := free) hi a
  rw [covers_of_mem ha] at hle
  have hb := h.balance a
  omega

end

theorem add (h : Core b free (r::live) reserved F) (hs : 0 < r.size) (hf : fresh ∉ F) :
    ∃ free' F', Returns (fun fuel => free.addFreeSpace b fuel r.start r.size fresh) free' ∧
      Core b free' live reserved F' := by
  have hd : ∀ a, r.covers a+free.freeCover F a ≤ 1 := by
    intro a
    have hb := h.balance a
    have hsingle := h.single a
    rw [cover_cons] at hb
    omega
  obtain ⟨free',F',hr,hh,hc⟩ := FreeSpace.addFreeSpace_returns b h.holds hs hd hf
  have hc : ∀ a, free'.freeCover F' a = r.covers a+free.freeCover F a := hc
  refine ⟨free',F',hr,hh,fun a => ?_,h.single,h.low,h.high⟩
  have hb := h.balance a
  rw [cover_cons] at hb
  rw [hc]
  omega

/-- Free space becomes live, if a node is large enough. -/
theorem take (h : Core b free live reserved F) (hs : 0 < size) :
    (Returns (fun fuel => free.findAndRemoveFreeSpace b fuel size) (0,free) ∧
      ∀ i ∈ F, (free.node i).size < size) ∨
    ∃ start free' F', Returns (fun fuel => free.findAndRemoveFreeSpace b fuel size) (start,free') ∧
      start ≠ 0 ∧ Core b free' (⟨start,size⟩::live) reserved F' := by
  rcases FreeSpace.findAndRemoveFreeSpace_returns h.holds b hs with hn |
    ⟨start,free',F',hr,hh,hcover⟩
  · exact .inl hn
  · have hc : Core b free' (⟨start,size⟩::live) reserved F' := by
      refine ⟨hh,fun a => ?_,h.single,h.low,h.high⟩
      have hb := h.balance a
      rw [hcover] at hb
      rw [cover_cons]
      omega
    have hl := (hc.bounds List.mem_cons_self hs).1
    have hp := Pages.pageSize_pos b
    refine .inr ⟨start,free',F',hr,?_,hc⟩
    simp only at hl
    omega

end Core

/-! ### Rounding -/

section
variable {b : Build} {m n : ℕ}

theorem Build.granule_pos (b : Build) : 0 < b.allocationGranule := Nat.two_pow_pos _

theorem Build.roundUp_eq_some (h : b.roundUp n = some m) :
    b.allocationGranule ∣ m ∧ n ≤ m ∧ m < n+b.allocationGranule := by
  have hp := b.granule_pos
  unfold Build.roundUp at h
  split at h
  · cases h
  · have hm : m = (n+b.allocationGranule-1) / b.allocationGranule*b.allocationGranule := by
      rw [← Option.some.inj h,Build.alignDown,Nat.shiftRight_eq_div_pow,Nat.shiftLeft_eq]
      rfl
    have hd := Nat.div_add_mod' (n+b.allocationGranule-1) b.allocationGranule
    have hmod := Nat.mod_lt (n+b.allocationGranule-1) hp
    refine ⟨hm ▸ Nat.dvd_mul_left ..,?_,?_⟩
    · omega
    · omega

/-- Rounding up does not pass a size that is rounded itself. -/
theorem Build.roundUp_le {k : ℕ} (h : b.roundUp n = some m) (hk : b.allocationGranule ∣ k)
    (hle : n ≤ k) : m ≤ k := by
  obtain ⟨⟨i,rfl⟩,-,hlt⟩ := Build.roundUp_eq_some h
  obtain ⟨j,rfl⟩ := hk
  have hij : b.allocationGranule*i < b.allocationGranule*(j+1) := by
    rw [Nat.mul_add_one]
    omega
  exact Nat.mul_le_mul_left _ (Nat.lt_add_one_iff.mp (Nat.lt_of_mul_lt_mul_left hij))

/-- The pages asked for hold the size, unless the sum wraps around. -/
theorem requestedNumberOfPages_spec (hn : 0 < n) (h : n+b.pageSize ≤ addressSpace) :
    0 < MetaAllocator.requestedNumberOfPages b n ∧
      n ≤ MetaAllocator.requestedNumberOfPages b n*b.pageSize := by
  have hlt : n+b.pageSize-1 < addressSpace := by omega
  have heq : MetaAllocator.requestedNumberOfPages b n = Pages.firstFree b n := by
    rw [MetaAllocator.requestedNumberOfPages,Nat.mod_eq_of_lt hlt,Nat.shiftRight_eq_div_pow]
    rfl
  have hle := Pages.le_firstFree_mul (b := b) n
  rw [heq]
  refine ⟨Nat.pos_of_ne_zero fun hz => ?_,hle⟩
  rw [hz] at hle
  omega

end

end QPlusWeb.MetaAllocation
