import QPlusWeb.MetaAllocator
import QPlusWeb.RedBlackRuns

/-!
# Free space: three indexes of one set of nodes

The tree and the two maps describe the same nodes, the nodes hold disjoint
ranges, and no two of them are neighbours. Taking space out and putting space
back keeps this and changes the covered addresses by exactly the space moved.
-/
namespace QPlusWeb.MetaAllocation

open RedBlack RedBlack.RedBlackTree Ranges KeyedIndex FuelledCalls Range Finset

namespace FreeSpace
variable {b : Build} {s u : FreeSpace} {F : Finset ℕ} {i j a n start size fresh : ℕ} {r : Range}

/-- How often the nodes cover an address. -/
def freeCover (s : FreeSpace) (F : Finset ℕ) (a : ℕ) : ℕ := ∑ i ∈ F, (s.node i).covers a

/-- The nodes `F` are the free space. -/
structure Holds (s : FreeSpace) (F : Finset ℕ) : Prop where
  sizes : Stores s.key s.sizeMap F
  starts : Indexes F (fun i => (s.node i).start) s.startAddressMap
  stops : Indexes F (fun i => (s.node i).stop) s.endAddressMap
  nonempty : ∀ i ∈ F, 0 < (s.node i).size
  apart : ∀ i ∈ F, ∀ j ∈ F, (s.node i).stop ≠ (s.node j).start
  disjoint : ∀ a, freeCover s F a ≤ 1

theorem freeCover_erase (hi : i ∈ F) (a : ℕ) :
    freeCover s F a = (s.node i).covers a+freeCover s (F.erase i) a :=
  (add_sum_erase F _ hi).symm

theorem covers_le_freeCover (hi : i ∈ F) (a : ℕ) : (s.node i).covers a ≤ freeCover s F a := by
  rw [freeCover_erase hi]
  exact Nat.le_add_right _ _

theorem freeCover_insert (hi : i ∉ F) (a : ℕ) :
    freeCover s (insert i F) a = (s.node i).covers a+freeCover s F a :=
  sum_insert hi

theorem freeCover_congr (h : ∀ i ∈ F, u.node i = s.node i) (a : ℕ) :
    freeCover u F a = freeCover s F a :=
  sum_congr rfl fun i hi => by rw [h i hi]

theorem freeCover_pos : 0 < freeCover s F a ↔ ∃ i ∈ F, a ∈ s.node i := by
  rw [freeCover,sum_pos_iff]
  simp [covers_pos]

section
variable (h : s.Holds F)
include h

theorem Holds.eq_of_mem (hi : i ∈ F) (hj : j ∈ F) (hai : a ∈ s.node i)
    (haj : a ∈ s.node j) : i = j := by
  by_contra hne
  have hle := h.disjoint a
  rw [freeCover_erase hi,freeCover_erase (mem_erase.mpr ⟨Ne.symm hne,hj⟩),
    covers_of_mem hai,covers_of_mem haj] at hle
  omega

/-- A range that shares no address with the nodes has none of their starts and ends. -/
theorem Holds.bounds_ne (hi : i ∈ F) (hr : 0 < r.size)
    (hdisjoint : ∀ a, r.covers a+(s.node i).covers a ≤ 1) :
    (s.node i).start ≠ r.start ∧ (s.node i).stop ≠ r.stop := by
  constructor
  · intro heq
    have hle := hdisjoint r.start
    have hm : r.start ∈ s.node i := heq ▸ start_mem (h.nonempty i hi)
    rw [covers_of_mem (start_mem hr),covers_of_mem hm] at hle
    omega
  · intro heq
    have hle := hdisjoint (r.stop-1)
    have hm : r.stop-1 ∈ s.node i := heq ▸ last_mem (h.nonempty i hi)
    rw [covers_of_mem (last_mem hr),covers_of_mem hm] at hle
    omega

theorem Holds.erase (hi : i ∈ F) (hsizes : Stores s.key u.sizeMap (F.erase i))
    (hs : u.startAddressMap = remove s.startAddressMap (s.node i).start)
    (hstops : u.endAddressMap = remove s.endAddressMap (s.node i).stop)
    (hn : u.node = s.node) : u.Holds (F.erase i) := by
  have hkey : u.key = s.key := by
    funext j
    rw [key,key,hn]
  have hc : ∀ a, freeCover u (F.erase i) a = freeCover s (F.erase i) a :=
    freeCover_congr fun j _ => by rw [hn]
  refine ⟨hkey ▸ hsizes,?_,?_,?_,?_,fun a => ?_⟩
  · rw [hs,hn]
    exact h.starts.erase hi
  · rw [hstops,hn]
    exact h.stops.erase hi
  · intro j hj
    rw [hn]
    exact h.nonempty j (mem_of_mem_erase hj)
  · intro j hj k hk
    rw [hn]
    exact h.apart j (mem_of_mem_erase hj) k (mem_of_mem_erase hk)
  · have hle := h.disjoint a
    rw [freeCover_erase hi] at hle
    rw [hc]
    omega

theorem Holds.insert (hi : i ∉ F) (hr : 0 < r.size)
    (hdisjoint : ∀ a, r.covers a+freeCover s F a ≤ 1)
    (hl : ∀ j ∈ F, (s.node j).stop ≠ r.start) (hrt : ∀ j ∈ F, r.stop ≠ (s.node j).start)
    (hsizes : Stores (s.setNode i r).key u.sizeMap (insert i F))
    (hstarts : u.startAddressMap = add s.startAddressMap r.start i)
    (hstops : u.endAddressMap = add s.endAddressMap r.stop i)
    (hn : u.node = (s.setNode i r).node) : u.Holds (insert i F) ∧
      ∀ a, freeCover u (insert i F) a = r.covers a+freeCover s F a := by
  have hs : u.node i = r := by
    rw [hn]
    exact Function.update_self ..
  have ho : ∀ j ∈ F, u.node j = s.node j := by
    intro j hj
    have hne : j ≠ i := fun heq => hi (heq ▸ hj)
    rw [hn]
    exact Function.update_of_ne hne ..
  have hb : ∀ j ∈ F, (s.node j).start ≠ r.start ∧ (s.node j).stop ≠ r.stop := fun j hj =>
    h.bounds_ne hj hr fun a =>
      (Nat.add_le_add_left (covers_le_freeCover hj a) _).trans (hdisjoint a)
  have hkey : u.key = (s.setNode i r).key := by
    funext j
    rw [key,key,hn]
  have hc : ∀ a, freeCover u (Insert.insert i F) a = r.covers a+freeCover s F a := by
    intro a
    rw [freeCover_insert hi,hs,freeCover_congr ho]
  refine ⟨⟨hkey ▸ hsizes,?_,?_,?_,?_,fun a => ?_⟩,hc⟩
  · have hidx : Indexes F (fun j => (u.node j).start) s.startAddressMap :=
      h.starts.congr fun j hj => by rw [ho j hj]
    have hins := hidx.insert hi fun j hj => by
      rw [ho j hj,hs]
      exact (hb j hj).1
    rwa [hs,← hstarts] at hins
  · have hidx : Indexes F (fun j => (u.node j).stop) s.endAddressMap :=
      h.stops.congr fun j hj => by rw [ho j hj]
    have hins := hidx.insert hi fun j hj => by
      rw [ho j hj,hs]
      exact (hb j hj).2
    rwa [hs,← hstops] at hins
  · intro j hj
    rcases mem_insert.mp hj with rfl | hj
    · rwa [hs]
    · rw [ho j hj]
      exact h.nonempty j hj
  · intro j hj k hk
    rcases mem_insert.mp hj with hji | hjF <;> rcases mem_insert.mp hk with hki | hkF
    · rw [hji,hki,hs,stop]
      omega
    · rw [hji,hs,ho k hkF]
      exact hrt k hkF
    · rw [hki,hs,ho j hjF]
      exact hl j hjF
    · rw [ho j hjF,ho k hkF]
      exact h.apart j hjF k hkF
  · rw [hc]
    exact hdisjoint a

theorem Holds.replace {cover : ℕ → ℕ} (hi : i ∈ F) (hr : 0 < r.size)
    (hc : ∀ a, r.covers a+freeCover s (F.erase i) a = cover a) (hdisjoint : ∀ a, cover a ≤ 1)
    (hl : ∀ j ∈ F.erase i, (s.node j).stop ≠ r.start)
    (hrt : ∀ j ∈ F.erase i, r.stop ≠ (s.node j).start)
    (hsizes : Stores (s.setNode i r).key u.sizeMap F)
    (hs : u.startAddressMap = add (remove s.startAddressMap (s.node i).start) r.start i)
    (hstops : u.endAddressMap = add (remove s.endAddressMap (s.node i).stop) r.stop i)
    (hn : u.node = (s.setNode i r).node) : u.Holds F ∧ ∀ a, freeCover u F a = cover a := by
  obtain ⟨t,-,ht⟩ := h.sizes.remove hi
  let v : FreeSpace := ⟨t,remove s.startAddressMap (s.node i).start,
    remove s.endAddressMap (s.node i).stop,s.node⟩
  have hv : v.Holds (F.erase i) := h.erase hi ht rfl rfl rfl
  have hF := insert_erase hi
  simp only [← hc] at hdisjoint ⊢
  have hins := hv.insert (u := u) (notMem_erase i F) hr hdisjoint hl hrt
    (by rw [hF]; exact hsizes) hs hstops hn
  rwa [hF] at hins

end

/-! ### The tree by size -/

section
variable (h : Stores s.key s.sizeMap F)
include h

theorem sizeMapRemove_returns (hi : i ∈ F) :
    ∃ t, Returns (fun fuel => s.sizeMapRemove fuel i) {s with sizeMap := t} ∧
      Stores s.key t (F.erase i) := by
  obtain ⟨t,hr,ht⟩ := h.remove hi
  exact ⟨t,hr.bind (.of_eq fun _ => rfl),ht⟩

theorem sizeMapInsert_returns (hi : i ∉ F) :
    ∃ t, Returns (fun fuel => s.sizeMapInsert fuel i) {s with sizeMap := t} ∧
      Stores s.key t (insert i F) := by
  obtain ⟨t,hr,ht⟩ := h.insert hi
  exact ⟨t,hr.bind (.of_eq fun _ => rfl),ht⟩

/-- A node can leave the tree, get another range and come back. -/
theorem resize_returns (hi : i ∈ F) (r : Range) :
    ∃ t₁ t₂, Returns (fun fuel => s.sizeMapRemove fuel i) {s with sizeMap := t₁} ∧
      Stores (s.setNode i r).key t₂ F ∧
      ∀ v : FreeSpace, v.sizeMap = t₁ → v.node = (s.setNode i r).node →
        Returns (fun fuel => v.sizeMapInsert fuel i) {v with sizeMap := t₂} := by
  obtain ⟨t₁,hr,ht₁⟩ := sizeMapRemove_returns h hi
  have hk : ∀ j ∈ F.erase i, (s.setNode i r).key j = s.key j := by
    intro j hj
    simp [key,setNode,ne_of_mem_erase hj]
  obtain ⟨t₂,hins,ht₂⟩ := (ht₁.congr hk).insert (notMem_erase i F)
  rw [insert_erase hi] at ht₂
  refine ⟨t₁,t₂,hr,ht₂,fun v htree hn => ?_⟩
  have hv : v.key = (s.setNode i r).key := by
    funext j
    rw [key,key,hn]
  unfold sizeMapInsert
  rw [htree,hv]
  exact hins.bind (.of_eq fun _ => rfl)

end

/-! ### Putting space back -/

section
variable {left right : ℕ} (b : Build) (h : s.Holds F) (hsize : 0 < size)
  (hdisjoint : ∀ a, covers ⟨start, size⟩ a + freeCover s F a ≤ 1)
include h hsize hdisjoint

/-- The space joins the node that ends where it starts. -/
theorem addFreeSpace_left
    (hl : s.endAddressMap start = some left) (hr : s.startAddressMap (start+size) = none) :
    ∃ u, Returns (fun fuel => s.addFreeSpace b fuel start size fresh) u ∧ u.Holds F ∧
      ∀ a, freeCover u F a = covers ⟨start,size⟩ a+freeCover s F a := by
  obtain ⟨hm,hs⟩ : left ∈ F ∧ (s.node left).stop = start := (h.stops start left).mp hl
  let r : Range := ⟨(s.node left).start,(s.node left).size+size⟩
  have hjoin : ∀ a, r.covers a = (s.node left).covers a+covers ⟨start,size⟩ a := by
    intro a
    rw [covers_cut,← hs]
    rfl
  have hjoinStop : r.stop = start+size := by
    simp only [stop,r] at hs ⊢
    omega
  obtain ⟨t₁,t₂,hrem,ht₂,hins⟩ := resize_returns h.sizes hm r
  let s₁ := (({s with sizeMap := t₁} : FreeSpace).endRemove (s.node left).stop).setNode left r
  let u := ({s₁ with sizeMap := t₂} : FreeSpace).endAdd (start+size) left
  have hu := h.replace (u := u) (r := r) hm (Nat.add_pos_right _ hsize)
    (fun a => by rw [hjoin,freeCover_erase hm]; omega) hdisjoint
    (fun j hj => h.apart j (mem_of_mem_erase hj) left hm)
    (fun j hj heq => h.starts.key_ne hr (mem_of_mem_erase hj) (heq.symm.trans hjoinStop))
    ht₂ (add_remove_self (h.starts.apply hm)).symm (by rw [hjoinStop]; rfl) rfl
  refine ⟨u,?_,hu⟩
  simp only [addFreeSpace,hl,hr,Build.assert_of hs]
  exact hrem.bind ((hins s₁ rfl rfl).bind (.of_eq fun _ => rfl))

/-- The space joins the node that starts where it ends. -/
theorem addFreeSpace_right (hl : s.endAddressMap start = none)
    (hr : s.startAddressMap (start+size) = some right) :
    ∃ u, Returns (fun fuel => s.addFreeSpace b fuel start size fresh) u ∧ u.Holds F ∧
      ∀ a, freeCover u F a = covers ⟨start,size⟩ a+freeCover s F a := by
  obtain ⟨hm,hs⟩ : right ∈ F ∧ (s.node right).start = start+size :=
    (h.starts (start+size) right).mp hr
  let r : Range := ⟨start,(s.node right).size+size⟩
  have hjoin : ∀ a, r.covers a = covers ⟨start,size⟩ a+(s.node right).covers a := by
    intro a
    simp only [r]
    rw [Nat.add_comm,covers_cut,← hs]
  have hjoinStop : r.stop = (s.node right).stop := by
    simp only [stop,r]
    omega
  obtain ⟨t₁,t₂,hrem,ht₂,hins⟩ := resize_returns h.sizes hm r
  let s₁ := (({s with sizeMap := t₁} : FreeSpace).startRemove (start+size)).setNode right r
  let u := ({s₁ with sizeMap := t₂} : FreeSpace).startAdd start right
  have hu := h.replace (u := u) (r := r) hm (Nat.add_pos_right _ hsize)
    (fun a => by rw [hjoin,freeCover_erase hm]; omega) hdisjoint
    (fun j hj => h.stops.key_ne hl (mem_of_mem_erase hj))
    (fun j hj heq => h.apart right hm j (mem_of_mem_erase hj) (hjoinStop.symm.trans heq))
    ht₂ (by rw [hs]; rfl)
    (by rw [hjoinStop]; exact (add_remove_self (h.stops.apply hm)).symm) rfl
  refine ⟨u,?_,hu⟩
  simp only [addFreeSpace,hl,hr,Build.assert_of]
  exact hrem.bind ((hins s₁ rfl rfl).bind (.of_eq fun _ => rfl))

/-- The space fills the gap between two nodes, which become one. -/
theorem addFreeSpace_both (hl : s.endAddressMap start = some left)
    (hrt : s.startAddressMap (start+size) = some right) :
    ∃ u, Returns (fun fuel => s.addFreeSpace b fuel start size fresh) u ∧ u.Holds (F.erase right) ∧
      ∀ a, freeCover u (F.erase right) a = covers ⟨start,size⟩ a+freeCover s F a := by
  obtain ⟨hmemL,hstop⟩ : left ∈ F ∧ (s.node left).stop = start := (h.stops start left).mp hl
  obtain ⟨hmemR,hs⟩ : right ∈ F ∧ (s.node right).start = start+size :=
    (h.starts (start+size) right).mp hrt
  have hne : left ≠ right := by
    rintro rfl
    rw [stop] at hstop
    omega
  have hm : left ∈ F.erase right := mem_erase.mpr ⟨hne,hmemL⟩
  have hmem' : right ∈ F.erase left := mem_erase.mpr ⟨hne.symm,hmemR⟩
  let r : Range := ⟨(s.node left).start,(s.node left).size+(size+(s.node right).size)⟩
  have hjoin : ∀ a, r.covers a =
      (s.node left).covers a+(covers ⟨start,size⟩ a+(s.node right).covers a) := by
    intro a
    rw [covers_cut,covers_cut,show (s.node left).start+(s.node left).size = start from hstop,← hs]
  have hrtStop : (s.node right).stop = start+size+(s.node right).size := by
    rw [stop,hs]
  have hjoinStop : r.stop = (s.node right).stop := by
    simp only [stop,r] at hstop hrtStop ⊢
    omega
  -- the tree loses both nodes and gets the left one back
  obtain ⟨t₁,hr₁,ht₁⟩ := sizeMapRemove_returns h.sizes hmemL
  let s₁ := ({s with sizeMap := t₁} : FreeSpace).endRemove (s.node left).stop
  obtain ⟨t₂,hrem₂,ht₂⟩ := sizeMapRemove_returns (s := s₁) ht₁ hmem'
  let s₂ := (((({s₁ with sizeMap := t₂} : FreeSpace).startRemove (start+size)).endRemove
    (start+size+(s.node right).size)).setNode left r)
  have hnotMem : left ∉ (F.erase left).erase right := fun hm =>
    notMem_erase left F (mem_of_mem_erase hm)
  have hk : ∀ j ∈ (F.erase left).erase right, s₂.key j = s.key j := by
    intro j hj
    have hji : j ≠ left := fun heq => hnotMem (heq ▸ hj)
    simp [key,s₂,s₁,setNode,startRemove,endRemove,hji]
  obtain ⟨t₃,hins,ht₃⟩ := sizeMapInsert_returns (s := s₂) (ht₂.congr hk) hnotMem
  have hF : insert left ((F.erase left).erase right) = F.erase right := by
    rw [erase_right_comm,insert_erase hm]
  rw [hF] at ht₃
  let u := ({s₂ with sizeMap := t₃} : FreeSpace).endAdd (start+size+(s.node right).size) left
  -- first the right node leaves, then the left one grows
  obtain ⟨t,-,ht⟩ := h.sizes.remove hmemR
  let v : FreeSpace := ⟨t,remove s.startAddressMap (s.node right).start,
    remove s.endAddressMap (s.node right).stop,s.node⟩
  have hv : v.Holds (F.erase right) := h.erase hmemR ht rfl rfl rfl
  have hc : ∀ a, r.covers a+freeCover v ((F.erase right).erase left) a =
      covers ⟨start,size⟩ a+freeCover s F a := by
    intro a
    rw [hjoin,freeCover_erase hmemR,freeCover_erase hm]
    change _+freeCover s _ a = _
    omega
  have hmaps : u.endAddressMap = add (remove v.endAddressMap (v.node left).stop) r.stop left := by
    rw [hjoinStop,hrtStop]
    change add (remove (remove s.endAddressMap (s.node left).stop) _) _ left =
      add (remove (remove s.endAddressMap (s.node right).stop) (s.node left).stop) _ left
    rw [remove_comm,hrtStop]
  have hstarts : u.startAddressMap =
      add (remove v.startAddressMap (v.node left).start) r.start left := by
    rw [add_remove_self (hv.starts.apply hm)]
    change remove s.startAddressMap (start+size) = remove s.startAddressMap (s.node right).start
    rw [hs]
  have hu := hv.replace (u := u) hm (Nat.add_pos_right _ (Nat.add_pos_left hsize _)) hc hdisjoint
    (fun j hj => h.apart j (mem_of_mem_erase (mem_of_mem_erase hj)) left hmemL)
    (fun j hj heq => h.apart right hmemR j (mem_of_mem_erase (mem_of_mem_erase hj))
      (hjoinStop.symm.trans heq))
    ht₃ hstarts hmaps rfl
  refine ⟨u,?_,hu⟩
  have ha : (s.node left).start+(s.node left).size+size+(s.node right).size =
      start+size+(s.node right).size := by
    simp only [stop] at hstop
    omega
  simp only [addFreeSpace,hl,hrt,Build.assert_of hstop]
  refine hr₁.bind (.bind (.of_eq fun _ => Build.assert_of hs)
    (.bind (.of_eq fun _ => Build.assert_of ha) ?_))
  exact hrem₂.bind (hins.bind (.of_eq fun _ => rfl))

/-- The space has no neighbours and becomes a node of its own. -/
theorem addFreeSpace_alone (hf : fresh ∉ F)
    (hl : s.endAddressMap start = none) (hr : s.startAddressMap (start+size) = none) :
    ∃ u, Returns (fun fuel => s.addFreeSpace b fuel start size fresh) u ∧ u.Holds (insert fresh F) ∧
      ∀ a, freeCover u (insert fresh F) a = covers ⟨start,size⟩ a+freeCover s F a := by
  let s₁ := s.setNode fresh ⟨start,size⟩
  have hk : ∀ j ∈ F, s₁.key j = s.key j := by
    intro j hj
    have hne : j ≠ fresh := fun heq => hf (heq ▸ hj)
    simp [key,s₁,setNode,hne]
  obtain ⟨t,hins,ht⟩ := sizeMapInsert_returns (s := s₁) (h.sizes.congr hk) hf
  let u := (({s₁ with sizeMap := t} : FreeSpace).startAdd start fresh).endAdd (start+size) fresh
  obtain ⟨hu,hc⟩ := h.insert (u := u) (r := ⟨start,size⟩) hf hsize hdisjoint
    (fun j hj => h.stops.key_ne hl hj) (fun j hj heq => h.starts.key_ne hr hj heq.symm)
    ht rfl rfl rfl
  refine ⟨u,?_,hu,hc⟩
  simp only [addFreeSpace,hl,hr]
  exact hins.bind (.of_eq fun _ => rfl)

theorem addFreeSpace_returns (hf : fresh ∉ F) :
    ∃ u F', Returns (fun fuel => s.addFreeSpace b fuel start size fresh) u ∧ u.Holds F' ∧
      ∀ a, freeCover u F' a = covers ⟨start,size⟩ a+freeCover s F a := by
  cases hl : s.endAddressMap start with
  | none =>
    cases hr : s.startAddressMap (start+size) with
    | none =>
      obtain ⟨u,hu⟩ := addFreeSpace_alone b h hsize hdisjoint hf hl hr
      exact ⟨u,_,hu⟩
    | some right =>
      obtain ⟨u,hu⟩ := addFreeSpace_right b h hsize hdisjoint hl hr
      exact ⟨u,_,hu⟩
  | some left =>
    cases hr : s.startAddressMap (start+size) with
    | none =>
      obtain ⟨u,hu⟩ := addFreeSpace_left b h hsize hdisjoint hl hr
      exact ⟨u,_,hu⟩
    | some right =>
      obtain ⟨u,hu⟩ := addFreeSpace_both b h hsize hdisjoint hl hr
      exact ⟨u,_,hu⟩

end

/-! ### Taking space out -/

section
variable (h : s.Holds F)
include h

section Found
variable (hi : i ∈ F)
  (hfind : Returns (fun fuel => s.sizeMap.findLeastGreaterThanOrEqual s.key fuel size) (some i))
include hi hfind

/-- The node found has exactly the size that is needed. -/
theorem findAndRemoveFreeSpace_exact (b : Build) (hsize : (s.node i).size = size) :
    ∃ u, Returns (fun fuel => s.findAndRemoveFreeSpace b fuel size) ((s.node i).start,u) ∧
      u.Holds (F.erase i) ∧ ∀ a, freeCover s F a =
        covers ⟨(s.node i).start,size⟩ a+freeCover u (F.erase i) a := by
  obtain ⟨t,hr,ht⟩ := sizeMapRemove_returns h.sizes hi
  let u := (({s with sizeMap := t} : FreeSpace).startRemove (s.node i).start).endRemove
    (s.node i).stop
  refine ⟨u,?_,h.erase hi ht rfl rfl rfl,fun a => ?_⟩
  · refine hfind.bind (.bind (.of_eq fun _ => Build.assert_of hsize.ge) (hr.bind ?_))
    simp only [hsize,if_true]
    exact .of_eq fun _ => by rw [← hsize]; rfl
  · rw [freeCover_erase hi,← hsize]
    rfl

/-- The space is cut off at the left end of a larger node. -/
theorem findAndRemoveFreeSpace_left (hsize : 0 < size) (hlt : size < (s.node i).size)
    (hp : prefersLeft b (s.node i) size) :
    ∃ u, Returns (fun fuel => s.findAndRemoveFreeSpace b fuel size) ((s.node i).start,u) ∧
      u.Holds F ∧ ∀ a, freeCover s F a = covers ⟨(s.node i).start,size⟩ a+freeCover u F a := by
  let r : Range := ⟨(s.node i).start+size,(s.node i).size-size⟩
  have hcut : ∀ a, (s.node i).covers a = covers ⟨(s.node i).start,size⟩ a+r.covers a := by
    intro a
    rw [← covers_cut,Nat.add_sub_cancel' hlt.le]
  have hs : r.stop = (s.node i).stop := by
    simp only [stop,r]
    omega
  obtain ⟨t₁,t₂,hr,ht₂,hins⟩ := resize_returns h.sizes hi r
  let s₁ := (({s with sizeMap := t₁} : FreeSpace).startRemove (s.node i).start).setNode i r
  let u := ({s₁ with sizeMap := t₂} : FreeSpace).startAdd ((s.node i).start+size) i
  have hdisjoint : ∀ a, r.covers a+freeCover s (F.erase i) a ≤ 1 := by
    intro a
    have hle := h.disjoint a
    rw [freeCover_erase hi,hcut] at hle
    omega
  have hb : ∀ j ∈ F.erase i, (s.node j).stop ≠ r.start := by
    intro j hj heq
    have hl := last_mem (h.nonempty j (mem_of_mem_erase hj))
    have hm : (s.node j).stop-1 ∈ s.node i := by
      simp only [mem_iff,stop,r] at heq ⊢
      omega
    exact ne_of_mem_erase hj (h.eq_of_mem (mem_of_mem_erase hj) hi hl hm)
  obtain ⟨hu,hc⟩ := h.replace (u := u) hi (Nat.sub_pos_of_lt hlt) (fun _ => rfl) hdisjoint hb
    (fun j hj heq => h.apart i hi j (mem_of_mem_erase hj) (hs.symm.trans heq))
    ht₂ rfl (by rw [hs]; exact (add_remove_self (h.stops.apply hi)).symm) rfl
  refine ⟨u,?_,hu,fun a => ?_⟩
  · refine hfind.bind (.bind (.of_eq fun _ => Build.assert_of hlt.le) (hr.bind ?_))
    simp only [hlt.ne',hp,if_true,if_false]
    exact (hins s₁ rfl rfl).bind (.of_eq fun _ => rfl)
  · rw [hc,freeCover_erase hi,hcut,Nat.add_assoc]

/-- The space is cut off at the right end of a larger node. -/
theorem findAndRemoveFreeSpace_right (hsize : 0 < size) (hlt : size < (s.node i).size)
    (hp : prefersLeft b (s.node i) size = false) :
    ∃ u, Returns (fun fuel => s.findAndRemoveFreeSpace b fuel size)
        ((s.node i).start+(s.node i).size-size,u) ∧
      u.Holds F ∧ ∀ a, freeCover s F a =
        covers ⟨(s.node i).start+(s.node i).size-size,size⟩ a+freeCover u F a := by
  let r : Range := ⟨(s.node i).start,(s.node i).size-size⟩
  have hs : r.stop = (s.node i).start+(s.node i).size-size := by
    simp only [stop,r]
    omega
  have hcut : ∀ a, (s.node i).covers a =
      r.covers a+covers ⟨(s.node i).start+(s.node i).size-size,size⟩ a := by
    intro a
    rw [← hs,stop,← covers_cut,Nat.sub_add_cancel hlt.le]
  obtain ⟨t₁,t₂,hr,ht₂,hins⟩ := resize_returns h.sizes hi r
  let s₁ := (({s with sizeMap := t₁} : FreeSpace).endRemove (s.node i).stop).setNode i r
  let u := ({s₁ with sizeMap := t₂} : FreeSpace).endAdd ((s.node i).start+(s.node i).size-size) i
  have hdisjoint : ∀ a, r.covers a+freeCover s (F.erase i) a ≤ 1 := by
    intro a
    have hle := h.disjoint a
    rw [freeCover_erase hi,hcut] at hle
    omega
  have ha : ∀ j ∈ F.erase i, r.stop ≠ (s.node j).start := by
    intro j hj heq
    have hstart := start_mem (h.nonempty j (mem_of_mem_erase hj))
    have hm : (s.node j).start ∈ s.node i := by
      simp only [mem_iff,stop]
      omega
    exact ne_of_mem_erase hj (h.eq_of_mem (mem_of_mem_erase hj) hi hstart hm)
  obtain ⟨hu,hc⟩ := h.replace (u := u) hi (Nat.sub_pos_of_lt hlt) (fun _ => rfl) hdisjoint
    (fun j hj => h.apart j (mem_of_mem_erase hj) i hi) ha
    ht₂ (add_remove_self (h.starts.apply hi)).symm (by rw [hs]; rfl) rfl
  refine ⟨u,?_,hu,fun a => ?_⟩
  · refine hfind.bind (.bind (.of_eq fun _ => Build.assert_of hlt.le) (hr.bind ?_))
    simp only [hlt.ne',hp,Bool.false_eq_true,if_false]
    exact (hins s₁ rfl rfl).bind (.of_eq fun _ => rfl)
  · rw [hc,freeCover_erase hi,hcut]
    omega

end Found

/-- Space is taken out of the free space if some node is large enough. -/
theorem findAndRemoveFreeSpace_returns (b : Build) (hsize : 0 < size) :
    (Returns (fun fuel => s.findAndRemoveFreeSpace b fuel size) (0,s) ∧
      ∀ i ∈ F, (s.node i).size < size) ∨
    ∃ start u F', Returns (fun fuel => s.findAndRemoveFreeSpace b fuel size) (start,u) ∧
      u.Holds F' ∧
      ∀ a, freeCover s F a = covers ⟨start,size⟩ a+freeCover u F' a := by
  obtain ⟨o,hfind,ho⟩ := h.sizes.findNearest .left size
  cases o with
  | none => exact .inl ⟨hfind.bind (.of_eq fun _ => rfl),ho⟩
  | some i =>
    obtain ⟨hi,hle,-⟩ := ho
    refine .inr ?_
    rcases Nat.lt_or_eq_of_le (not_lt.mp hle : size ≤ (s.node i).size) with hlt | heq
    · cases hp : prefersLeft b (s.node i) size with
      | true =>
        obtain ⟨u,hu⟩ := findAndRemoveFreeSpace_left h hi hfind hsize hlt hp
        exact ⟨_,u,_,hu⟩
      | false =>
        obtain ⟨u,hu⟩ := findAndRemoveFreeSpace_right h hi hfind hsize hlt hp
        exact ⟨_,u,_,hu⟩
    · obtain ⟨u,hu⟩ := findAndRemoveFreeSpace_exact h hi hfind b heq.symm
      exact ⟨_,u,_,hu⟩

end

end FreeSpace

end QPlusWeb.MetaAllocation
