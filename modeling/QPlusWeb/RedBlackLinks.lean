import QPlusWeb.RedBlackTree
import QPlusWeb.FuelledCalls
import Mathlib.Tactic.Tauto

/-!
# Trees in memory

`Holds` says that a tree of values is stored in the nodes with all its links,
and `HoldsCtx` that the surroundings of a place are. `Focus t C T` is the whole
tree seen from one place: `T` stands where the hole of `C` is. The pointer
operations of the red-black tree are described by how they change `C` and `T`.
-/
namespace QPlusWeb.RedBlack

open ColoredTree ColoredTree.Tree FuelledCalls List

variable {N : Type}

/-- The contents of a node that has `near` on side `d` and `far` on the other. -/
def Node.sided (d : Side) (near far parent : Option N) (c : Color) : Node N :=
  match d with
  | .left => ⟨near, far, parent, c⟩
  | .right => ⟨far, near, parent, c⟩

theorem Node.sided_flip (d : Side) (near far parent : Option N) (c : Color) :
    Node.sided d.flip near far parent c = Node.sided d far near parent c := by
  cases d <;> rfl

namespace RedBlackTree
variable {t u : RedBlackTree N} {d : Side} {c e : Color} {x y z p : N} {C : Ctx N}
  {T U V S : Tree N}

section
variable {near far above : Option N}

section
variable (h : t.node x = Node.sided d near far above c)
include h

theorem child_near : t.child d x = near := by
  cases d <;> simp [child,left,right,h,Node.sided]

theorem child_far : t.child d.flip x = far := by
  rw [← Node.sided_flip] at h
  exact child_near h

theorem parent_sided : t.parent x = above := by
  cases d <;> simp [parent,h,Node.sided]

theorem color_sided : t.color x = c := by
  cases d <;> simp [color,h,Node.sided]

end

end

/-! ### Stored trees -/

/-- The tree is stored under the parent `p`. -/
def Holds (t : RedBlackTree N) : Option N → Tree N → Prop
  | _, .nil => True
  | p, .node c l a r =>
    t.node a = ⟨l.rootLabel, r.rootLabel, p, c⟩ ∧ t.Holds (some a) l ∧ t.Holds (some a) r

/-- The surroundings of a hole are stored, with `v` in the hole. -/
def HoldsCtx (t : RedBlackTree N) : Ctx N → Option N → Prop
  | .top, v => t.root = v
  | .frame d c a s up, v =>
    t.node a = Node.sided d v s.rootLabel up.parent c ∧ t.Holds (some a) s ∧
      t.HoldsCtx up (some a)

theorem holds_branch {p : Option N} : t.Holds p (branch d c T x U) ↔
    t.node x = Node.sided d T.rootLabel U.rootLabel p c ∧ t.Holds (some x) T ∧
      t.Holds (some x) U := by
  cases d with
  | left => rfl
  | right =>
    exact and_congr_right fun _ => and_comm

theorem Holds.congr {p : Option N} (h : t.Holds p T) (hu : ∀ a ∈ T.toList, u.node a = t.node a) :
    u.Holds p T := by
  induction T generalizing p with
  | nil => trivial
  | node c l a r ihl ihr =>
    obtain ⟨ha,hl,hr⟩ := h
    refine ⟨?_,ihl hl fun b hb => hu b (by simp [toList,hb]),
      ihr hr fun b hb => hu b (by simp [toList,hb])⟩
    rw [hu a (by simp [toList]),ha]

theorem HoldsCtx.congr {v : Option N} (h : t.HoldsCtx C v) (hr : u.root = t.root)
    (hu : ∀ a ∈ C.labels, u.node a = t.node a) : u.HoldsCtx C v := by
  induction C generalizing v with
  | top => exact hr.trans h
  | frame d c a s up ih =>
    obtain ⟨ha,hs,hup⟩ := h
    refine ⟨?_,hs.congr fun b hb => hu b (by simp [Ctx.labels,hb]),
      ih hup fun b hb => hu b (by simp [Ctx.labels,hb])⟩
    rw [hu a (by simp [Ctx.labels]),ha]

/-- The tree seen from a place: `T` stands in the hole of `C`. -/
structure Focus (t : RedBlackTree N) (C : Ctx N) (T : Tree N) : Prop where
  above : t.HoldsCtx C T.rootLabel
  below : t.Holds C.parent T
  nodup : (T.toList ++ C.labels).Nodup

theorem nodup_branch {L : List N} : ((branch d c T x U).toList++L).Nodup ↔
    (x::(T.toList++(U.toList++L))).Nodup := by
  rw [← append_assoc,← cons_append]
  exact ((toList_branch_perm d c T x U).append_right L).nodup_iff

theorem focus_branch : t.Focus C (branch d c T x U) ↔ t.Focus (.frame d c x U C) T := by
  have hp : (T.toList++x::(U.toList++C.labels)).Nodup ↔
      (x::(T.toList++(U.toList++C.labels))).Nodup := perm_middle.nodup_iff
  constructor
  · intro ⟨ha,hb,hn⟩
    rw [holds_branch] at hb
    rw [rootLabel_branch] at ha
    exact ⟨⟨hb.1,hb.2.2,ha⟩,hb.2.1,hp.mpr (nodup_branch.mp hn)⟩
  · intro ⟨⟨hx,hU,ha⟩,hT,hn⟩
    refine ⟨?_,holds_branch.mpr ⟨hx,hT,hU⟩,nodup_branch.mpr (hp.mp hn)⟩
    rwa [rootLabel_branch]

theorem focus_branch_far : t.Focus C (branch d c T x U) ↔ t.Focus (.frame d.flip c x T C) U := by
  rw [← branch_flip]
  exact focus_branch

theorem focus_plug : t.Focus C T ↔ t.Focus .top (C.plug T) := by
  induction C generalizing T with
  | top => rfl
  | frame d c a s up ih => exact focus_branch.symm.trans ih

namespace Focus

section
variable (h : t.Focus C (branch d c T x U))
include h

theorem node_eq : t.node x = Node.sided d T.rootLabel U.rootLabel C.parent c :=
  (holds_branch.mp h.below).1

theorem near : t.child d x = T.rootLabel := child_near h.node_eq

theorem far : t.child d.flip x = U.rootLabel := child_far h.node_eq

theorem parent_eq : t.parent x = C.parent := parent_sided h.node_eq

theorem color_eq : t.color x = c := color_sided h.node_eq

end

end Focus

/-! ### Reading the surroundings of a place -/

namespace Focus

theorem parent_of_rootLabel (h : t.Focus C T) (hx : T.rootLabel = some x) :
    t.parent x = C.parent := by
  cases T with
  | nil => cases hx
  | node c l a r =>
    obtain rfl := Option.some.inj hx
    rw [parent,h.below.1]

theorem ne_of_mem (h : t.Focus (.frame d c p S C) T) (hx : x ∈ T.toList) :
    x ≠ p ∧ x ∉ S.toList ∧ x ∉ C.labels := by
  have hd := (nodup_append'.mp h.nodup).2.2 hx
  simpa [Ctx.labels] using hd

theorem rootLabel_ne (h : t.Focus (.frame d c p S C) T) (hx : T.rootLabel = some x) :
    some x ≠ S.rootLabel := by
  intro heq
  exact (h.ne_of_mem (rootLabel_mem hx)).2.1 (rootLabel_mem heq.symm)

end Focus

theorem HoldsCtx.root_mem {v : Option N} (h : t.HoldsCtx (.frame d c p S C) v) :
    ∃ r, t.root = some r ∧ r ∈ (Ctx.frame d c p S C).labels := by
  induction C generalizing d c p S v with
  | top => exact ⟨p,h.2.2,by simp [Ctx.labels]⟩
  | frame d' c' a s up ih =>
    obtain ⟨r,hr,hm⟩ := ih h.2.2
    exact ⟨r,hr,mem_cons_of_mem _ (mem_append_right _ hm)⟩

theorem Focus.root_ne (h : t.Focus (.frame d c p S C) T) (hx : T.rootLabel = some x) :
    some x ≠ t.root := by
  obtain ⟨r,hr,hm⟩ := h.above.root_mem
  rw [hr]
  intro heq
  obtain rfl := Option.some.inj heq
  exact (nodup_append'.mp h.nodup).2.2 (rootLabel_mem hx) hm

/-- The color of the root of a stored tree can be read through its pointer. -/
theorem isRed_eq {q : Option N} (h : t.Holds q T) {n : ℕ} (hT : Balanced T c n) :
    t.isRed T.rootLabel = decide (c = .red) := by
  cases hT with
  | nil => rfl
  | red | black => simp [isRed,rootLabel,color,h.1]

/-! ### Writing -/

variable [DecidableEq N] {f : Node N → Node N} {v q : Option N}

/-- Comparing the left link with a child finds the side of the child. -/
theorem Focus.side_eq (h : t.Focus (.frame d c p S C) T) (hne : T.rootLabel ≠ S.rootLabel) :
    (if T.rootLabel = t.left p then Side.left else Side.right) = d := by
  have hb := focus_branch.mpr h
  cases d with
  | left =>
    have hl : t.left p = T.rootLabel := hb.near
    rw [if_pos hl.symm]
  | right =>
    have hl : t.left p = S.rootLabel := hb.far
    rw [hl,if_neg hne]

@[simp] theorem modify_self : (t.modify x f).node x = f (t.node x) := by
  simp [modify]

theorem modify_of_ne (h : y ≠ x) : (t.modify x f).node y = t.node y := by
  simp [modify,h]

theorem Holds.modify (h : t.Holds q T) (hx : x ∉ T.toList) : (t.modify x f).Holds q T :=
  h.congr fun _ ha => modify_of_ne fun heq => hx (heq ▸ ha)

theorem HoldsCtx.modify (h : t.HoldsCtx C v) (hx : x ∉ C.labels) : (t.modify x f).HoldsCtx C v :=
  h.congr rfl fun _ ha => modify_of_ne fun heq => hx (heq ▸ ha)

theorem setChild_of_ne (h : y ≠ x) : (t.setChild d x v).node y = t.node y := by
  cases d with
  | left => exact (modify_of_ne h : (t.setLeft x v).node y = t.node y)
  | right => exact (modify_of_ne h : (t.setRight x v).node y = t.node y)

theorem setParent_of_ne (h : y ≠ x) : (t.setParent x v).node y = t.node y := modify_of_ne h

@[simp] theorem setChild_root : (t.setChild d x v).root = t.root := by
  cases d <;> rfl

section
variable {near far above : Option N} (h : t.node x = Node.sided d near far above c)
include h

theorem setChild_near : (t.setChild d x v).node x = Node.sided d v far above c := by
  cases d <;> simp [setChild,setLeft,setRight,h,Node.sided]

theorem setChild_far : (t.setChild d.flip x v).node x = Node.sided d near v above c := by
  cases d <;> simp [setChild,setLeft,setRight,h,Node.sided,Side.flip]

theorem setParent_sided : (t.setParent x v).node x = Node.sided d near far v c := by
  cases d <;> simp [setParent,h,Node.sided]

theorem setColor_sided : (t.setColor x e).node x = Node.sided d near far above e := by
  cases d <;> simp [setColor,h,Node.sided]

end

theorem setParentOf_of_notMem (h : y ∉ U.toList) :
    (t.setParentOf U.rootLabel q).node y = t.node y := by
  cases U with
  | nil => rfl
  | node c l a r =>
    have hne : y ≠ a := fun heq => h (by simp [toList,heq])
    exact setParent_of_ne hne

@[simp] theorem setParentOf_root : (t.setParentOf v q).root = t.root := by
  cases v <;> rfl

theorem Holds.setParentOf (h : t.Holds v U) (hU : U.toList.Nodup) :
    (t.setParentOf U.rootLabel q).Holds q U := by
  cases U with
  | nil => trivial
  | node c l a r =>
    obtain ⟨ha,hl,hr⟩ := h
    have hd : (a::(l.toList++r.toList)).Nodup := perm_middle.nodup_iff.mp hU
    obtain ⟨hal,har⟩ : a ∉ l.toList ∧ a ∉ r.toList := by
      simpa using (nodup_cons.mp hd).1
    change (t.setParent a q).Holds q (.node c l a r)
    refine ⟨?_,hl.modify hal,hr.modify har⟩
    simp [setParent,ha]

/-- `relink` writes to the surroundings of the node only. -/
theorem relink_of_notMem (hp : t.parent x = C.parent) (h : y ∉ C.labels) :
    (t.relink x v).node y = t.node y := by
  unfold relink
  rw [hp]
  cases C with
  | top => rfl
  | frame d c a s up =>
    have hne : y ≠ a := fun heq => h (by simp [Ctx.labels,heq])
    simp only [Ctx.parent]
    split
    · exact modify_of_ne hne
    · exact modify_of_ne hne

/-- Writing the link of the parent replaces what stands in the hole. -/
theorem HoldsCtx.setChild {w : Option N} (h : t.HoldsCtx (.frame d c x T C) v)
    (hn : (x::(T.toList++C.labels)).Nodup) :
    (t.setChild d x w).HoldsCtx (.frame d c x T C) w := by
  obtain ⟨hx,hT,hC⟩ := h
  obtain ⟨hxT,hxC⟩ : x ∉ T.toList ∧ x ∉ C.labels := by
    simpa using (nodup_cons.mp hn).1
  refine ⟨setChild_near hx,?_,?_⟩
  · exact hT.congr fun b hb => setChild_of_ne fun heq => hxT (heq ▸ hb)
  · exact hC.congr setChild_root fun b hb => setChild_of_ne fun heq => hxC (heq ▸ hb)

theorem HoldsCtx.relink (h : t.HoldsCtx C (some x)) (hp : t.parent x = C.parent)
    (hn : (x::C.labels).Nodup) : (t.relink x v).HoldsCtx C v := by
  unfold RedBlackTree.relink
  rw [hp]
  cases C with
  | top => rfl
  | frame d c a s up =>
    have ha := h.1
    obtain ⟨hx,hlabs⟩ := nodup_cons.mp hn
    have hxs : x ∉ s.toList := fun hm => hx (by simp [Ctx.labels,hm])
    -- the test for the left link finds the side of the hole
    have hs : (if some x = t.left a then t.setLeft a v else t.setRight a v) = t.setChild d a v := by
      cases d with
      | left =>
        have hl : t.left a = some x := child_near ha
        rw [if_pos hl.symm]
        rfl
      | right =>
        have hl : t.left a = s.rootLabel := child_far ha
        rw [if_neg]
        · rfl
        · intro heq
          exact hxs (rootLabel_mem (heq.trans hl).symm)
    simp only [Ctx.parent]
    rw [hs]
    exact h.setChild hlabs

namespace Focus

theorem modify (h : t.Focus C T) (hT : x ∉ T.toList) (hC : x ∉ C.labels) :
    (t.modify x f).Focus C T :=
  ⟨h.above.modify hC,h.below.modify hT,h.nodup⟩

theorem setColor (h : t.Focus C (branch d c T x U)) :
    (t.setColor x e).Focus C (branch d e T x U) := by
  obtain ⟨hx,hT,hU⟩ := holds_branch.mp h.below
  have hn := nodup_branch.mp h.nodup
  have hm : x ∉ T.toList ∧ x ∉ U.toList ∧ x ∉ C.labels := by
    simpa using (nodup_cons.mp hn).1
  refine ⟨?_,?_,nodup_branch.mpr hn⟩
  · have ha := h.above
    rw [rootLabel_branch] at ha ⊢
    exact ha.modify hm.2.2
  · exact holds_branch.mpr ⟨setColor_sided hx,hT.modify hm.1,hU.modify hm.2.1⟩

/-- Rotating towards side `d` brings the child on the other side up. -/
theorem rotate {c' : Color} (h : t.Focus C (branch d c T x (branch d c' U y V))) :
    ∃ u, t.rotate d x = some (y,u) ∧ u.Focus C (branch d c' (branch d c T x U) y V) := by
  obtain ⟨hx,hT,hbelow⟩ := holds_branch.mp h.below
  obtain ⟨hy,hU,hV⟩ := holds_branch.mp hbelow
  have ha := h.above
  rw [rootLabel_branch] at hx ha
  have hn : (x::(T.toList++(y::(U.toList++(V.toList++C.labels))))).Nodup := by
    have hi := nodup_branch.mp h.nodup
    have hperm := (toList_branch_perm d c' U y V).append_right C.labels
    rw [cons_append,append_assoc] at hperm
    exact ((hperm.append_left T.toList).cons x).nodup_iff.mp hi
  have hres : ((branch d c' (branch d c T x U) y V).toList++C.labels).Nodup := by
    rw [toList_rotate d c' c c c' T U V x y]
    exact h.nodup
  simp only [nodup_cons,nodup_append',mem_append,mem_cons,not_or,
    disjoint_cons_right,disjoint_append_right] at hn
  obtain ⟨⟨hxT,hxy,hxU,hxV,hxC⟩,-,⟨⟨hyU,hyV,hyC⟩,hUn,⟨-,hCn,hVC⟩,hUV,hUC⟩,hyT,hTU,-,hTC⟩ := hn
  let t₁ := t.setChild d.flip x (t.child d y)
  let t₂ := t₁.setParentOf (t₁.child d y) (some x)
  let t₃ := t₂.setParent y (t₂.parent x)
  let t₄ := t₃.relink x (some y)
  let t₅ := t₄.setChild d y (some x)
  have hr : t.rotate d x = some (y,t₅.setParent x (some y)) := by
    rw [RedBlackTree.rotate,child_far hx]
    rfl
  refine ⟨_,hr,?_⟩
  -- the subtree between the two nodes goes to `x`
  have hx₁ : t₁.node x = Node.sided d T.rootLabel U.rootLabel C.parent c := by
    rw [← child_near hy]
    exact setChild_far hx
  have hy₁ : t₁.node y = Node.sided d U.rootLabel V.rootLabel (some x) c' :=
    (setChild_of_ne (Ne.symm hxy)).trans hy
  have ht₂ : t₂ = t₁.setParentOf U.rootLabel (some x) := by
    rw [← child_near hy₁]
  have hbef : ∀ b, b ≠ x → b ∉ U.toList → t₂.node b = t.node b := by
    intro b hbx hbU
    rw [ht₂,setParentOf_of_notMem hbU]
    exact setChild_of_ne hbx
  have hx₂ : t₂.node x = Node.sided d T.rootLabel U.rootLabel C.parent c := by
    rw [ht₂,setParentOf_of_notMem hxU,hx₁]
  have hy₂ : t₂.node y = Node.sided d U.rootLabel V.rootLabel (some x) c' := by
    rw [hbef y (Ne.symm hxy) hyU,hy]
  have hU₂ : t₂.Holds (some x) U := by
    have hU₁ : t₁.Holds (some y) U := hU.congr fun b hb => setChild_of_ne fun heq => hxU (heq ▸ hb)
    rw [ht₂]
    exact hU₁.setParentOf hUn
  -- the link to `x` goes to `y`
  have hx₃ : t₃.node x = Node.sided d T.rootLabel U.rootLabel C.parent c :=
    (setParent_of_ne hxy).trans hx₂
  have hp : t₃.parent x = C.parent := parent_sided hx₃
  have hy₃ : t₃.node y = Node.sided d U.rootLabel V.rootLabel C.parent c' := by
    rw [← parent_sided hx₂]
    exact setParent_sided hy₂
  have hC₃ : t₃.HoldsCtx C (some x) := by
    have hroot : t₃.root = t.root := by
      change (t₁.setParentOf _ _).root = t.root
      rw [setParentOf_root,setChild_root]
    refine ha.congr hroot fun b hb => ?_
    rw [← hbef b (fun heq => hxC (heq ▸ hb)) (fun hbU => hUC hbU hb)]
    exact setParent_of_ne fun heq => hyC (heq ▸ hb)
  have hx₄ : t₄.node x = Node.sided d T.rootLabel U.rootLabel C.parent c :=
    (relink_of_notMem hp hxC).trans hx₃
  have hy₄ : t₄.node y = Node.sided d U.rootLabel V.rootLabel C.parent c' :=
    (relink_of_notMem hp hyC).trans hy₃
  have hC₄ : t₄.HoldsCtx C (some y) := hC₃.relink hp (nodup_cons.mpr ⟨hxC,hCn⟩)
  -- nothing else is written
  have hafter : ∀ b, b ≠ x → b ≠ y → (t₅.setParent x (some y)).node b = t₄.node b := by
    intro b hbx hby
    rw [setParent_of_ne hbx]
    exact setChild_of_ne hby
  have hf : ∀ b, b ≠ x → b ≠ y → b ∉ C.labels → (t₅.setParent x (some y)).node b = t₂.node b := by
    intro b hbx hby hbC
    rw [hafter b hbx hby,relink_of_notMem hp hbC]
    exact setParent_of_ne hby
  refine ⟨?_,holds_branch.mpr ⟨?_,holds_branch.mpr ⟨?_,?_,?_⟩,?_⟩,hres⟩
  · rw [rootLabel_branch]
    exact hC₄.congr (setChild_root) fun b hb =>
      hafter b (fun heq => hxC (heq ▸ hb)) (fun heq => hyC (heq ▸ hb))
  · rw [setParent_of_ne (Ne.symm hxy),rootLabel_branch]
    exact setChild_near hy₄
  · exact setParent_sided ((setChild_of_ne hxy).trans hx₄)
  · refine hT.congr fun b hb => ?_
    have hbx : b ≠ x := fun heq => hxT (heq ▸ hb)
    rw [hf b hbx (fun heq => hyT (heq ▸ hb)) (hTC hb),hbef b hbx (hTU hb)]
  · exact hU₂.congr fun b hb => hf b (fun heq => hxU (heq ▸ hb)) (fun heq => hyU (heq ▸ hb))
      (hUC hb)
  · refine hV.congr fun b hb => ?_
    have hbx : b ≠ x := fun heq => hxV (heq ▸ hb)
    rw [hf b hbx (fun heq => hyV (heq ▸ hb)) (hVC hb),hbef b hbx fun hbU => hUV hbU hb]

/-- A node with at most one child is taken out of the tree. -/
theorem spliceOut (h : t.Focus C (branch d c T x .nil)) :
    ∃ u, t.spliceOut x = (u,T.rootLabel,C.parent) ∧ u.Focus C T ∧ u.color x = c := by
  obtain ⟨hx,hT,-⟩ := holds_branch.mp h.below
  have ha := h.above
  rw [rootLabel_branch] at ha
  have hn := nodup_branch.mp h.nodup
  simp only [toList,nil_append,nodup_cons,nodup_append',mem_append,not_or] at hn
  obtain ⟨⟨hxT,hxC⟩,hTn,hCn,hTC⟩ := hn
  have hc : (if t.left x = none then t.right x else t.left x) = T.rootLabel := by
    cases d with
    | left =>
      have hl : t.left x = T.rootLabel := child_near hx
      have hr : t.right x = none := child_far hx
      rw [hl,hr]
      split
      · next hnone => rw [hnone]
      · rfl
    | right =>
      have hl : t.left x = none := child_far hx
      rw [if_pos hl]
      exact child_near hx
  let t₁ := t.setParentOf T.rootLabel (t.parent x)
  have hx₁ : t₁.node x = Node.sided d T.rootLabel none C.parent c :=
    (setParentOf_of_notMem hxT).trans hx
  have hp : t₁.parent x = C.parent := parent_sided hx₁
  have hC₁ : t₁.HoldsCtx C (some x) :=
    ha.congr setParentOf_root fun b hb => setParentOf_of_notMem fun hbT => hTC hbT hb
  have hT₁ : t₁.Holds C.parent T := by
    rw [← parent_sided hx]
    exact hT.setParentOf hTn
  refine ⟨t₁.relink x T.rootLabel,?_,⟨?_,?_,?_⟩,?_⟩
  · simp only [RedBlackTree.spliceOut,hc]
    rw [← hp]
  · exact hC₁.relink hp (nodup_cons.mpr ⟨hxC,hCn⟩)
  · exact hT₁.congr fun b hb => relink_of_notMem hp (hTC hb)
  · exact nodup_append'.mpr ⟨hTn,hCn,hTC⟩
  · rw [RedBlackTree.color,relink_of_notMem hp hxC,← color_sided hx₁]
    rfl

/-- A node that is not in the tree takes the place of one that is. -/
theorem takePlace (h : t.Focus C (.node c T z U)) (hyz : y ≠ z) (hyT : y ∉ T.toList)
    (hyU : y ∉ U.toList) (hyC : y ∉ C.labels) :
    ∃ u, t.takePlace z y = some u ∧ u.Focus C (.node c T y U) := by
  obtain ⟨hz,hT,hU⟩ := h.below
  have habove : t.HoldsCtx C (some z) := h.above
  have hn : (z::(T.toList++(U.toList++C.labels))).Nodup := (nodup_branch (d := .left)).mp h.nodup
  have hres : ((.node c T y U : Tree N).toList++C.labels).Nodup := by
    refine (nodup_branch (d := .left)).mpr (nodup_cons.mpr ⟨?_,hn.of_cons⟩)
    simp [hyT,hyU,hyC]
  simp only [nodup_cons,nodup_append',mem_append,not_or,disjoint_append_right] at hn
  obtain ⟨⟨hzT,hzU,hzC⟩,hTn,⟨hUn,hCn,hUC⟩,hTU,hTC⟩ := hn
  let t₁ := t.setParent y (t.parent z)
  let t₂ := t₁.setColor y (t₁.color z)
  let t₃ := t₂.setLeft y (t₂.left z)
  let t₄ := t₃.setRight y (t₃.right z)
  have hf : ∀ b, b ≠ y → t₄.node b = t.node b := by
    intro b hb
    rw [show t₄.node b = t₃.node b from modify_of_ne hb,
      show t₃.node b = t₂.node b from modify_of_ne hb,
      show t₂.node b = t₁.node b from modify_of_ne hb]
    exact modify_of_ne hb
  have hz₄ : t₄.node z = ⟨T.rootLabel,U.rootLabel,C.parent,c⟩ := (hf z hyz.symm).trans hz
  have hy₄ : t₄.node y = ⟨T.rootLabel,U.rootLabel,C.parent,c⟩ := by
    simp [t₄,t₃,t₂,t₁,setParent,RedBlackTree.setColor,setLeft,setRight,left,right,
      parent,color,modify_of_ne hyz.symm,hz]
  -- the children get their new parent
  let t₅ := t₄.setParentOf T.rootLabel (some y)
  let t₆ := t₅.setParentOf U.rootLabel (some y)
  have hframe₆ : ∀ b, b ∉ T.toList → b ∉ U.toList → t₆.node b = t₄.node b := by
    intro b hbT hbU
    rw [show t₆.node b = t₅.node b from setParentOf_of_notMem hbU]
    exact setParentOf_of_notMem hbT
  have hz₆ : t₆.node z = ⟨T.rootLabel,U.rootLabel,C.parent,c⟩ := (hframe₆ z hzT hzU).trans hz₄
  have hroot : t₆.root = t.root := by
    rw [show t₆.root = t₅.root from setParentOf_root]
    exact setParentOf_root
  have hT₆ : t₆.Holds (some y) T := by
    have hT₄ : t₄.Holds (some z) T := hT.congr fun b hb => hf b fun heq => hyT (heq ▸ hb)
    exact (hT₄.setParentOf hTn).congr fun b hb => setParentOf_of_notMem (hTU hb)
  have hU₆ : t₆.Holds (some y) U := by
    have hU₄ : t₄.Holds (some z) U := hU.congr fun b hb => hf b fun heq => hyU (heq ▸ hb)
    have hU₅ : t₅.Holds (some z) U :=
      hU₄.congr fun b hb => setParentOf_of_notMem fun hbT => hTU hbT hb
    exact hU₅.setParentOf hUn
  have hC₆ : t₆.HoldsCtx C (some z) := by
    refine habove.congr hroot fun b hb => ?_
    rw [hframe₆ b (fun hbT => hTC hbT hb) (fun hbU => hUC hbU hb)]
    exact hf b fun heq => hyC (heq ▸ hb)
  have hp : t₆.parent z = C.parent := by rw [parent,hz₆]
  have ha : t₆.parent z = none → t₆.root = some z := by
    intro hnone
    rw [hp] at hnone
    cases C with
    | top => exact hC₆
    | frame => cases hnone
  have hc : t.copyPlace z y = t₆ := by
    have hl : t₄.left z = T.rootLabel := by rw [left,hz₄]
    have hr : t₅.right z = U.rootLabel := by
      rw [right,show t₅.node z = t₄.node z from setParentOf_of_notMem hzT,hz₄]
    change (t₄.setParentOf (t₄.left z) (some y)).setParentOf
      ((t₄.setParentOf (t₄.left z) (some y)).right z) (some y) = t₆
    rw [hl,hr]
  have ht : t.takePlace z y = some (t₆.relink z (some y)) := by
    simp only [RedBlackTree.takePlace,hc,guard,if_pos ha]
    rfl
  refine ⟨_,ht,⟨?_,⟨?_,?_,?_⟩,hres⟩⟩
  · exact hC₆.relink hp (nodup_cons.mpr ⟨hzC,hCn⟩)
  · rw [relink_of_notMem hp hyC,hframe₆ y hyT hyU,hy₄]
  · exact hT₆.congr fun b hb => relink_of_notMem hp (hTC hb)
  · exact hU₆.congr fun b hb => relink_of_notMem hp (hUC hb)

end Focus

end RedBlackTree

end QPlusWeb.RedBlack
