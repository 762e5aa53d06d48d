import QPlusWeb.RedBlackLinks

/-!
# Insertion keeps the tree red-black

The way down of `treeInsert` ends at a place where the new key may stand, and
the loop of `insert` moves a red node with a possibly red parent upwards until
the colors are right. The loop invariant: the place fits a black root, and a
red root with the same number of black nodes stands there.
-/
namespace QPlusWeb.RedBlack

open ColoredTree ColoredTree.Tree FuelledCalls

variable {N K : Type} [DecidableEq N] [LinearOrder K]

namespace RedBlackTree
variable {t u : RedBlackTree N} {c : Color} {d e : Side} {x y z p g : N} {C : Ctx N}
  {T U S : Tree N} {n : ℕ}

/-! ### The loop of `insert` -/

theorem insertFixup_of_root (h : t.root = some x) (fuel : ℕ) :
    insertFixup (fuel+1) t x = some t := by
  rw [insertFixup,if_pos h.symm]

theorem insertFixup_of_black (h : t.Focus (.frame d .black p S C) T) (hx : T.rootLabel = some x)
    (fuel : ℕ) : insertFixup (fuel+1) t x = some t := by
  have hc : t.color p = .black := (focus_branch.mpr h).color_eq
  rw [insertFixup,if_neg (h.root_ne hx),h.parent_of_rootLabel hx]
  simp [Ctx.parent,hc]

/-- An outer grandchild moves up in Case 3, and the old grandparent becomes its sibling. -/
theorem insertCase3_focus
    (h : t.Focus C (branch d .black (branch d .red T p S) g U)) (hx : T.rootLabel = some x) :
    ∃ u, t.insertCase3 d x = some u ∧ u.Focus C (branch d .black T p (branch d .red S g U)) := by
  have hp := focus_branch.mp h
  have hpar : t.parent x = some p := (focus_branch.mp hp).parent_of_rootLabel hx
  have hp' : (t.setColor p .black).Focus (.frame d .black g U C) (branch d .black T p S) :=
    hp.setColor
  have hgp : (t.setColor p .black).parent p = some g := hp'.parent_eq
  have hg : ((t.setColor p .black).setColor g .red).Focus C
      (branch d .red (branch d .black T p S) g U) := (focus_branch.mpr hp').setColor
  rw [← branch_flip d .red U,← branch_flip d .black S] at hg
  obtain ⟨u,hr,hu⟩ := hg.rotate
  refine ⟨u,?_,?_⟩
  · simp [insertCase3,hpar,hgp,hr]
  · rwa [branch_flip,branch_flip] at hu

/-- After Case 2 the red node that is looked at is an outer grandchild. -/
theorem insertCase2_focus (h : t.Focus (.frame d .red p S (.frame e .black g U C)) T)
    (hT : Balanced T .red n) (hS : Balanced S .black n) (hx : T.rootLabel = some x) :
    ∃ y u L q R, t.insertCase2 e x = some (y,u) ∧ L.rootLabel = some y ∧ Balanced L .red n ∧
      Balanced R .black n ∧ u.Focus C (branch e .black (branch e .red L q R) g U) ∧
      (branch e .red L q R).toList = (branch d .red T p S).toList := by
  have hpar : t.parent x = some p := h.parent_of_rootLabel hx
  have hp := focus_branch.mpr h
  rcases Side.eq_or_eq_flip d e with rfl | rfl
  · refine ⟨x,t,T,p,S,?_,hx,hT,hS,focus_branch.mpr hp,rfl⟩
    have hne : some x ≠ t.child d.flip p := by
      rw [hp.far]
      exact h.rootLabel_ne hx
    simp [insertCase2,hpar,hne]
  · -- the inner child is exchanged with its parent
    obtain ⟨A,a,B,rfl⟩ := hT.exists_branch_of_red e
    rw [rootLabel_branch] at hx
    obtain rfl := Option.some.inj hx
    obtain ⟨hA,hB⟩ := hT.of_branch_red
    have hn : t.child e.flip p = some a := by
      rw [hp.near,rootLabel_branch]
    rw [branch_flip] at hp
    obtain ⟨u,hr,hu⟩ := hp.rotate
    refine ⟨p,u,branch e .red S p A,a,B,?_,rootLabel_branch ..,hS.branch_red p hA,hB,
      focus_branch.mpr hu,?_⟩
    · simp [insertCase2,hpar,hn,hr]
    · rw [branch_flip]
      exact toList_rotate ..

/-- Case 1 exchanges the colors of the grandparent and its two children. -/
theorem insertCase1_focus {A B : Tree N}
    (h : t.Focus C (branch e .black (branch d .red T p S) g (branch d .red A y B))) :
    (((t.setColor p .black).setColor y .black).setColor g .red).Focus C
      (branch e .red (branch d .black T p S) g (branch d .black A y B)) := by
  have hp : (t.setColor p .black).Focus C
      (branch e .black (branch d .black T p S) g (branch d .red A y B)) :=
    focus_branch.mpr (focus_branch.mp h).setColor
  have hy : ((t.setColor p .black).setColor y .black).Focus C
      (branch e .black (branch d .black T p S) g (branch d .black A y B)) :=
    focus_branch_far.mpr (focus_branch_far.mp hp).setColor
  exact hy.setColor

/-- One round of the loop of `insert` under a red parent. -/
theorem insertFixup_of_red {f : Color}
    (h : t.Focus (.frame d .red p S (.frame e .black g U C)) T) (hx : T.rootLabel = some x)
    (hU : Balanced U f n) (fuel : ℕ) : insertFixup (fuel+1) t x =
      if f = .red then
        U.rootLabel.bind fun y =>
          insertFixup fuel (((t.setColor p .black).setColor y .black).setColor g .red) g
      else
        (t.insertCase2 e x).bind fun r => (r.2.insertCase3 e r.1).bind fun u =>
          insertFixup fuel u r.1 := by
  have hp := focus_branch.mpr h
  have hg := focus_branch.mpr hp
  have hpar : t.parent x = some p := h.parent_of_rootLabel hx
  have hgp : t.parent p = some g := hp.parent_eq
  have hs : (if some p = t.left g then Side.left else Side.right) = e := by
    have hs := hp.side_eq
    rw [rootLabel_branch] at hs
    exact hs (hp.rootLabel_ne (rootLabel_branch ..))
  have hr : t.isRed U.rootLabel = decide (f = .red) := isRed_eq (holds_branch.mp hg.below).2.2 hU
  rw [insertFixup,if_neg (h.root_ne hx),hpar]
  simp [hp.color_eq,hgp,hs,hg.far,hr]

/-- The loop of `insert` leaves a balanced tree with the same nodes in the same order. -/
theorem insertFixup_returns (hC : Fits C .black n) (hT : Balanced T .red n) (h : t.Focus C T)
    (hx : T.rootLabel = some x) : ∃ u T' e m, Returns (fun fuel => insertFixup fuel t x) u ∧
      u.Focus .top T' ∧ Balanced T' e m ∧ T'.toList = (C.plug T).toList := by
  -- each round that goes on ends two levels higher
  induction hk : C.depth using Nat.strong_induction_on generalizing C T t x n with
  | _ k ih =>
  cases hC with
  | top =>
    have hroot : t.root = some x := h.above.trans hx
    exact ⟨t,T,.red,n,.of_succ (insertFixup_of_root hroot) (.of_eq fun _ => rfl),h,hT,rfl⟩
  | @black d p S up _ e _ hS hup =>
    have hC : Fits (.frame d .black p S up) .red n := .black hS hup
    obtain ⟨m,hm⟩ := hC.plug hT
    exact ⟨t,_,.black,m,.of_succ (insertFixup_of_black h hx) (.of_eq fun _ => rfl),
      focus_plug.mp h,hm,rfl⟩
  | @red d p S up _ hS hup =>
    cases hup with
    | @black e g U up _ f _ hU hup =>
    have hr := insertFixup_of_red h hx hU
    cases f with
    | red =>
      obtain ⟨A,y,B,rfl⟩ := hU.exists_branch_of_red d
      have hU' := hU.of_branch_red
      have hf := insertCase1_focus (focus_branch.mpr (focus_branch.mpr h))
      have hb : Balanced (branch e .red (branch d .black T p S) g (branch d .black A y B))
          .red (n+1) :=
        (hT.branch_black p hS).branch_red g (hU'.1.branch_black y hU'.2)
      obtain ⟨u,T',c,m,hret,hu,hT',hl⟩ := ih up.depth
        (by simp only [← hk,Ctx.depth]; omega) hup hb hf (rootLabel_branch ..) rfl
      refine ⟨u,T',c,m,?_,hu,hT',?_⟩
      · refine .of_succ hr ?_
        simpa using hret
      · rw [hl]
        refine Ctx.toList_plug_congr up (toList_branch_congr e _ _ g ?_ ?_)
        · exact toList_branch_congr d _ _ p rfl rfl
        · exact toList_branch_congr d _ _ y rfl rfl
    | black =>
      obtain ⟨y,v,L,q,R,hc2,hy,hL,hR,hv,hl⟩ := insertCase2_focus h hT hS hx
      obtain ⟨u,hc3,hu⟩ := insertCase3_focus hv hy
      obtain ⟨m,hm⟩ := hup.plug (hL.branch_black (d := e) q (hR.branch_red (d := e) g hU))
      refine ⟨u,_,.black,m,?_,focus_plug.mp hu,hm,?_⟩
      · refine .of_succ hr ?_
        simp only [hc2,hc3,Option.bind_some]
        exact .of_succ (insertFixup_of_black (focus_branch.mp hu) hy) (.of_eq fun _ => rfl)
      · refine Ctx.toList_plug_congr up ?_
        rw [← toList_rotate e .black .red .black .red L R U q g]
        exact toList_branch_congr e _ _ g hl rfl

/-! ### The way down -/

variable (key : N → K)

omit [DecidableEq N] in
theorem treeInsertLoop_returns (h : t.Focus C T) (hC : Directed key (key z) C) :
    ∃ D, C.plug T = D.plug .nil ∧ Directed key (key z) D ∧
      Returns (fun fuel => t.treeInsertLoop key z fuel C.parent T.rootLabel) D.parent := by
  induction T generalizing C with
  | nil => exact ⟨C,rfl,hC,.of_succ (fun _ => rfl) (.of_eq fun _ => rfl)⟩
  | node c l a r ihl ihr =>
    have hl : t.left a = l.rootLabel := by rw [left,h.below.1]
    have hrt : t.right a = r.rootLabel := by rw [right,h.below.1]
    by_cases hlt : key z < key a
    · obtain ⟨D,hp,hD,hr⟩ := ihl (C := .frame .left c a r C) (focus_branch.mp h) ⟨by simp [hlt],hC⟩
      refine ⟨D,hp,hD,.of_succ (fun fuel => ?_) hr⟩
      rw [rootLabel,treeInsertLoop,if_pos hlt,hl]
      rfl
    · obtain ⟨D,hp,hD,hr⟩ := ihr (C := .frame .right c a l C) (focus_branch.mp h) ⟨by simp [hlt],hC⟩
      refine ⟨D,hp,hD,.of_succ (fun fuel => ?_) hr⟩
      rw [rootLabel,treeInsertLoop,if_neg hlt,hrt]
      rfl

/-- The new leaf is linked at the end of the way down. -/
theorem Focus.linkLeaf {key : N → K} (h : t.Focus C .nil) (hC : Directed key (key z) C)
    (hz : z ∉ C.labels)
    (hnode : t.node z = ⟨none,none,none,.red⟩) :
    (t.linkLeaf key z C.parent).Focus C (.node .red .nil z .nil) := by
  have hn : ((.node .red .nil z .nil : Tree N).toList++C.labels).Nodup :=
    List.nodup_cons.mpr ⟨hz,h.nodup⟩
  have hz' : (t.setParent z C.parent).node z = ⟨none,none,C.parent,.red⟩ := by
    simp [setParent,hnode]
  have ha : (t.setParent z C.parent).HoldsCtx C none := h.above.modify hz
  cases C with
  | top => exact ⟨rfl,⟨hz',trivial,trivial⟩,hn⟩
  | frame d c p s up =>
    have hs : t.linkLeaf key z (Ctx.frame d c p s up).parent =
        (t.setParent z (some p)).setChild d p (some z) := by
      cases d with
      | left => exact if_pos (hC.1.mp rfl)
      | right => exact if_neg fun hlt => by simpa using hC.1.mpr hlt
    have hne : z ≠ p := fun heq => hz (by simp [Ctx.labels,heq])
    rw [hs]
    refine ⟨ha.setChild h.nodup,⟨?_,trivial,trivial⟩,hn⟩
    rw [setChild_of_ne hne]
    exact hz'

theorem treeInsert_returns (h : t.Focus .top T) (hz : z ∉ T.toList) :
    ∃ u D, Returns (fun fuel => (t.reset z).treeInsert key fuel z) u ∧ D.plug .nil = T ∧
      Directed key (key z) D ∧ u.Focus D (.node .red .nil z .nil) := by
  have hn : (t.reset z).node z = ⟨none,none,none,.red⟩ := modify_self
  have hr : (t.reset z).Focus .top T := h.modify hz (by simp [Ctx.labels])
  obtain ⟨D,hp,hD,hret⟩ := treeInsertLoop_returns key hr trivial
  have hroot : (t.reset z).root = T.rootLabel := hr.above
  have hf : (t.reset z).Focus D .nil := by
    rw [focus_plug,← hp]
    exact hr
  have hm : z ∉ D.labels := by
    intro hm
    apply hz
    have hperm := Ctx.toList_plug_perm D .nil
    rw [← hp] at hperm
    exact hperm.mem_iff.mpr hm
  refine ⟨_,D,?_,hp.symm,hD,hf.linkLeaf hD hm hn⟩
  have ha : ∀ fuel, (t.reset z).treeInsert key fuel z =
      ((t.reset z).treeInsertLoop key z fuel none T.rootLabel).bind fun y =>
        some ((t.reset z).linkLeaf key z y) := by
    intro fuel
    simp only [treeInsert,left,right,parent,color,hn,hroot,guard,if_true]
    rfl
  simp only [ha]
  exact hret.bind (.of_eq fun _ => rfl)

theorem insert_returns {key : N → K} (h : t.Focus .top T) (hT : Balanced T .black n)
    (hsort : Sorted key T)
    (hz : z ∉ T.toList) : ∃ u U m, Returns (fun fuel => t.insert key fuel z) u ∧
      u.Focus .top U ∧ Balanced U .black m ∧ Sorted key U ∧ U.toList.Perm (z::T.toList) := by
  obtain ⟨t₁,D,hr₁,rfl,hD,ht₁⟩ := treeInsert_returns key h hz
  obtain ⟨c,k,hn,hf⟩ := Fits.of_plug hT
  cases hn
  have ht₂ : (t₁.setColor z .red).Focus D (.node .red .nil z .nil) :=
    Focus.setColor (d := .left) ht₁
  obtain ⟨t₃,T',e,m,hr₃,ht₃,hT',hl⟩ := insertFixup_returns hf (.red .nil .nil) ht₂ rfl
  have hp : T'.toList.Perm (z::(D.plug .nil).toList) := by
    rw [hl]
    exact (Ctx.toList_plug_perm D _).trans ((Ctx.toList_plug_perm D .nil).symm.cons z)
  have hsort' : Sorted key T' := by
    rw [Sorted,hl]
    exact hD.sorted_leaf .red hsort
  cases T' with
  | nil => exact absurd hp.symm (List.not_perm_cons_nil)
  | node c' l a r =>
    obtain ⟨m',hm'⟩ := hT'.blacken
    have hroot : t₃.root = some a := ht₃.above
    refine ⟨t₃.setColor a .black,.node .black l a r,m',?_,Focus.setColor (d := .left) ht₃,
      hm',hsort',hp⟩
    refine hr₁.bind (hr₃.bind (.of_eq fun _ => ?_))
    rw [hroot]
    rfl

end RedBlackTree

end QPlusWeb.RedBlack
