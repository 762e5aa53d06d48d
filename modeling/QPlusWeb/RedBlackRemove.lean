import QPlusWeb.RedBlackInsert

/-!
# Removal keeps the tree red-black

A black node is taken out of the tree and its place lacks one black node. The
loop of `removeFixup` moves the lack upwards: the place fits a black root with
one black node more than stands there. The sibling of such a place is never
null, because a black node lies on every way through it.
-/
namespace QPlusWeb.RedBlack

open ColoredTree ColoredTree.Tree FuelledCalls List

variable {N : Type} [DecidableEq N]

namespace RedBlackTree
variable {t u : RedBlackTree N} {c e : Color} {d : Side} {x y z p w : N} {C : Ctx N}
  {T U S L R W : Tree N} {n : ℕ}

/-! ### The cases of one round -/

/-- In Case 1 a red sibling becomes the grandparent. -/
theorem removeCase1_focus (h : t.Focus C (branch d .black T p (branch d .red L w R)))
    (hx : L.rootLabel = some x) : ∃ u, t.removeCase1 d p w = some (x,u) ∧
      u.Focus C (branch d .black (branch d .red T p L) w R) := by
  have hw := focus_branch_far.mp h
  have hw' : (t.setColor w .black).Focus C (branch d .black T p (branch d .black L w R)) :=
    focus_branch_far.mpr hw.setColor
  have hp : ((t.setColor w .black).setColor p .red).Focus C
      (branch d .red T p (branch d .black L w R)) := hw'.setColor
  obtain ⟨u,hr,hu⟩ := hp.rotate
  have hc : u.child d.flip p = some x := by
    rw [(focus_branch.mp hu).far,hx]
  refine ⟨u,?_,hu⟩
  simp [removeCase1,hw.color_eq,hr,hc]

/-- In Case 3 the red inner child of the sibling takes the place of the sibling. -/
theorem removeCase3_focus
    (h : t.Focus C (branch d c T p (branch d .black (branch d .red L x R) w S)))
    (hS : t.isRed S.rootLabel = false) : ∃ u, t.removeCase3 d p w = some (x,u) ∧
      u.Focus C (branch d c T p (branch d .black L x (branch d .red R w S))) := by
  have hw := focus_branch_far.mp h
  have hn : t.child d w = some x := by
    rw [hw.near,rootLabel_branch]
  have hx : (t.setColor x .black).Focus (.frame d.flip c p T C)
      (branch d .black (branch d .black L x R) w S) :=
    focus_branch.mpr (focus_branch.mp hw).setColor
  have hw' : ((t.setColor x .black).setColor w .red).Focus (.frame d.flip c p T C)
      (branch d .red (branch d .black L x R) w S) := hx.setColor
  rw [← branch_flip d .red S,← branch_flip d .black R] at hw'
  obtain ⟨u,hr,hu⟩ := hw'.rotate
  rw [branch_flip,branch_flip] at hu
  have hp := focus_branch_far.mpr hu
  have hc : u.child d.flip p = some x := by
    rw [hp.far,rootLabel_branch]
  refine ⟨u,?_,hp⟩
  simp [removeCase3,hw.far,hS,hn,hr,hc]

/-- Case 4 moves the sibling up, between two black nodes. -/
theorem removeCase4_focus (h : t.Focus C (branch d c T p (branch d e L w (branch d .red R x S)))) :
    ∃ u, t.removeCase4 d p w = some u ∧
      u.Focus C (branch d c (branch d .black T p L) w (branch d .black R x S)) := by
  have hw : (t.setColor w c).Focus C (branch d c T p (branch d c L w (branch d .red R x S))) :=
    focus_branch_far.mpr (focus_branch_far.mp h).setColor
  have hp : ((t.setColor w c).setColor p .black).Focus C
      (branch d .black T p (branch d c L w (branch d .red R x S))) := hw.setColor
  have hf : ((t.setColor w c).setColor p .black).child d.flip w = some x := by
    rw [(focus_branch_far.mp hp).far,rootLabel_branch]
  have hx : (((t.setColor w c).setColor p .black).setColor x .black).Focus C
      (branch d .black T p (branch d c L w (branch d .black R x S))) :=
    focus_branch_far.mpr (focus_branch_far.mpr
      (focus_branch_far.mp (focus_branch_far.mp hp)).setColor)
  obtain ⟨u,hr,hu⟩ := hx.rotate
  refine ⟨u,?_,hu⟩
  simp [removeCase4,h.color_eq,hf,setColorOf,hr]

/-! ### One round -/

/-- After Case 1 the sibling is black. The hole has the same contents, and either
nothing has changed or its parent is red. -/
theorem removeCase1_spec (h : t.Focus (.frame d c p W C) T)
    (hf : Fits (.frame d c p W C) .black (n+1)) :
    ∃ w w' u c' W' C', t.child d.flip p = some w ∧ t.removeCase1 d p w = some (w',u) ∧
      W'.rootLabel = some w' ∧ Balanced W' .black (n+1) ∧
      Fits (.frame d c' p W' C') .black (n+1) ∧ u.Focus (.frame d c' p W' C') T ∧
      ((Ctx.frame d c' p W' C').plug T).toList = ((Ctx.frame d c p W C).plug T).toList ∧
      (c' = .red ∨ C' = C) := by
  have hp := focus_branch.mpr h
  obtain ⟨e,k,hW,-,-⟩ := hf.of_frame
  obtain ⟨L,w,R,rfl⟩ := hW.exists_branch d
  have hs : t.child d.flip p = some w := by
    rw [hp.far,rootLabel_branch]
  have hcolor : t.color w = e := (focus_branch_far.mp hp).color_eq
  cases e with
  | black =>
    refine ⟨w,w,t,c,_,C,hs,?_,rootLabel_branch ..,hW,hf,h,rfl,.inr rfl⟩
    simp [removeCase1,hcolor]
  | red =>
    cases hf with
    | red hS _ => exact absurd hS (by cases d <;> nofun)
    | black hS hup =>
      obtain ⟨hL,hR⟩ := hW.of_branch_red
      obtain ⟨A,v,B,rfl⟩ := hL.exists_branch d
      obtain ⟨u,hc1,hu⟩ := removeCase1_focus hp (rootLabel_branch ..)
      refine ⟨w,v,u,.red,_,.frame d .black w R C,hs,hc1,rootLabel_branch ..,
        hL,.red hL (.black hR hup),focus_branch.mp (focus_branch.mp hu),?_,.inl rfl⟩
      exact Ctx.toList_plug_congr C (toList_rotate ..)

/-- After Case 3 the outer child of the sibling is red. -/
theorem removeCase3_spec {f : Color} (h : t.Focus C (branch d c T p (branch d .black L w R)))
    (hL : Balanced L e n) (hR : Balanced R f n) (hr : ¬(e = .black ∧ f = .black)) :
    ∃ w' u e' L' A x B, t.removeCase3 d p w = some (w',u) ∧
      u.Focus C (branch d c T p (branch d .black L' w' (branch d .red A x B))) ∧
      Balanced L' e' n ∧ Balanced A .black n ∧ Balanced B .black n ∧
      (branch d .black L' w' (branch d .red A x B)).toList = (branch d .black L w R).toList := by
  have hw := focus_branch_far.mp h
  have hi : t.isRed R.rootLabel = decide (f = .red) := isRed_eq (holds_branch.mp hw.below).2.2 hR
  cases f with
  | red =>
    obtain ⟨A,x,B,rfl⟩ := hR.exists_branch_of_red d
    obtain ⟨hA,hB⟩ := hR.of_branch_red
    refine ⟨w,t,e,L,A,x,B,?_,h,hL,hA,hB,rfl⟩
    rw [removeCase3,hw.far,if_pos (hi.trans (decide_eq_true rfl))]
  | black =>
    cases e with
    | black => exact absurd ⟨rfl,rfl⟩ hr
    | red =>
      obtain ⟨A,x,B,rfl⟩ := hL.exists_branch_of_red d
      obtain ⟨hA,hB⟩ := hL.of_branch_red
      obtain ⟨u,hc3,hu⟩ := removeCase3_focus h hi
      exact ⟨x,u,.black,A,B,w,R,hc3,hu,hA,hB,hR,(toList_rotate ..).symm⟩

/-- One round of the loop of `removeFixup`. Either the place that lacks a black
node now has a red root, or it is nearer to the root of the tree. -/
theorem removeRound_spec (h : t.Focus (.frame d c p W C) T) (hT : Balanced T .black n)
    (hfits : Fits (.frame d c p W C) .black (n+1)) :
    ∃ u D U m, t.removeRound d p = some (u,U.rootLabel,D.parent) ∧ u.Focus D U ∧
      Fits D .black (m+1) ∧ (RedRoot U m ∨ Balanced U .black m ∧ D.depth ≤ C.depth) ∧
      (D.plug U).toList = ((Ctx.frame d c p W C).plug T).toList := by
  obtain ⟨w₀,w,v,c',W',C',hs,hc1,hw,hW',hfits',hv,hlist,hpar⟩ := removeCase1_spec h hfits
  obtain ⟨L,w',R,rfl⟩ := hW'.exists_branch d
  obtain rfl : w' = w := by rwa [rootLabel_branch,Option.some_inj] at hw
  obtain ⟨e,f,hL,hR⟩ := hW'.of_branch_black
  have hp := focus_branch.mpr hv
  have hsib := focus_branch_far.mp hp
  have hn : v.isRed (v.child d w') = decide (e = .red) := by
    rw [hsib.near]
    exact isRed_eq (holds_branch.mp hsib.below).2.1 hL
  have hfar : v.isRed (v.child d.flip w') = decide (f = .red) := by
    rw [hsib.far]
    exact isRed_eq (holds_branch.mp hsib.below).2.2 hR
  by_cases hb : e = .black ∧ f = .black
  · -- Case 2
    obtain ⟨rfl,rfl⟩ := hb
    have hu : (v.setColor w' .red).Focus C' (branch d c' T p (branch d .red L w' R)) :=
      focus_branch_far.mpr hsib.setColor
    have hround : t.removeRound d p = some (v.setColor w' .red,some p,C'.parent) := by
      simp [removeRound,hs,hc1,hn,hfar,hu.parent_eq]
    have hred : Balanced (branch d .red L w' R) .red n := hL.branch_red w' hR
    have hlist' : (C'.plug (branch d c' T p (branch d .red L w' R))).toList =
        ((Ctx.frame d c p W C).plug T).toList := by
      rw [← hlist]
      refine Ctx.toList_plug_congr C' (toList_branch_congr d _ _ p rfl ?_)
      exact toList_branch_congr d _ _ w' rfl rfl
    rw [← rootLabel_branch d c' T p (branch d .red L w' R)] at hround
    cases hfits' with
    | red _ hup => exact ⟨_,C',_,n,hround,hu,hup.black_of_red,.inl (.branch p hT hred),hlist'⟩
    | black _ hup =>
      obtain rfl : C' = C := by simpa using hpar
      exact ⟨_,C',_,n+1,hround,hu,hup,.inr ⟨hT.branch_black p hred,Nat.le_refl _⟩,hlist'⟩
  · -- Case 3 and Case 4
    obtain ⟨k,u₁,e',L',A,x,B,hc3,hu₁,hL',hA,hB,hlist'⟩ := removeCase3_spec hp hL hR hb
    obtain ⟨u,hc4,hu⟩ := removeCase4_focus hu₁
    obtain ⟨-,j,-,hup,hbranch⟩ := hfits'.of_frame
    obtain ⟨m,hm⟩ := hup.plug (hbranch d k (hT.branch_black p hL') (hA.branch_black x hB))
    have ht := focus_plug.mp hu
    have hlist'' : (C'.plug (branch d c' (branch d .black T p L') k (branch d .black A x B))).toList =
        ((Ctx.frame d c p W C).plug T).toList := by
      rw [← hlist]
      refine Ctx.toList_plug_congr C' ?_
      rw [toList_rotate d c' .black c' .black]
      refine toList_branch_congr d _ _ p rfl ?_
      rw [← hlist']
      exact toList_branch_congr d _ _ k rfl (toList_branch_congr d _ _ x rfl rfl)
    obtain ⟨r,hr⟩ := Option.ne_none_iff_exists'.mp (Ctx.rootLabel_plug_ne_none C'
      (t := branch d c' (branch d .black T p L') k (branch d .black A x B)) (by simp))
    have hroot : u.root = some r := ht.above.trans hr
    have hcond : (!v.isRed (v.child d w') && !v.isRed (v.child d.flip w')) = false := by
      rw [hn,hfar]
      revert hb
      cases e <;> cases f <;> simp
    refine ⟨u,.top,_,m,?_,ht,.top,.inr ⟨hm,Nat.zero_le _⟩,hlist''⟩
    rw [hr,← ht.parent_of_rootLabel hr]
    simp only [removeRound,hs,hc1,hcond,hc3,hc4,hroot,Option.bind_eq_bind,
      Option.bind_some,Bool.false_eq_true,if_false]

/-! ### The loop of `removeFixup` -/

/-- A red root takes the black node that is lacking. -/
theorem removeFixup_of_redRoot (h : t.Focus C T) (hT : RedRoot T n) (hf : Fits C .black (n+1)) :
    ∃ u U m, Returns (fun fuel => removeFixup fuel t T.rootLabel C.parent) u ∧
      u.Focus .top U ∧ Balanced U .black m ∧ U.toList = (C.plug T).toList := by
  cases hT with
  | @intro l r a c e n hl hr =>
    have hu : (t.setColor a .black).Focus C (.node .black l a r) := Focus.setColor (d := .left) h
    obtain ⟨m,hm⟩ := hf.plug (.black hl hr)
    refine ⟨t.setColor a .black,_,m,.of_succ (fun fuel => ?_) (.of_eq fun _ => rfl),
      focus_plug.mp hu,hm,?_⟩
    · have hred : t.isRed (some a) := by
        simp [isRed,color,h.below.1]
      simp [removeFixup,rootLabel,hred,setColorOf]
    · exact Ctx.toList_plug_congr C rfl

theorem removeFixup_of_top (h : t.Focus .top T) (hT : Balanced T .black n) :
    ∃ u, Returns (fun fuel => removeFixup fuel t T.rootLabel none) u ∧ u.Focus .top T := by
  have hr : t.root = T.rootLabel := h.above
  refine ⟨t.setColorOf T.rootLabel .black,.of_succ (fun fuel => ?_) (.of_eq fun _ => rfl),?_⟩
  · simp [removeFixup,hr]
  · cases hT with
    | nil => exact h
    | black => exact Focus.setColor (d := .left) h

theorem removeFixup_returns (h : t.Focus C T)
    (hT : RedRoot T n ∨ Balanced T .black n) (hf : Fits C .black (n+1)) :
    ∃ u U m, Returns (fun fuel => removeFixup fuel t T.rootLabel C.parent) u ∧
      u.Focus .top U ∧ Balanced U .black m ∧ U.toList = (C.plug T).toList := by
  -- a round that does not end with a red root comes nearer to the root of the tree
  induction hk : C.depth using Nat.strong_induction_on generalizing C T t n with
  | _ k ih =>
  rcases hT with hT | hT
  · exact removeFixup_of_redRoot h hT hf
  cases C with
  | top =>
    obtain ⟨u,hret,hu⟩ := removeFixup_of_top h hT
    exact ⟨u,T,n,hret,hu,hT,rfl⟩
  | frame d c p W up =>
    obtain ⟨v,D,U,m,hround,hv,hfits',hU,hlist⟩ := removeRound_spec h hT hf
    have hn : ∃ u V j, Returns (fun fuel => removeFixup fuel v U.rootLabel D.parent) u ∧
        u.Focus .top V ∧ Balanced V .black j ∧ V.toList = (D.plug U).toList := by
      rcases hU with hU | ⟨hU,hd⟩
      · exact removeFixup_of_redRoot hv hU hfits'
      · exact ih D.depth (by simp only [← hk,Ctx.depth]; omega) hv (.inr hU) hfits' rfl
    obtain ⟨u,V,j,hret,hu,hV,hlist'⟩ := hn
    refine ⟨u,V,j,.of_succ (fun fuel => ?_) hret,hu,hV,hlist'.trans hlist⟩
    obtain ⟨e,i,hW,-,-⟩ := hf.of_frame
    have hne : T.rootLabel ≠ W.rootLabel := by
      intro heq
      obtain ⟨L,w,R,rfl⟩ := hW.exists_branch d
      rw [rootLabel_branch] at heq
      exact h.rootLabel_ne heq (rootLabel_branch ..).symm
    have hroot : T.rootLabel ≠ t.root := by
      intro heq
      obtain ⟨r,hr,-⟩ := h.above.root_mem
      exact h.root_ne (heq.trans hr) hr.symm
    have hb : t.isRed T.rootLabel = false := isRed_eq h.below hT
    rw [removeFixup,if_pos ⟨hroot,hb⟩]
    simp [Ctx.parent,h.side_eq hne,hround]

/-! ### Removing a node -/

/-- A node with at most one child is taken out and the colors are repaired. -/
theorem unlink_returns (h : t.Focus C (branch d c T y .nil))
    (hb : Balanced (C.plug (branch d c T y .nil)) .black n) :
    ∃ u U m, Returns (fun fuel => t.unlink fuel y) u ∧
      u.Focus .top U ∧ Balanced U .black m ∧ U.toList = (C.plug T).toList := by
  obtain ⟨v,hs,hv,hc⟩ := h.spliceOut
  simp only [unlink,hs,hc]
  obtain ⟨e,k,hy,hf⟩ := Fits.of_plug hb
  cases c with
  | red =>
    obtain rfl : e = .red := by cases d <;> cases hy <;> rfl
    obtain ⟨m,hm⟩ := hf.black_of_red.plug hy.of_branch_red.1
    exact ⟨v,_,m,.of_eq fun _ => rfl,focus_plug.mp hv,hm,rfl⟩
  | black =>
    obtain ⟨rfl,j,rfl⟩ : e = .black ∧ ∃ j, k = j+1 := by
      cases d <;> cases hy <;> exact ⟨rfl,_,rfl⟩
    obtain ⟨f,-,hT,-⟩ := hy.of_branch_black
    have hT' : RedRoot T j ∨ Balanced T .black j := by
      cases hT with
      | nil => exact .inr .nil
      | red hl hr => exact .inl (.intro hl hr)
      | black hl hr => exact .inr (.black hl hr)
    exact removeFixup_returns hv hT' hf

omit [DecidableEq N] in
/-- The node with the first label of a subtree has no left child. -/
theorem treeMinimum_returns (h : t.Focus C T) (hx : T.rootLabel = some x) :
    ∃ (D : Ctx N) (y : N) (c : Color) (R : Tree N), C.plug T = D.plug (.node c .nil y R) ∧
      D.before = C.before ∧
      Returns (fun fuel => t.treeMinimum fuel x) y := by
  induction T generalizing C x with
  | nil => cases hx
  | node c l a r ihl _ =>
    obtain rfl := Option.some.inj hx
    have hleft : t.left a = l.rootLabel := by rw [left,h.below.1]
    cases hl : l.rootLabel with
    | none =>
      obtain rfl : l = .nil := by cases l with
        | nil => rfl
        | node => cases hl
      refine ⟨C,a,c,r,rfl,rfl,.of_succ (fun fuel => ?_) (.of_eq fun _ => rfl)⟩
      rw [treeMinimum,hleft]
      rfl
    | some b =>
      obtain ⟨D,y,e,R,hp,hb,hr⟩ := ihl (C := .frame .left c a r C) (focus_branch.mp h) hl
      refine ⟨D,y,e,R,hp,hb,.of_succ (fun fuel => ?_) hr⟩
      rw [treeMinimum,hleft,hl]

omit [DecidableEq N] in
theorem Focus.assert_of_rootLabel (h : t.Focus C T) (hz : T.rootLabel = some z) :
    t.parent z ≠ none ∨ t.root = some z := by
  have hp : t.parent z = C.parent := h.parent_of_rootLabel hz
  cases C with
  | top => exact .inr (h.above.trans hz)
  | frame => exact .inl (by simp [hp,Ctx.parent])

theorem remove_of_missing_child (h : t.Focus C (branch d c T z .nil))
    (hb : Balanced (C.plug (branch d c T z .nil)) .black n) :
    ∃ u U m, Returns (fun fuel => t.remove fuel z) (z,u) ∧ u.Focus .top U ∧
      Balanced U .black m ∧ U.toList = (C.plug (branch d c T z .nil)).toList.erase z := by
  have ha := h.assert_of_rootLabel (rootLabel_branch ..)
  have hm : t.left z = none ∨ t.right z = none := by
    cases d with
    | left => exact .inr h.far
    | right => exact .inl h.far
  have hr : ∀ fuel, t.remove fuel z = (t.unlink fuel z).bind fun u => some (z,u) := by
    intro fuel
    simp [remove,ha,hm]
  have hl : (C.plug T).toList = (C.plug (branch d c T z .nil)).toList.erase z := by
    have hn := (focus_plug.mp h).nodup
    simp only [Ctx.labels,append_nil,Ctx.toList_plug] at hn ⊢
    have hbef : z ∉ C.before := fun hmem =>
      (nodup_append'.mp hn).2.2 hmem (mem_append_left _ (rootLabel_mem (rootLabel_branch ..)))
    rw [erase_append_right _ hbef]
    cases d with
    | left =>
      have hT : z ∉ T.toList := by
        have hn := nodup_branch.mp h.nodup
        exact fun hmem => (nodup_cons.mp hn).1 (mem_append_left _ hmem)
      simp [branch,toList,erase_append_right _ hT]
    | right => simp [branch,toList]
  obtain ⟨u,U,m,hret,hu,hU,hlistU⟩ := unlink_returns h hb
  refine ⟨u,U,m,?_,hu,hU,hlistU.trans hl⟩
  simp only [hr]
  exact hret.bind (.of_eq fun _ => rfl)

/-- Removing a node with two children, which gives its place to its successor. -/
theorem remove_of_successor (h : t.Focus C (.node c L z R)) (hL : L.rootLabel ≠ none)
    (hx : R.rootLabel = some x) (hb : Balanced (C.plug (.node c L z R)) .black n) :
    ∃ u U m, Returns (fun fuel => t.remove fuel z) (z,u) ∧ u.Focus .top U ∧
      Balanced U .black m ∧ U.toList = (C.plug (.node c L z R)).toList.erase z := by
  have ha := h.assert_of_rootLabel rfl
  have hl : t.left z = L.rootLabel := by rw [left,h.below.1]
  have hr : t.right z = some x := by rw [right,h.below.1,← hx]
  have hrem : ∀ fuel, t.remove fuel z = (t.treeMinimum fuel x).bind fun y =>
      (t.unlink fuel y).bind fun u => if y = z then some (z,u)
        else (u.takePlace z y).bind fun v => some (z,v) := by
    intro fuel
    have hj : (t.successor fuel z).join = t.treeMinimum fuel x := by
      cases hm : t.treeMinimum fuel x <;> simp [successor,hr,hm]
    simp [remove,ha,hl,hL,hr,hj]
  have hfocusR : t.Focus (.frame .right c z L C) R := (focus_branch (d := .right)).mp h
  obtain ⟨D,y,e,S,hp,hbef,hm⟩ := treeMinimum_returns hfocusR hx
  rw [show C.plug (.node c L z R) = D.plug (.node e .nil y S) from hp] at hb ⊢
  have hy : t.Focus D (branch .right e S y .nil) := by
    rw [focus_plug]
    exact hp ▸ focus_plug.mp hfocusR
  obtain ⟨u,U,m,hunlink,hu,hU,hlist⟩ := unlink_returns hy hb
  -- the nodes in order: first those before `z`, then `z`, `y` and the rest
  have ho : (D.plug (.node e .nil y S)).toList =
      (C.before++L.toList)++z::y::(S.toList++D.after) := by
    rw [Ctx.toList_plug,hbef]
    simp [Ctx.before,toList]
  have horderU : U.toList = (C.before++L.toList)++z::(S.toList++D.after) := by
    rw [hlist,Ctx.toList_plug,hbef]
    simp [Ctx.before]
  have hn : ((C.before++L.toList)++z::y::(S.toList++D.after)).Nodup := by
    rw [← ho]
    have hn := (focus_plug.mp hy).nodup
    rwa [Ctx.labels,append_nil] at hn
  have hs := hn
  simp only [nodup_append',nodup_cons,mem_cons,not_or,disjoint_cons_right] at hs
  obtain ⟨-,⟨⟨hzy,hzrest⟩,hyrest,-⟩,hzfirst,hyfirst,-⟩ := hs
  have hyU : y ∉ U.toList := by
    rw [horderU,mem_append,mem_cons]
    tauto
  obtain ⟨E,c',L',R',hplug'⟩ := Ctx.exists_plug_of_mem (show z ∈ U.toList by simp [horderU]) .top
  obtain rfl : U = E.plug (.node c' L' z R') := hplug'
  have hyE : y ∉ L'.toList ∧ y ≠ z ∧ y ∉ R'.toList ∧ y ∉ E.labels := by
    rw [(Ctx.toList_plug_perm E _).mem_iff] at hyU
    simpa [toList] using hyU
  obtain ⟨v,ht,hv⟩ := (focus_plug.mpr hu).takePlace hyE.2.1 hyE.1 hyE.2.2.1 hyE.2.2.2
  obtain ⟨f,k,hz,hfits⟩ := Fits.of_plug hU
  obtain ⟨m',hm'⟩ := hfits.plug (hz.relabel y)
  refine ⟨v,_,m',?_,focus_plug.mp hv,hm',?_⟩
  · simp only [hrem]
    refine hm.bind (hunlink.bind (.of_eq fun _ => ?_))
    rw [if_neg hyE.2.1,ht]
    rfl
  · -- `y` stands where `z` stood
    have hsame : (E.before++L'.toList)++z::(R'.toList++E.after) =
        (C.before++L.toList)++z::(S.toList++D.after) := by
      rw [← horderU,Ctx.toList_plug]
      simp [toList]
    obtain ⟨hf,-,hrest⟩ := (append_cons_inj_of_notMem hzfirst hzrest).mp hsame.symm
    rw [ho,erase_append_right _ hzfirst,erase_cons_head,hf,hrest,Ctx.toList_plug]
    simp [toList]

theorem remove_returns (h : t.Focus .top T) (hT : Balanced T .black n) (hz : z ∈ T.toList) :
    ∃ u U m, Returns (fun fuel => t.remove fuel z) (z,u) ∧ u.Focus .top U ∧
      Balanced U .black m ∧ U.toList = T.toList.erase z := by
  obtain ⟨C,c,L,R,hp⟩ := Ctx.exists_plug_of_mem hz .top
  obtain rfl : T = C.plug (.node c L z R) := hp
  have hf := focus_plug.mpr h
  cases L with
  | nil => exact remove_of_missing_child (d := .right) hf hT
  | node =>
    cases R with
    | nil => exact remove_of_missing_child (d := .left) hf hT
    | node => exact remove_of_successor hf nofun rfl hT

end RedBlackTree

end QPlusWeb.RedBlack
