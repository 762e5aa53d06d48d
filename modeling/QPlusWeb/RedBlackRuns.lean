import QPlusWeb.RedBlackRemove
import Mathlib.Data.Finset.Basic
import Mathlib.Data.Multiset.ZeroCons
import Mathlib.Data.Nat.Log
import Mathlib.Order.Lattice.Nat

/-!
# Runs on a red-black tree

What the tree promises in terms of its pointers, the answers of the three
searches, and the states that insertions and removals can lead to.
-/
namespace QPlusWeb.RedBlack

open ColoredTree ColoredTree.Tree FuelledCalls

variable {N K : Type} {key : N → K} {S : Finset N}

namespace RedBlackTree
variable {t u : RedBlackTree N} {c : Color} {d : Side} {x y z : N} {q : Option N} {C : Ctx N}
  {T U : Tree N} {n : ℕ}

/-! ### The promise in terms of pointers -/

/-- The nodes below a pointer from left to right. -/
inductive InOrder (t : RedBlackTree N) : Option N → List N → Prop
  | null : InOrder t none []
  | node {x : N} {l r : List N} : InOrder t (t.left x) l → InOrder t (t.right x) r →
      InOrder t (some x) (l ++ x :: r)

/-- A way from a pointer down to null and the number of black nodes on it. -/
inductive BlackPath (t : RedBlackTree N) : Option N → ℕ → Prop
  | null : BlackPath t none 0
  | black {x : N} {n : ℕ} (d : Side) : t.color x = .black → BlackPath t (t.child d x) n →
      BlackPath t (some x) (n + 1)
  | red {x : N} {n : ℕ} (d : Side) : t.color x = .red → BlackPath t (t.child d x) n →
      BlackPath t (some x) n

/-- The nodes `S` form a red-black tree, ordered by their keys. -/
structure IsRedBlack [LinearOrder K] (key : N → K) (t : RedBlackTree N) (S : Finset N) : Prop where
  inOrder : ∃ l : List N, t.InOrder t.root l ∧ (l : Multiset N) = S.val ∧
    l.Pairwise fun a b => key a ≤ key b
  rootParent : ∀ x, t.root = some x → t.parent x = none
  parentLink : ∀ x ∈ S, ∀ d y, t.child d x = some y → t.parent y = some x
  rootBlack : ∀ x, t.root = some x → t.color x = .black
  redChild : ∀ x ∈ S, t.color x = .red → ∀ d y, t.child d x = some y → t.color y = .black
  blackHeight : ∃ n, ∀ k, t.BlackPath t.root k → k = n

theorem Holds.inOrder (h : t.Holds q T) : t.InOrder T.rootLabel T.toList := by
  induction T generalizing q with
  | nil => exact .null
  | node c l a r ihl ihr =>
    refine .node ?_ ?_
    · rw [left,h.1]
      exact ihl h.2.1
    · rw [right,h.1]
      exact ihr h.2.2

theorem Holds.blackPath (h : t.Holds q T) (hT : Balanced T c n) {k : ℕ}
    (hk : t.BlackPath T.rootLabel k) : k = n := by
  induction hT generalizing q k with
  | nil =>
    cases hk
    rfl
  | @red l r a n hl hr ihl ihr =>
    cases hk with
    | black d hc => simp [color,h.1] at hc
    | red d _ hp =>
      cases d with
      | left =>
        rw [child,left,h.1] at hp
        exact ihl h.2.1 hp
      | right =>
        rw [child,right,h.1] at hp
        exact ihr h.2.2 hp
  | @black l r a c e n hl hr ihl ihr =>
    cases hk with
    | black d _ hp =>
      cases d with
      | left =>
        rw [child,left,h.1] at hp
        rw [ihl h.2.1 hp]
      | right =>
        rw [child,right,h.1] at hp
        rw [ihr h.2.2 hp]
    | red d hc => simp [color,h.1] at hc

theorem Focus.exists_branch (h : t.Focus .top T) (hx : x ∈ T.toList) (d : Side) :
    ∃ D c L R, T = Ctx.plug D (branch d c L x R) ∧ t.Focus D (branch d c L x R) := by
  obtain ⟨D,c,L,R,hp⟩ := Ctx.exists_plug_of_mem hx .top
  obtain rfl : T = D.plug (.node c L x R) := hp
  have hf := focus_plug.mpr h
  cases d with
  | left => exact ⟨D,c,L,R,rfl,hf⟩
  | right => exact ⟨D,c,R,L,rfl,hf⟩

theorem Focus.isRedBlack [LinearOrder K] (h : t.Focus .top T)
    (hT : Balanced T .black n) (hs : Sorted key T) (hS : (T.toList : Multiset N) = S.val) :
    IsRedBlack key t S := by
  have hr : t.root = T.rootLabel := h.above
  have hm : ∀ x ∈ S, x ∈ T.toList := by
    intro x hx
    rwa [← Multiset.mem_coe,hS]
  refine ⟨⟨T.toList,?_,hS,hs⟩,?_,?_,?_,?_,⟨n,?_⟩⟩
  · rw [hr]
    exact h.below.inOrder
  · intro x hx
    exact h.parent_of_rootLabel (hr.symm.trans hx)
  · intro x hx d y hy
    obtain ⟨D,c,L,R,-,hf⟩ := h.exists_branch (hm x hx) d
    rw [hf.near] at hy
    exact (focus_branch.mp hf).parent_of_rootLabel hy
  · intro x hx
    rw [hr] at hx
    cases hT with
    | nil => cases hx
    | black =>
      obtain rfl := Option.some.inj hx
      rw [color,h.below.1]
  · intro x hx hred d y hy
    obtain ⟨D,c,L,R,rfl,hf⟩ := h.exists_branch (hm x hx) d
    rw [hf.near] at hy
    rw [hf.color_eq] at hred
    subst hred
    obtain ⟨e,m,hb,-⟩ := Fits.of_plug hT
    obtain rfl : e = .red := by cases d <;> cases hb <;> rfl
    have hL := isRed_eq (focus_branch.mp hf).below hb.of_branch_red.1
    rw [hy] at hL
    cases hc : t.color y with
    | red => simp [isRed,hc] at hL
    | black => rfl
  · intro k hk
    rw [hr] at hk
    exact h.below.blackPath hT hk

/-! ### Searches -/

section
variable [LinearOrder K] {key : N → K} {k : K}

/-- The answer of `findExact` on the nodes `S`. -/
def FoundExact (key : N → K) (S : Set N) (k : K) : Option N → Prop
  | none => ∀ x ∈ S, key x ≠ k
  | some x => x ∈ S ∧ key x = k

/-- The node that is met first from side `d` among those that do not come before `k`. -/
def FoundNearest (d : Side) (key : N → K) (S : Set N) (k : K) : Option N → Prop
  | none => ∀ x ∈ S, d.before (key x) k
  | some x => x ∈ S ∧ ¬d.before (key x) k ∧ ∀ y ∈ S, ¬d.before (key y) k → ¬d.before (key y) (key x)

theorem findExactLoop_returns (h : t.Holds q T) (hs : Sorted key T) :
    ∃ r, Returns (fun fuel => t.findExactLoop key k fuel T.rootLabel) r ∧
      FoundExact key {x | x ∈ T.toList} k r := by
  induction T using branch_induction .left generalizing q with
  | nil => exact ⟨none,.of_succ (fun _ => rfl) (.of_eq fun _ => rfl),by simp [FoundExact,toList]⟩
  | branch c l a r ihl ihr =>
    obtain ⟨ha,hl,hr⟩ := holds_branch.mp h
    obtain ⟨hl',hr',hla,har⟩ := hs.of_branch
    have hleft : t.left a = l.rootLabel := child_near ha
    have hrt : t.right a = r.rootLabel := child_far ha
    rw [rootLabel_branch]
    by_cases heq : key a = k
    · refine ⟨some a,.of_succ (fun fuel => ?_) (.of_eq fun _ => rfl),?_,heq⟩
      · rw [findExactLoop,if_pos heq]
      · exact mem_toList_branch.mpr (.inl rfl)
    by_cases hlt : k < key a
    · obtain ⟨o,hret,ho⟩ := ihl hl hl'
      refine ⟨o,.of_succ (fun fuel => ?_) hret,?_⟩
      · rw [findExactLoop,if_neg heq,if_pos hlt,hleft]
      · cases o with
        | some x => exact ⟨mem_toList_branch.mpr (.inr (.inl ho.1)),ho.2⟩
        | none =>
          intro x hx
          rcases mem_toList_branch.mp hx with rfl | hx | hx
          · exact heq
          · exact ho x hx
          · exact (hlt.trans_le (not_lt.mp (har x hx))).ne'
    · obtain ⟨o,hret,ho⟩ := ihr hr hr'
      refine ⟨o,.of_succ (fun fuel => ?_) hret,?_⟩
      · rw [findExactLoop,if_neg heq,if_neg hlt,hrt]
      · cases o with
        | some x => exact ⟨mem_toList_branch.mpr (.inr (.inr ho.1)),ho.2⟩
        | none =>
          have hgt : key a < k := lt_of_le_of_ne (not_lt.mp hlt) heq
          intro x hx
          rcases mem_toList_branch.mp hx with rfl | hx | hx
          · exact heq
          · exact ((not_lt.mp (hla x hx)).trans_lt hgt).ne
          · exact ho x hx

/-- The search for the nearest key gives a node of the subtree if one qualifies, and
what it had before otherwise. -/
theorem findNearestLoop_returns (h : t.Holds q T) (hs : Sorted key T) (best : Option N) :
    ∃ r, Returns (fun fuel => t.findNearestLoop key d k fuel best T.rootLabel) r ∧
      ((∃ x, r = some x ∧ FoundNearest d key {x | x ∈ T.toList} k (some x)) ∨
        r = best ∧ ∀ x ∈ T.toList, d.before (key x) k) := by
  induction T using branch_induction d generalizing q best with
  | nil =>
    exact ⟨best,.of_succ (fun _ => rfl) (.of_eq fun _ => rfl),.inr ⟨rfl,by simp [toList]⟩⟩
  | branch c l a r ihl ihr =>
    obtain ⟨ha,hl,hr⟩ := holds_branch.mp h
    obtain ⟨hl',hr',hla,har⟩ := hs.of_branch
    have hm : a ∈ (branch d c l a r).toList := mem_toList_branch.mpr (.inl rfl)
    rw [rootLabel_branch]
    by_cases heq : key a = k
    · refine ⟨some a,.of_succ (fun fuel => ?_) (.of_eq fun _ => rfl),.inl ⟨a,rfl,hm,?_⟩⟩
      · rw [findNearestLoop,if_pos heq]
      · rw [heq]
        exact ⟨d.not_before_self k,fun y _ hy => hy⟩
    by_cases hb : d.before (key a) k
    · -- neither the node nor what comes before it qualifies
      obtain ⟨o,hret,ho⟩ := ihr hr hr' best
      have hleft : ∀ x ∈ l.toList, d.before (key x) k := fun x hx =>
        Side.before_of_not_before (hla x hx) hb
      refine ⟨o,.of_succ (fun fuel => ?_) hret,?_⟩
      · rw [findNearestLoop,if_neg heq,if_pos hb,child_far ha]
      · rcases ho with ⟨x,rfl,hx,hxk,hleast⟩ | ⟨rfl,hn⟩
        · refine .inl ⟨x,rfl,mem_toList_branch.mpr (.inr (.inr hx)),hxk,fun y hy hyk => ?_⟩
          rcases mem_toList_branch.mp hy with rfl | hy | hy
          · exact absurd hb hyk
          · exact absurd (hleft y hy) hyk
          · exact hleast y hy hyk
        · refine .inr ⟨rfl,fun x hx => ?_⟩
          rcases mem_toList_branch.mp hx with rfl | hx | hx
          · exact hb
          · exact hleft x hx
          · exact hn x hx
    · -- the node qualifies, and what comes behind it is not nearer
      obtain ⟨o,hret,ho⟩ := ihl hl hl' (some a)
      refine ⟨o,.of_succ (fun fuel => ?_) hret,.inl ?_⟩
      · rw [findNearestLoop,if_neg heq,if_neg hb,child_near ha]
      · rcases ho with ⟨x,rfl,hx,hxk,hleast⟩ | ⟨rfl,hn⟩
        · refine ⟨x,rfl,mem_toList_branch.mpr (.inr (.inl hx)),hxk,fun y hy hyk => ?_⟩
          rcases mem_toList_branch.mp hy with rfl | hy | hy
          · exact hla x hx
          · exact hleast y hy hyk
          · exact Side.not_before_trans (hla x hx) (har y hy)
        · refine ⟨a,rfl,hm,hb,fun y hy hyk => ?_⟩
          rcases mem_toList_branch.mp hy with rfl | hy | hy
          · exact d.not_before_self _
          · exact absurd (hn y hy) hyk
          · exact har y hy

/-- A search has no more rounds than the tree is high. -/
theorem Holds.search_rounds (key : N → K) (k : K) (d : Side) (b : Option N) (h : t.Holds q T)
    {i j : ℕ} (hi : i ≥ T.height) (hj : j ≥ T.height) :
    t.findExactLoop key k (i+1) T.rootLabel = t.findExactLoop key k (j+1) T.rootLabel ∧
      t.findNearestLoop key d k (i+1) b T.rootLabel=
        t.findNearestLoop key d k (j+1) b T.rootLabel := by
  induction T generalizing q i j b with
  | nil => exact ⟨rfl,rfl⟩
  | node c l a r ihl ihr =>
    obtain ⟨i,rfl⟩ := Nat.exists_eq_add_of_lt hi
    obtain ⟨j,rfl⟩ := Nat.exists_eq_add_of_lt hj
    have hl b := ihl b h.2.1 (i := max l.height r.height+i) (j := max l.height r.height+j)
      (by omega) (by omega)
    have hr b := ihr b h.2.2 (i := max l.height r.height+i) (j := max l.height r.height+j)
      (by omega) (by omega)
    simp only [rootLabel,findExactLoop,findNearestLoop,left,right,h.1]
    constructor
    · split_ifs
      · rfl
      · exact (hl b).1
      · exact (hr b).1
    · cases d with
      | left | right => simp [child,left,right,h.1,hl,hr,Side.flip]

/-- Both searches for the nearest key on a whole tree. -/
theorem findNearest_returns (h : t.Focus .top T) (hs : Sorted key T) (d : Side) (k : K) :
    ∃ r, Returns (fun fuel => t.findNearestLoop key d k fuel none t.root) r ∧
      FoundNearest d key {x | x ∈ T.toList} k r := by
  obtain ⟨r,hret,hr⟩ := findNearestLoop_returns (d := d) (k := k) h.below hs none
  rw [show t.root = T.rootLabel from h.above]
  refine ⟨r,hret,?_⟩
  rcases hr with ⟨x,rfl,hx⟩ | ⟨rfl,hn⟩
  · exact hx
  · exact hn

end

/-! ### The tree as a set of nodes -/

section
variable [LinearOrder K] {key : N → K} {S : Finset N}

/-- The nodes `S` are stored as a red-black tree. -/
def Stores (key : N → K) (t : RedBlackTree N) (S : Finset N) : Prop :=
  ∃ T n, t.Focus .top T ∧ Balanced T .black n ∧ Sorted key T ∧ (T.toList : Multiset N) = S.val

theorem mem_iff_of_val_eq (hS : (T.toList : Multiset N) = S.val) : x ∈ T.toList ↔ x ∈ S := by
  rw [← Multiset.mem_coe,hS,Finset.mem_val]

theorem stores_empty (key : N → K) (h : t.root = none) : Stores key t ∅ :=
  ⟨.nil,0,⟨h,trivial,List.nodup_nil⟩,.nil,List.Pairwise.nil,rfl⟩

section
variable (h : Stores key t S)
include h

/-- Only the keys of the nodes in the tree matter. -/
theorem Stores.congr {key' : N → K} (hk : ∀ x ∈ S, key' x = key x) : Stores key' t S := by
  obtain ⟨T,n,hf,hT,hs,hS⟩ := h
  refine ⟨T,n,hf,hT,hs.imp_of_mem fun ha hb hle => ?_,hS⟩
  rwa [hk _ ((mem_iff_of_val_eq hS).mp ha),hk _ ((mem_iff_of_val_eq hS).mp hb)]

theorem Stores.isRedBlack : IsRedBlack key t S := by
  obtain ⟨T,n,hf,hT,hs,hS⟩ := h
  exact hf.isRedBlack hT hs hS

theorem Stores.findExact (k : K) :
    ∃ r, Returns (fun fuel => t.findExact key fuel k) r ∧ FoundExact key S k r := by
  obtain ⟨T,n,hf,hT,hs,hS⟩ := h
  obtain ⟨r,hret,hr⟩ := findExactLoop_returns (k := k) hf.below hs
  simp only [mem_iff_of_val_eq hS] at hr
  refine ⟨r,?_,hr⟩
  simpa only [RedBlackTree.findExact,show t.root = T.rootLabel from hf.above] using hret

theorem Stores.findNearest (d : Side) (k : K) :
    ∃ r, Returns (fun fuel => t.findNearestLoop key d k fuel none t.root) r ∧
      FoundNearest d key S k r := by
  obtain ⟨T,n,hf,hT,hs,hS⟩ := h
  obtain ⟨r,hret,hr⟩ := findNearest_returns hf hs d k
  simp only [mem_iff_of_val_eq hS] at hr
  exact ⟨r,hret,hr⟩

end

variable [DecidableEq N]

section
variable (h : Stores key t S)
include h

/-- A node that is not in the tree belongs to the user. -/
theorem Stores.outside (hx : x ∉ S) (k : K) (f : Node N → Node N) :
    Stores (Function.update key x k) (t.modify x f) S := by
  have hk : ∀ y ∈ S, Function.update key x k y = key y := by
    intro y hy
    have hne : y ≠ x := fun heq => hx (heq ▸ hy)
    exact Function.update_of_ne hne k key
  obtain ⟨T,n,hf,hT,hs,hS⟩ := h.congr hk
  have hxT : x ∉ T.toList := fun hm => hx ((mem_iff_of_val_eq hS).mp hm)
  exact ⟨T,n,hf.modify hxT (by simp [Ctx.labels]),hT,hs,hS⟩

theorem Stores.insert (hx : x ∉ S) :
    ∃ u, Returns (fun fuel => t.insert key fuel x) u ∧ Stores key u (Insert.insert x S) := by
  obtain ⟨T,n,hf,hT,hs,hS⟩ := h
  have hxT : x ∉ T.toList := fun hm => hx ((mem_iff_of_val_eq hS).mp hm)
  obtain ⟨u,U,m,hr,hu,hU,hsortU,hp⟩ := insert_returns hf hT hs hxT
  refine ⟨u,hr,U,m,hu,hU,hsortU,?_⟩
  rw [Finset.insert_val_of_notMem hx,← hS]
  exact Multiset.coe_eq_coe.mpr hp

theorem Stores.remove (hz : z ∈ S) :
    ∃ u, Returns (fun fuel => t.remove fuel z) (z,u) ∧ Stores key u (S.erase z) := by
  obtain ⟨T,n,hf,hT,hs,hS⟩ := h
  obtain ⟨u,U,m,hr,hu,hU,hl⟩ := remove_returns hf hT ((mem_iff_of_val_eq hS).mpr hz)
  refine ⟨u,hr,U,m,hu,hU,?_,?_⟩
  · rw [Sorted,hl]
    exact hs.sublist List.erase_sublist
  · rw [hl,Finset.erase_val,← hS,Multiset.coe_erase]

theorem Stores.removeKey (k : K) :
    ∃ r u, Returns (fun fuel => t.removeKey key fuel k) (r,u) ∧ FoundExact key S k r ∧
      Stores key u (r.elim S S.erase) := by
  obtain ⟨r,hf,hr⟩ := h.findExact k
  cases r with
  | none => exact ⟨none,t,hf.bind (.of_eq fun _ => rfl),hr,h⟩
  | some x =>
    obtain ⟨u,hrem,hu⟩ := h.remove hr.1
    exact ⟨some x,u,hf.bind (hrem.bind (.of_eq fun _ => rfl)),hr,hu⟩

end

end

/-! ### Runs -/

section
variable [DecidableEq N] [LinearOrder K]

/-- The states that calls can lead to from the empty tree, with the nodes that
were inserted and not removed. Keys and contents of nodes outside the tree change
at the user's will. -/
inductive Reachable : (N → K) → RedBlackTree N → Finset N → Prop
  | empty {key : N → K} {t : RedBlackTree N} : t.root = none → Reachable key t ∅
  | outside {key : N → K} {t : RedBlackTree N} {S : Finset N} {x : N} (k : K)
      (f : Node N → Node N) : Reachable key t S → x ∉ S →
      Reachable (Function.update key x k) (t.modify x f) S
  | insert {key : N → K} {t u : RedBlackTree N} {S : Finset N} {x : N} : Reachable key t S →
      x ∉ S → Returns (fun fuel => t.insert key fuel x) u → Reachable key u (Insert.insert x S)
  | remove {key : N → K} {t u : RedBlackTree N} {S : Finset N} {z : N} : Reachable key t S →
      z ∈ S → Returns (fun fuel => t.remove fuel z) (z, u) → Reachable key u (S.erase z)
  | removeKey {key : N → K} {t u : RedBlackTree N} {S : Finset N} {k : K} {r : Option N} :
      Reachable key t S → Returns (fun fuel => t.removeKey key fuel k) (r, u) →
      Reachable key u (r.elim S S.erase)

theorem Reachable.stores {t : RedBlackTree N} (h : Reachable key t S) : Stores key t S := by
  induction h with
  | empty hroot => exact stores_empty _ hroot
  | outside k f _ hx ih => exact ih.outside hx k f
  | insert _ hx hr ih =>
    obtain ⟨u,hu,hs⟩ := ih.insert hx
    rwa [hr.unique hu]
  | remove _ hz hr ih =>
    obtain ⟨u,hu,hs⟩ := ih.remove hz
    rwa [(Prod.mk.inj (hr.unique hu)).2]
  | @removeKey _ _ _ _ k _ _ hr ih =>
    obtain ⟨r,u,hu,-,hs⟩ := ih.removeKey k
    obtain ⟨rfl,rfl⟩ := Prod.mk.inj (hr.unique hu)
    exact hs

/-- In every reachable state the tree is a red-black tree of the nodes inserted and
not removed, every call returns, and the searches find what they promise. -/
theorem reachable_isRedBlack {key : N → K} {t : RedBlackTree N} {S : Finset N}
    (h : Reachable key t S) :
    IsRedBlack key t S ∧
      (∀ x ∉ S, ∃ u, Returns (fun fuel => t.insert key fuel x) u) ∧
      (∀ z ∈ S, ∃ u, Returns (fun fuel => t.remove fuel z) (z, u)) ∧
      (∀ k, ∃ r u, Returns (fun fuel => t.removeKey key fuel k) (r, u) ∧ FoundExact key S k r) ∧
      (∀ k, ∃ r, Returns (fun fuel => t.findExact key fuel k) r ∧ FoundExact key S k r) ∧
      (∀ k, ∃ r, Returns (fun fuel => t.findLeastGreaterThanOrEqual key fuel k) r ∧
        match r with
        | none => ∀ x ∈ S, ¬k ≤ key x
        | some x => x ∈ S ∧ k ≤ key x ∧ ∀ y ∈ S, k ≤ key y → key x ≤ key y) ∧
      (∀ k, ∃ r, Returns (fun fuel => t.findGreatestLessThanOrEqual key fuel k) r ∧
        match r with
        | none => ∀ x ∈ S, ¬key x ≤ k
        | some x => x ∈ S ∧ key x ≤ k ∧ ∀ y ∈ S, key y ≤ k → key y ≤ key x) := by
  have hs := h.stores
  refine ⟨hs.isRedBlack,fun x hx => ?_,fun z hz => ?_,fun k => ?_,hs.findExact,
    fun k => ?_,fun k => ?_⟩
  · obtain ⟨u,hu,-⟩ := hs.insert hx
    exact ⟨u,hu⟩
  · obtain ⟨u,hu,-⟩ := hs.remove hz
    exact ⟨u,hu⟩
  · obtain ⟨r,u,hu,hr,-⟩ := hs.removeKey k
    exact ⟨r,u,hu,hr⟩
  · obtain ⟨r,hret,hr⟩ := hs.findNearest .left k
    refine ⟨r,hret,?_⟩
    cases r with
    | none | some x => simpa [FoundNearest,Side.before] using hr
  · obtain ⟨r,hret,hr⟩ := hs.findNearest .right k
    refine ⟨r,hret,?_⟩
    cases r with
    | none | some x => simpa [FoundNearest,Side.before] using hr

/-- A run with two nodes of the same key that inserts three nodes and removes one. -/
theorem reachable_isRedBlack_parity : ∃ t : RedBlackTree ℕ,
    Reachable (fun n => n % 2) t (({2, 1, 0} : Finset ℕ).erase 1) ∧
      IsRedBlack (fun n => n % 2) t (({2, 1, 0} : Finset ℕ).erase 1) := by
  have h₀ : Reachable (fun n => n % 2) (⟨none,fun _ => ⟨none,none,none,.red⟩⟩ : RedBlackTree ℕ)
      ∅ := .empty rfl
  obtain ⟨t₁,hr₁,-⟩ := h₀.stores.insert (x := 0) (by decide)
  have h₁ := h₀.insert (by decide) hr₁
  obtain ⟨t₂,hr₂,-⟩ := h₁.stores.insert (x := 1) (by decide)
  have h₂ := h₁.insert (by decide) hr₂
  obtain ⟨t₃,hr₃,-⟩ := h₂.stores.insert (x := 2) (by decide)
  have h₃ := h₂.insert (by decide) hr₃
  obtain ⟨t₄,hr₄,-⟩ := h₃.stores.remove (z := 1) (by decide)
  have h₄ := h₃.remove (by decide) hr₄
  exact ⟨t₄,h₄,(reachable_isRedBlack h₄).1⟩

/-- The rounds of a search are at most twice the logarithm of the number of nodes. -/
theorem reachable_search_logarithmic {key : N → K} {t : RedBlackTree N} {S : Finset N}
    (h : Reachable key t S) (k : K) (fuel : ℕ) (hf : fuel > 2 * Nat.log 2 (S.card + 1)) :
    (∃ r, t.findExact key fuel k = some r ∧ FoundExact key S k r) ∧
      (∃ r, t.findLeastGreaterThanOrEqual key fuel k = some r ∧ FoundNearest .left key S k r) ∧
      ∃ r, t.findGreatestLessThanOrEqual key fuel k = some r ∧ FoundNearest .right key S k r := by
  have hs := h.stores
  obtain ⟨T,n,⟨(hr : t.root = T.rootLabel),hT,-⟩,hb,-,hS⟩ := h.stores
  have hc : T.toList.length = S.card := congrArg Multiset.card hS
  obtain ⟨hh,hp⟩ := hb.height_le
  have hn : n ≤ Nat.log 2 (S.card+1) := Nat.le_log_of_pow_le one_lt_two (hc ▸ hp)
  obtain ⟨m,rfl⟩ := Nat.exists_eq_add_of_lt hf
  have hm : T.height ≤ 2*Nat.log 2 (S.card+1)+m := by
    simp at hh
    omega
  have hnear : ∀ d, ∃ r, t.findNearestLoop key d k _ none t.root = some r ∧
      FoundNearest d key S k r := fun d => (hs.findNearest d k).imp fun r h =>
    ⟨h.1.eq_some fun j hj => hr ▸ (hT.search_rounds key k d none hm hj).2,h.2⟩
  refine ⟨?_,hnear .left,hnear .right⟩
  obtain ⟨r,h,hk⟩ := hs.findExact k
  refine ⟨r,h.eq_some fun j (hj : j ≥ T.height) => ?_,hk⟩
  simpa only [findExact,hr] using (hT.search_rounds key k .left none hm hj).1

/-- Five nodes are inserted in ascending order and one is removed; a search then takes five rounds at
most. -/
theorem reachable_search_logarithmic_five : ∃ t : RedBlackTree ℕ,
    Reachable id t (({8, 6, 4, 2, 0} : Finset ℕ).erase 4) ∧
      ∃ r, t.findLeastGreaterThanOrEqual id 5 5 = some r ∧
        FoundNearest .left id (({8, 6, 4, 2, 0} : Finset ℕ).erase 4) 5 r := by
  have h₀ : Reachable id (⟨none, fun _ => ⟨none, none, none, .red⟩⟩ : RedBlackTree ℕ) ∅ := .empty rfl
  obtain ⟨t₁, hr₁, -⟩ := h₀.stores.insert (x := 0) (by decide)
  have h₁ := h₀.insert (by decide) hr₁
  obtain ⟨t₂, hr₂, -⟩ := h₁.stores.insert (x := 2) (by decide)
  have h₂ := h₁.insert (by decide) hr₂
  obtain ⟨t₃, hr₃, -⟩ := h₂.stores.insert (x := 4) (by decide)
  have h₃ := h₂.insert (by decide) hr₃
  obtain ⟨t₄, hr₄, -⟩ := h₃.stores.insert (x := 6) (by decide)
  have h₄ := h₃.insert (by decide) hr₄
  obtain ⟨t₅, hr₅, -⟩ := h₄.stores.insert (x := 8) (by decide)
  have h₅ := h₄.insert (by decide) hr₅
  obtain ⟨t, hr, -⟩ := h₅.stores.remove (z := 4) (by decide)
  have h := h₅.remove (by decide) hr
  exact ⟨t, h, (reachable_search_logarithmic h 5 5 (by decide)).2.1⟩

end

end RedBlackTree

end QPlusWeb.RedBlack
