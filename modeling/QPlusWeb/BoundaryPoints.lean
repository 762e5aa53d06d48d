import Mathlib.Data.Fin.VecNotation
import Mathlib.Data.Int.Order.Basic
import Mathlib.Data.List.Infix
import Mathlib.Order.WellFounded

/-!
# Boundary points in document order

`Range::compareBoundaryPoints` compares two points, each a container and an offset, in one of four ways.
The nodes form trees, given by the links that `Node` keeps; the children of a node are listed as
`firstChild` and `nextSibling` give them.  Document order is the order of the positions of a tree in a
depth-first traversal.
-/

namespace QPlusWeb.WebCore
open List Option

/-- Trees of nodes, none deeper than `height`. -/
structure NodeTrees (N : Type) where
  parentNode : N → Option N
  children : N → List N
  /-- the length of a text and the number of children of another node -/
  maxOffset : N → ℕ
  depth : N → ℕ
  height : ℕ
  mem_children : ∀ {c p}, c ∈ children p ↔ parentNode c = some p
  nodup_children : ∀ p, (children p).Nodup
  length_children : ∀ p, (children p).length ≤ maxOffset p
  depth_child : ∀ {c p}, parentNode c = some p → depth c = depth p + 1
  depth_lt : ∀ n, depth n < height

/-- A root with two children, the first of them an element around a text of two characters. -/
def NodeTrees.textInElement : NodeTrees (Fin 4) where
  parentNode := ![none, some 0, some 0, some 1]
  children := ![[1, 2], [3], [], []]
  maxOffset := ![2, 1, 0, 2]
  depth := ![0, 1, 1, 2]
  height := 3
  mem_children := by decide
  nodup_children := by decide
  length_children := by decide
  depth_child := by decide
  depth_lt := by decide

inductive RangeFailure where
  | nullDereference
  | WRONG_DOCUMENT_ERR
  deriving DecidableEq

namespace NodeTrees
variable {N : Type}

def chainFrom (t : NodeTrees N) : ℕ → N → List N
  | 0, n => [n]
  | fuel + 1, n => n :: (t.parentNode n).elim [] (t.chainFrom fuel)

variable (t : NodeTrees N)

/-- The nodes that a loop along `parentNode` visits. -/
def chain (n : N) : List N := t.chainFrom (t.depth n) n

def top (n : N) : N := (t.chain n).getLastD n

variable [DecidableEq N]

/-- `while (c && c->parentNode() != container) c = c->parentNode();` -/
def childAbove (c container : N) : Option N :=
  (t.chain c).find? fun c => t.parentNode c = some container

/-- `while (n != c && offsetC < offset) { offsetC++; n = n->nextSibling(); }` -/
def offsetOfChild (c : N) (offset : ℕ) : List N → ℕ → Except RangeFailure ℕ
  | [], offsetC => if offsetC < offset then .error .nullDereference else .ok offsetC
  | n :: rest, offsetC =>
    if n ≠ c ∧ offsetC < offset then offsetOfChild c offset rest (offsetC + 1) else .ok offsetC

def commonAncestorContainer (containerA containerB : N) : Option N :=
  (t.chain containerA).find? fun parentA => parentA ∈ t.chain containerB

/-- The last loop of `compareBoundaryPoints`. -/
def firstSibling (childA childB : N) : List N → ℤ
  | [] => 0
  | n :: rest => if n = childA then -1 else if n = childB then 1 else firstSibling childA childB rest

def compareBoundaryPoints (containerA : Option N) (offsetA : ℕ)
    (containerB : Option N) (offsetB : ℕ) : Except RangeFailure ℤ :=
  match containerA, containerB with
  | none, _ => .ok (-1)
  | some _, none => .ok 1
  | some a, some b =>
    if a = b then .ok (if offsetA = offsetB then 0 else if offsetA < offsetB then -1 else 1)
    else match t.childAbove b a with
    | some c => do
      let offsetC ← offsetOfChild c offsetA (t.children a) 0
      .ok (if offsetA ≤ offsetC then -1 else 1)
    | none => match t.childAbove a b with
      | some c => do
        let offsetC ← offsetOfChild c offsetB (t.children b) 0
        .ok (if offsetC < offsetB then -1 else 1)
      | none => match t.commonAncestorContainer a b with
        | none => .error .WRONG_DOCUMENT_ERR
        | some commonAncestor =>
          let childA := (t.childAbove a commonAncestor).getD commonAncestor
          let childB := (t.childAbove b commonAncestor).getD commonAncestor
          .ok (if childA = childB then 0
            else firstSibling childA childB (t.children commonAncestor))

/-! ### Chains of ancestors -/

section
omit [DecidableEq N]
variable {t : NodeTrees N} {a b c c' n : N}

theorem chain_eq (t : NodeTrees N) (n : N) : t.chain n = n::(t.parentNode n).elim [] t.chain := by
  unfold chain
  cases h : t.parentNode n with
  | none => cases t.depth n <;> simp [chainFrom,h]
  | some p =>
    rw [t.depth_child h]
    simp [chainFrom,h]

theorem mem_chain : c ∈ t.chain n ↔ c = n ∨ ∃ p, t.parentNode n = some p ∧ c ∈ t.chain p := by
  rw [chain_eq]
  cases t.parentNode n <;> simp

theorem self_mem_chain (n : N) : n ∈ t.chain n := mem_chain.mpr (.inl rfl)

theorem parent_mem_chain (h : t.parentNode c = some n) : n ∈ t.chain c :=
  mem_chain.mpr (.inr ⟨n,h,self_mem_chain n⟩)

theorem upward_induction (t : NodeTrees N) {P : N → Prop}
    (h : ∀ n, (∀ p, t.parentNode n = some p → P p) → P n) (n : N) : P n :=
  (measure t.depth).wf.induction n fun n ih => h n fun p hp =>
    ih p (show t.depth p < t.depth n by rw [t.depth_child hp]; exact Nat.lt_succ_self _)

theorem depth_le_of_mem_chain (h : c ∈ t.chain n) : t.depth c ≤ t.depth n := by
  induction n using t.upward_induction with
  | _ n ih =>
    obtain rfl | ⟨p,hp,hc⟩ := mem_chain.mp h
    · exact le_rfl
    · have := ih p hp hc
      have := t.depth_child hp
      omega

theorem chain_trans (h : a ∈ t.chain b) (hb : b ∈ t.chain n) : a ∈ t.chain n := by
  induction n using t.upward_induction with
  | _ n ih =>
    obtain rfl | ⟨p,hp,hb⟩ := mem_chain.mp hb
    · exact h
    · exact mem_chain.mpr (.inr ⟨p,hp,ih p hp hb⟩)

theorem eq_of_depth_eq (h : c ∈ t.chain n) (h' : c' ∈ t.chain n) (hd : t.depth c = t.depth c') :
    c = c' := by
  induction n using t.upward_induction with
  | _ n ih =>
    obtain rfl | ⟨p,hp,hc⟩ := mem_chain.mp h <;> obtain rfl | ⟨p',hp',hc'⟩ := mem_chain.mp h'
    · rfl
    · have := depth_le_of_mem_chain hc'
      have := t.depth_child hp'
      omega
    · have := depth_le_of_mem_chain hc
      have := t.depth_child hp
      omega
    · obtain rfl : p = p' := Option.some.inj (hp.symm.trans hp')
      exact ih p hp hc hc'

/-- Below an ancestor the chain passes through one of its children. -/
theorem exists_child_of_mem_chain (h : c ∈ t.chain n) (hne : n ≠ c) :
    ∃ e ∈ t.chain n, t.parentNode e = some c := by
  induction n using t.upward_induction with
  | _ n ih =>
    obtain rfl | ⟨p,hp,hc⟩ := mem_chain.mp h
    · exact absurd rfl hne
    · by_cases hpc : p = c
      · exact ⟨n,self_mem_chain n,hpc ▸ hp⟩
      · obtain ⟨e,he,hec⟩ := ih p hp hc hpc
        exact ⟨e,mem_chain.mpr (.inr ⟨p,hp,he⟩),hec⟩

/-- A search along a chain ends at the first node that meets the condition. -/
theorem find?_chain {q : N → Bool} (h : c ∈ t.chain n) (hc : q c)
    (hb : ∀ x ∈ t.chain n, c ∈ t.chain x → x ≠ c → q x = false) :
    (t.chain n).find? q = some c := by
  induction n using t.upward_induction with
  | _ n ih =>
    rw [chain_eq]
    obtain rfl | ⟨p,hp,hcp⟩ := mem_chain.mp h
    · rw [find?_cons_of_pos hc]
    · have hne : n ≠ c := by
        rintro rfl
        have := depth_le_of_mem_chain hcp
        have := t.depth_child hp
        omega
      have hn : ¬q n := by simp [hb n (self_mem_chain n) h hne]
      rw [find?_cons_of_neg hn,hp]
      exact ih p hp hcp fun x hx => hb x (mem_chain.mpr (.inr ⟨p,hp,hx⟩))

theorem top_eq (t : NodeTrees N) (n : N) : t.top n = (t.parentNode n).elim n t.top := by
  cases hp : t.parentNode n with
  | none => rw [top,chain_eq,hp]; rfl
  | some p =>
    rw [elim_some,top,top,chain_eq t n,hp,elim_some,chain_eq t p]
    rfl

theorem top_of_mem_chain (h : c ∈ t.chain n) : t.top c = t.top n := by
  induction n using t.upward_induction with
  | _ n ih =>
    obtain rfl | ⟨p,hp,hc⟩ := mem_chain.mp h
    · rfl
    · rw [ih p hp hc,top_eq t n,hp,elim_some]

theorem top_mem_chain (t : NodeTrees N) (n : N) : t.top n ∈ t.chain n := by
  induction n using t.upward_induction with
  | _ n ih =>
    rw [top_eq]
    cases hp : t.parentNode n with
    | none => exact self_mem_chain n
    | some p => exact mem_chain.mpr (.inr ⟨p,hp,ih p hp⟩)

end

/-! ### The four cases -/

section
variable {t : NodeTrees N} {c c' m m' n x : N} {i j k k' : ℕ}

theorem offsetOfChild_eq {l : List N} (hl : l.Nodup) (hc : l[i]? = some c) (hk : j ≤ k) :
    offsetOfChild c k l j = .ok (min (j+i) k) := by
  induction l generalizing i j with
  | nil => simp at hc
  | cons n rest ih =>
    unfold offsetOfChild
    cases i with
    | zero =>
      obtain rfl : n = c := by simpa using hc
      simp [hk]
    | succ i =>
      have hne : n ≠ c := fun heq => (nodup_cons.mp hl).1 (heq ▸ mem_of_getElem? hc)
      by_cases hlt : j < k
      · rw [if_pos ⟨hne,hlt⟩,ih hl.of_cons hc hlt,Nat.succ_add_eq_add_succ]
      · rw [if_neg fun h => hlt h.2,Nat.min_eq_right (by omega),Nat.le_antisymm hk (not_lt.mp hlt)]

theorem firstSibling_eq {l : List N} (hl : l.Nodup) (hij : i < j) (hc : l[i]? = some c)
    (hc' : l[j]? = some c') : c ≠ c' ∧ firstSibling c c' l = -1 ∧ firstSibling c' c l = 1 := by
  induction l generalizing i j with
  | nil => simp at hc
  | cons n rest ih =>
    obtain ⟨j,rfl⟩ : ∃ k, j = k+1 := ⟨j-1,by omega⟩
    have hne' : n ≠ c' := fun heq => (nodup_cons.mp hl).1 (heq ▸ mem_of_getElem? hc')
    cases i with
    | zero =>
      obtain rfl : n = c := by simpa using hc
      simp [firstSibling,hne']
    | succ i =>
      have hne : n ≠ c := fun heq => (nodup_cons.mp hl).1 (heq ▸ mem_of_getElem? hc)
      simpa [firstSibling,hne,hne'] using ih hl.of_cons (by omega) hc hc'

theorem childAbove_spec (h : t.childAbove m n = some x) :
    n ∈ t.chain m ∧ t.depth n < t.depth m := by
  have hx : t.parentNode x = some n := by simpa using find?_some h
  have hmem := mem_of_find?_eq_some h
  have hle := depth_le_of_mem_chain hmem
  refine ⟨chain_trans (parent_mem_chain hx) hmem,?_⟩
  have := t.depth_child hx
  omega

theorem childAbove_eq_none (h : n ∈ t.chain m → t.depth m ≤ t.depth n) :
    t.childAbove m n = none := by
  cases hx : t.childAbove m n with
  | none => rfl
  | some x =>
    obtain ⟨hmem,hlt⟩ := childAbove_spec hx
    exact absurd hlt (not_lt.mpr (h hmem))

section
variable (hc : t.parentNode c = some n) (hm : c ∈ t.chain m)
include hc hm

omit [DecidableEq N] in
theorem depth_lt_of_below : t.depth n < t.depth m := by
  have := depth_le_of_mem_chain hm
  have := t.depth_child hc
  omega

theorem childAbove_eq : t.childAbove m n = some c := by
  refine find?_chain hm (decide_eq_true hc) fun x hx hcx hne => decide_eq_false fun hp => ?_
  -- a child of the container above another one would be its own ancestor
  obtain rfl | ⟨p,hxp,hcp⟩ := mem_chain.mp hcx
  · exact hne rfl
  · obtain rfl : n = p := Option.some.inj (hp.symm.trans hxp)
    exact (depth_lt_of_below hc hcp).false

/-- A point in a node against one below its `i`-th child. -/
theorem compareBoundaryPoints_below (hi : (t.children n)[i]? = some c) :
    t.compareBoundaryPoints (some n) k (some m) j = .ok (if k ≤ i then -1 else 1) ∧
      t.compareBoundaryPoints (some m) j (some n) k = .ok (if i < k then -1 else 1) := by
  have hlt := depth_lt_of_below hc hm
  have hne : n ≠ m := fun heq => hlt.ne (congrArg _ heq)
  have hn : t.childAbove n m = none := childAbove_eq_none fun _ => hlt.le
  have ho := offsetOfChild_eq (t.nodup_children n) hi (Nat.zero_le k)
  constructor
  · simp [compareBoundaryPoints,hne,childAbove_eq hc hm,ho,Except.bind,bind]
  · simp [compareBoundaryPoints,hne.symm,hn,childAbove_eq hc hm,ho,Except.bind,bind]

variable (hc' : t.parentNode c' = some n) (hne : c ≠ c')
include hc' hne

omit [DecidableEq N] in
theorem sibling_not_mem_chain : c' ∉ t.chain m := fun h =>
  hne (eq_of_depth_eq hm h ((t.depth_child hc).trans (t.depth_child hc').symm))

variable (hm' : c' ∈ t.chain m')
include hm'

theorem commonAncestorContainer_eq : t.commonAncestorContainer m m' = some n := by
  refine find?_chain (chain_trans (parent_mem_chain hc) hm)
    (decide_eq_true (chain_trans (parent_mem_chain hc') hm'))
    fun x hx hnx hxn => decide_eq_false fun hx' => ?_
  -- the chain from a deeper common ancestor would pass through both children
  obtain ⟨e,he,hen⟩ := exists_child_of_mem_chain hnx hxn
  have hec : e = c := by
    by_contra hne
    exact sibling_not_mem_chain hc hm hen (Ne.symm hne) (chain_trans he hx)
  exact sibling_not_mem_chain hc' hm' hc hne.symm (hec ▸ chain_trans he hx')

/-- Points below two children of a node. -/
theorem compareBoundaryPoints_siblings :
    t.compareBoundaryPoints (some m) k (some m') k' = .ok (firstSibling c c' (t.children n)) := by
  have hnot := sibling_not_mem_chain hc hm hc' hne
  have hnot' := sibling_not_mem_chain hc' hm' hc hne.symm
  have hmm : m ≠ m' := fun heq => hnot (heq ▸ hm')
  have hnone : t.childAbove m' m = none :=
    childAbove_eq_none fun h => absurd (chain_trans hm h) hnot'
  have hnone' : t.childAbove m m' = none := childAbove_eq_none fun h => absurd (chain_trans hm' h) hnot
  simp [compareBoundaryPoints,hmm,hnone,hnone',commonAncestorContainer_eq hc hm hc' hne hm',
    childAbove_eq hc hm,childAbove_eq hc' hm',hne]

end

theorem compareBoundaryPoints_wrongDocument (h : t.top m ≠ t.top m') :
    t.compareBoundaryPoints (some m) k (some m') k' = .error .WRONG_DOCUMENT_ERR := by
  have hnot : ∀ x ∈ t.chain m, x ∉ t.chain m' := fun x hx hx' =>
    h ((top_of_mem_chain hx).symm.trans (top_of_mem_chain hx'))
  have hne : m ≠ m' := fun heq => h (congrArg _ heq)
  have hnone : t.childAbove m' m = none :=
    childAbove_eq_none fun h => absurd h (hnot m (self_mem_chain m))
  have hnone' : t.childAbove m m' = none :=
    childAbove_eq_none fun h => absurd (self_mem_chain m') (hnot m' h)
  have hcommon : t.commonAncestorContainer m m' = none := by
    simpa [commonAncestorContainer] using hnot
  simp [compareBoundaryPoints,hne,hnone,hnone',hcommon]

end

/-! ### Document order -/

/-- The positions of the tree below a node: at each offset the position there and then those of the next
child. -/
def positionsFrom (t : NodeTrees N) : ℕ → N → List (N × ℕ)
  | 0, _ => []
  | fuel + 1, n => (List.range (t.maxOffset n + 1)).flatMap fun k =>
    (n, k) :: (t.children n)[k]?.toList.flatMap (t.positionsFrom fuel)

def positions (root : N) : List (N × ℕ) := t.positionsFrom t.height root

def compare (x y : N × ℕ) : Except RangeFailure ℤ :=
  t.compareBoundaryPoints (some x.1) x.2 (some y.1) y.2

def Precedes (x y : N × ℕ) : Prop := t.compare x y = .ok (-1) ∧ t.compare y x = .ok 1

/-- The comparisons order the points of a sequence as it does. -/
structure Orders (t : NodeTrees N) (l : List (N × ℕ)) : Prop where
  sign : ∀ x ∈ l, ∀ y ∈ l, t.compare x y = .ok (Int.sign (l.idxOf x - l.idxOf y))
  eq_of_zero : ∀ x ∈ l, ∀ y ∈ l, t.compare x y = .ok 0 → x = y
  antisymm : ∀ x ∈ l, ∀ y ∈ l, ∀ r, t.compare x y = .ok r → t.compare y x = .ok (-r)
  trans : ∀ x ∈ l, ∀ y ∈ l, ∀ z ∈ l, ∀ r ≤ 0, ∀ r' ≤ 0, t.compare x y = .ok r →
    t.compare y z = .ok r' → ∃ r'' ≤ 0, t.compare x z = .ok r''

section DocumentOrder
variable {t : NodeTrees N} {c n : N} {x : N × ℕ} {fuel : ℕ}

omit [DecidableEq N] in
theorem height_le_child (hf : t.height ≤ t.depth n+(fuel+1)) (hc : t.parentNode c = some n) :
    t.height ≤ t.depth c+fuel := by
  rw [t.depth_child hc]
  omega

omit [DecidableEq N] in
theorem mem_positionsFrom (hf : t.height ≤ t.depth n+fuel) :
    x ∈ t.positionsFrom fuel n ↔ n ∈ t.chain x.1 ∧ x.2 ≤ t.maxOffset x.1 := by
  induction fuel generalizing n with
  | zero => exact absurd (t.depth_lt n) (not_lt.mpr hf)
  | succ fuel ih =>
    simp only [positionsFrom,mem_flatMap,mem_range,mem_cons,mem_toList]
    constructor
    · rintro ⟨k,hk,rfl | ⟨c,hc,hx⟩⟩
      · exact ⟨self_mem_chain n,Nat.le_of_lt_succ hk⟩
      · have hp := t.mem_children.mp (mem_of_getElem? hc)
        obtain ⟨hcx,hk⟩ := (ih (height_le_child hf hp)).mp hx
        exact ⟨chain_trans (parent_mem_chain hp) hcx,hk⟩
    · rintro ⟨hn,hk⟩
      by_cases hxn : x.1 = n
      · exact ⟨x.2,Nat.lt_succ_of_le (hxn ▸ hk),.inl (Prod.ext hxn rfl)⟩
      · obtain ⟨c,hcx,hp⟩ := exists_child_of_mem_chain hn hxn
        obtain ⟨i,hlt,hi⟩ := mem_iff_getElem.mp (t.mem_children.mpr hp)
        exact ⟨i,Nat.lt_succ_of_le (hlt.le.trans (t.length_children n)),.inr ⟨c,
          List.getElem?_eq_some_iff.mpr ⟨hlt,hi⟩,(ih (height_le_child hf hp)).mpr ⟨hcx,hk⟩⟩⟩

/-- The sequence is in the order that the comparisons give. -/
theorem pairwise_positionsFrom (hf : t.height ≤ t.depth n+fuel) :
    (t.positionsFrom fuel n).Pairwise t.Precedes := by
  induction fuel generalizing n with
  | zero => exact List.Pairwise.nil
  | succ fuel ih =>
    have hb : ∀ k : ℕ, ∀ x ∈ (t.children n)[k]?.toList.flatMap (t.positionsFrom fuel),
        ∃ c, (t.children n)[k]? = some c ∧ t.parentNode c = some n ∧ c ∈ t.chain x.1 := by
      intro k x hx
      obtain ⟨c,hc,hx⟩ := mem_flatMap.mp hx
      rw [mem_toList] at hc
      have hp := t.mem_children.mp (mem_of_getElem? hc)
      exact ⟨c,hc,hp,((mem_positionsFrom (height_le_child hf hp)).mp hx).1⟩
    have hinto : ∀ k i : ℕ, k ≤ i → ∀ x ∈ (t.children n)[i]?.toList.flatMap (t.positionsFrom fuel),
        t.Precedes (n,k) x := by
      intro k i hki x hx
      obtain ⟨c,hi,hp,hcx⟩ := hb i x hx
      have h := compareBoundaryPoints_below (k := k) (j := x.2) hp hcx hi
      rwa [if_pos hki,if_neg (not_lt.mpr hki)] at h
    rw [positionsFrom,pairwise_flatMap]
    constructor
    · intro k _
      refine pairwise_cons.mpr ⟨hinto k k le_rfl,?_⟩
      cases hc : (t.children n)[k]? with
      | none => exact List.Pairwise.nil
      | some c =>
        have hp := t.mem_children.mp (mem_of_getElem? hc)
        simpa using ih (height_le_child hf hp)
    · refine pairwise_lt_range.imp fun {k k'} hk x hx y hy => ?_
      rcases mem_cons.mp hx with rfl | hx <;> rcases mem_cons.mp hy with rfl | hy
      · simp [Precedes,compare,compareBoundaryPoints,hk,hk.ne,hk.ne',hk.le]
      · exact hinto k k' hk.le y hy
      · obtain ⟨c,hi,hp,hcx⟩ := hb k x hx
        have h := compareBoundaryPoints_below (k := k') (j := x.2) hp hcx hi
        rw [if_neg (not_le.mpr hk),if_pos hk] at h
        exact h.symm
      · obtain ⟨c,hi,hp,hcx⟩ := hb k x hx
        obtain ⟨c',hi',hp',hcy⟩ := hb k' y hy
        obtain ⟨hne,hfst,hl⟩ := firstSibling_eq (t.nodup_children n) hk hi hi'
        exact ⟨(compareBoundaryPoints_siblings hp hcx hp' hne hcy).trans (congrArg _ hfst),
          (compareBoundaryPoints_siblings hp' hcy hp hne.symm hcx).trans (congrArg _ hl)⟩

theorem orders_of_pairwise {l : List (N × ℕ)} (h : l.Pairwise t.Precedes) : t.Orders l := by
  have hp : ∀ x ∈ l, ∀ y ∈ l, l.idxOf x < l.idxOf y → t.Precedes x y := by
    intro x hx y hy hlt
    simpa using pairwise_iff_getElem.mp h _ _ (idxOf_lt_length_of_mem hx)
      (idxOf_lt_length_of_mem hy) hlt
  have hs : ∀ x ∈ l, ∀ y ∈ l, t.compare x y = .ok (Int.sign (l.idxOf x-l.idxOf y)) := by
    intro x hx y hy
    rcases lt_trichotomy (l.idxOf x) (l.idxOf y) with hlt | heq | hlt
    · rw [(hp x hx y hy hlt).1,Int.sign_eq_neg_one_of_neg (by omega)]
    · obtain rfl := (idxOf_inj hx).mp heq
      simp [compare,compareBoundaryPoints]
    · rw [(hp y hy x hx hlt).2,Int.sign_eq_one_of_pos (by omega)]
  refine ⟨hs,fun x hx y hy hzero => ?_,fun x hx y hy r hr => ?_,
    fun x hx y hy z hz r hr r' hr' hxy hyz => ⟨_,?_,hs x hx z hz⟩⟩
  · rw [hs x hx y hy,Except.ok.injEq,Int.sign_eq_zero_iff_zero] at hzero
    exact (idxOf_inj hx).mp (by omega)
  · rw [hs x hx y hy,Except.ok.injEq] at hr
    rw [hs y hy x hx,← hr,← Int.sign_neg,Int.neg_sub]
  · rw [hs x hx y hy,Except.ok.injEq] at hxy
    rw [hs y hy z hz,Except.ok.injEq] at hyz
    rw [← hxy,Int.sign_nonpos_iff] at hr
    rw [← hyz,Int.sign_nonpos_iff] at hr'
    rw [Int.sign_nonpos_iff]
    omega

/-- The points of a tree with valid offsets are compared in document order, those of two trees not at
all. -/
theorem compareBoundaryPoints_documentOrder (t : NodeTrees N) :
    (∀ n, t.Orders (t.positions (t.top n)) ∧
      ∀ x, x ∈ t.positions (t.top n) ↔ t.top x.1 = t.top n ∧ x.2 ≤ t.maxOffset x.1) ∧
    ∀ x y, t.top x.1 ≠ t.top y.1 → t.compare x y = .error .WRONG_DOCUMENT_ERR := by
  refine ⟨fun n => ⟨orders_of_pairwise (pairwise_positionsFrom (Nat.le_add_left _ _)),fun x => ?_⟩,
    fun x y h => compareBoundaryPoints_wrongDocument h⟩
  rw [positions,mem_positionsFrom (Nat.le_add_left _ _)]
  refine and_congr_left fun _ => ⟨fun h => ?_,fun h => h ▸ top_mem_chain t x.1⟩
  rw [← top_of_mem_chain h,top_of_mem_chain (top_mem_chain t n)]

theorem compareBoundaryPoints_textInElement :
    textInElement.positions 0 =
      [(0, 0), (1, 0), (3, 0), (3, 1), (3, 2), (1, 1), (0, 1), (2, 0), (0, 2)] ∧
    textInElement.Orders (textInElement.positions 0) ∧
    textInElement.compare (3, 2) (0, 1) = .ok (-1) := by
  have htop : textInElement.top 3 = 0 := by decide
  refine ⟨by decide, ?_, by decide⟩
  exact htop ▸ ((compareBoundaryPoints_documentOrder textInElement).1 3).1

end DocumentOrder

end NodeTrees

end QPlusWeb.WebCore
