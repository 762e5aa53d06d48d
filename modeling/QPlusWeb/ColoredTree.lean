import Mathlib.Data.List.Basic
import Mathlib.Data.List.Nodup
import Mathlib.Data.List.Pairwise
import Mathlib.Data.List.Perm.Basic
import Mathlib.Order.Basic
import Mathlib.Tactic.Tauto
import Mathlib.Tactic.Linarith

/-!
# Colored binary trees with a focus

Binary trees with red and black nodes, the places in them as contexts, and the
balance conditions of red-black trees for both. Left and right are values of a
type, so that a fact and its mirror image are one statement: `branch d` is the
node that has its first subtree on side `d`.

`Balanced t c n` says that `t` has root color `c`, that no red node has a red
child and that `n` black nodes lie on every way down. `Fits C c n` says that a
tree with these parameters makes the whole tree balanced with a black root.
-/
namespace QPlusWeb.ColoredTree
open List

inductive Color where
  | red | black
  deriving DecidableEq, Repr

inductive Side where
  | left | right
  deriving DecidableEq, Repr

def Side.flip : Side → Side
  | .left => .right
  | .right => .left

theorem Side.eq_or_eq_flip (d e : Side) : d = e ∨ d = e.flip := by
  cases d <;> cases e <;> simp [Side.flip]

inductive Tree (α : Type) where
  | nil
  | node (color : Color) (left : Tree α) (label : α) (right : Tree α)
  deriving DecidableEq, Repr

variable {α : Type} {n : ℕ} {t u : Tree α} {d : Side} {c e : Color} {a : α}

namespace Tree

/-- The node with `t` on side `d` and `u` on the other side. -/
def branch (d : Side) (c : Color) (t : Tree α) (a : α) (u : Tree α) : Tree α :=
  match d with
  | .left => node c t a u
  | .right => node c u a t

def rootLabel : Tree α → Option α
  | nil => none
  | node _ _ a _ => some a

def toList : Tree α → List α
  | nil => []
  | node _ l a r => l.toList ++ a :: r.toList

def height : Tree α → ℕ
  | nil => 0
  | node _ l _ r => max l.height r.height + 1

@[simp] theorem rootLabel_branch (d : Side) (c : Color) (t : Tree α) (a : α) (u : Tree α) :
    (branch d c t a u).rootLabel = some a := by
  cases d <;> rfl

theorem branch_flip (d : Side) (c : Color) (t : Tree α) (a : α) (u : Tree α) :
    branch d.flip c t a u = branch d c u a t := by
  cases d <;> rfl

/-- Induction that follows a side and the other side of every node. -/
@[elab_as_elim]
theorem branch_induction {motive : Tree α → Prop} (d : Side) (nil : motive .nil)
    (branch : ∀ c t a u, motive t → motive u → motive (branch d c t a u)) (t : Tree α) :
    motive t := by
  induction t with
  | nil => exact nil
  | node c l a r ihl ihr =>
    cases d with
    | left => exact branch c l a r ihl ihr
    | right => exact branch c r a l ihr ihl

theorem rootLabel_mem {t : Tree α} {a : α} (h : t.rootLabel = some a) : a ∈ t.toList := by
  cases t with
  | nil => cases h
  | node c l b r =>
    obtain rfl := Option.some.inj h
    simp [toList]

theorem mem_toList_branch {d : Side} {c : Color} {t u : Tree α} {a b : α} :
    b ∈ (branch d c t a u).toList ↔ b = a ∨ b ∈ t.toList ∨ b ∈ u.toList := by
  cases d with
  | left | right =>
    simp only [branch,toList,mem_append,mem_cons]
    tauto

theorem toList_branch_perm (d : Side) (c : Color) (t : Tree α) (a : α) (u : Tree α) :
    (branch d c t a u).toList.Perm (a::(t.toList++u.toList)) := by
  cases d with
  | left => exact perm_middle
  | right => exact perm_middle.trans (perm_append_comm.cons a)

theorem toList_rotate (d : Side) (c c' e e' : Color) (t u v : Tree α) (a b : α) :
    (branch d c (branch d c' t a u) b v).toList = (branch d e t a (branch d e' u b v)).toList := by
  cases d <;> simp [branch,toList]

theorem toList_branch_congr (d : Side) (c c' : Color) {t t' u u' : Tree α} (a : α)
    (ht : t.toList = t'.toList) (hu : u.toList = u'.toList) :
    (branch d c t a u).toList = (branch d c' t' a u').toList := by
  cases d <;> simp [branch,toList,ht,hu]

end Tree

open ColoredTree.Tree

/-! ### Contexts -/

/-- A tree with a hole: the nodes from the hole up to the root, each with the
side on which the hole lies. -/
inductive Ctx (α : Type) where
  | top
  | frame (side : Side) (color : Color) (label : α) (sibling : Tree α) (up : Ctx α)
  deriving DecidableEq, Repr

namespace Ctx

def plug : Ctx α → Tree α → Tree α
  | top, t => t
  | frame d c a s up, t => up.plug (branch d c t a s)

def parent : Ctx α → Option α
  | top => none
  | frame _ _ a _ _ => some a

def depth : Ctx α → ℕ
  | top => 0
  | frame _ _ _ _ up => up.depth + 1

/-- The labels in front of the hole. -/
def before : Ctx α → List α
  | top => []
  | frame .left _ _ _ up => up.before
  | frame .right _ a s up => up.before ++ (s.toList ++ [a])

/-- The labels behind the hole. -/
def after : Ctx α → List α
  | top => []
  | frame .left _ a s up => a :: (s.toList ++ up.after)
  | frame .right _ _ _ up => up.after

theorem toList_plug (C : Ctx α) (t : Tree α) :
    (C.plug t).toList = C.before++(t.toList++C.after) := by
  induction C generalizing t with
  | top => simp [plug,before,after]
  | frame d c a s up ih =>
    rw [plug,ih]
    cases d <;> simp [branch,toList,before,after]

/-- The labels around the hole, from the hole upwards. -/
def labels : Ctx α → List α
  | top => []
  | frame _ _ a s up => a :: (s.toList ++ up.labels)

theorem toList_plug_perm (C : Ctx α) (t : Tree α) :
    (C.plug t).toList.Perm (t.toList++C.labels) := by
  induction C generalizing t with
  | top => simp [plug,labels]
  | frame d c a s up ih =>
    have hb := (toList_branch_perm d c t a s).append_right up.labels
    have hm : (a::(t.toList++s.toList)++up.labels).Perm (t.toList++a::(s.toList++up.labels)) := by
      rw [cons_append,append_assoc]
      exact perm_middle.symm
    exact ((ih _).trans hb).trans hm

theorem toList_plug_congr (C : Ctx α) {t u : Tree α} (h : t.toList = u.toList) :
    (C.plug t).toList = (C.plug u).toList := by
  rw [toList_plug,toList_plug,h]

theorem rootLabel_plug_ne_none (C : Ctx α) {t : Tree α} (h : t.rootLabel ≠ none) :
    (C.plug t).rootLabel ≠ none := by
  induction C generalizing t with
  | top => exact h
  | frame d c a s up ih => exact ih (by simp)

/-- Every label of a tree can be brought into focus. -/
theorem exists_plug_of_mem {t : Tree α} {a : α} (h : a ∈ t.toList) (C : Ctx α) :
    ∃ (D : Ctx α) (c : Color) (l r : Tree α), C.plug t = D.plug (node c l a r) := by
  induction t generalizing C with
  | nil => cases h
  | node c l b r ihl ihr =>
    simp only [toList,mem_append,mem_cons] at h
    rcases h with h | h | h
    · exact ihl h (frame .left c b r C)
    · subst h
      exact ⟨C,c,l,r,rfl⟩
    · exact ihr h (frame .right c b l C)

end Ctx

/-! ### Balance -/

inductive Balanced : Tree α → Color → ℕ → Prop
  | nil : Balanced nil .black 0
  | red {l r a n} : Balanced l .black n → Balanced r .black n →
      Balanced (node .red l a r) .red n
  | black {l r a c d n} : Balanced l c n → Balanced r d n →
      Balanced (node .black l a r) .black (n + 1)

/-- A red-black tree is at most twice as high as it has to be. -/
theorem Balanced.height_le (h : Balanced t c n) :
    t.height ≤ 2*n+(if c = .red then 1 else 0) ∧ 2^n ≤ t.toList.length+1 := by
  induction h with
  | nil => simp [height]
  | red | black =>
    simp only [height,toList,length_append,length_cons,pow_succ]
    grind

theorem Balanced.branch_red (a : α) (ht : Balanced t .black n) (hu : Balanced u .black n) :
    Balanced (branch d .red t a u) .red n := by
  cases d
  · exact .red ht hu
  · exact .red hu ht

theorem Balanced.branch_black (a : α) (ht : Balanced t c n) (hu : Balanced u e n) :
    Balanced (branch d .black t a u) .black (n+1) := by
  cases d
  · exact .black ht hu
  · exact .black hu ht

/-- A tree that contains a black node on every way is not empty. -/
theorem Balanced.exists_branch {c : Color} (d : Side)
    (h : Balanced t c (n+1)) : ∃ l a r, t = branch d c l a r := by
  cases h with
  | red | black => cases d <;> exact ⟨_,_,_,rfl⟩

theorem Balanced.of_branch_red
    (h : Balanced (branch d .red t a u) .red n) : Balanced t .black n ∧ Balanced u .black n := by
  cases d
  · cases h with
    | red hl hr => exact ⟨hl,hr⟩
  · cases h with
    | red hl hr => exact ⟨hr,hl⟩

theorem Balanced.of_branch_black (h : Balanced (branch d .black t a u) .black (n+1)) :
    ∃ c e, Balanced t c n ∧ Balanced u e n := by
  cases d
  · cases h with
    | black hl hr => exact ⟨_,_,hl,hr⟩
  · cases h with
    | black hl hr => exact ⟨_,_,hr,hl⟩

theorem Balanced.blacken {l r : Tree α}
    (h : Balanced (node c l a r) e n) : ∃ k, Balanced (node .black l a r) .black k := by
  cases h with
  | red hl hr | black hl hr => exact ⟨_,.black hl hr⟩

theorem Balanced.exists_branch_of_red (d : Side) (h : Balanced t .red n) :
    ∃ l a r, t = branch d .red l a r := by
  cases h with
  | red => cases d <;> exact ⟨_,_,_,rfl⟩

/-- What a hole expects so that the whole tree is balanced under a black root. -/
inductive Fits : Ctx α → Color → ℕ → Prop
  | top {n : ℕ} : Fits .top .black n
  | red {d a s up n} : Balanced s .black n →
      Fits up .red n → Fits (.frame d .red a s up) .black n
  | black {d a s up c e n} : Balanced s e n →
      Fits up .black (n + 1) → Fits (.frame d .black a s up) c n

/-- A place for a red root has a black parent and takes a black root as well. -/
theorem Fits.black_of_red {C : Ctx α} (h : Fits C .red n) : Fits C .black n := by
  cases h with
  | black hs hup => exact .black hs hup

theorem Fits.plug {C : Ctx α} {c : Color} (h : Fits C c n)
    (ht : Balanced t c n) : ∃ k, Balanced (C.plug t) .black k := by
  induction h generalizing t with
  | top => exact ⟨_,ht⟩
  | red hs _ ih => exact ih (ht.branch_red _ hs)
  | black hs _ ih => exact ih (ht.branch_black _ hs)

/-- In a balanced tree every place fits the subtree at it. -/
theorem Fits.of_plug {C : Ctx α} {k : ℕ} (h : Balanced (C.plug t) .black k) :
    ∃ c n, Balanced t c n ∧ Fits C c n := by
  induction C generalizing t with
  | top => exact ⟨_,_,h,.top⟩
  | frame d c a s up ih =>
    obtain ⟨e,n,ht,hup⟩ := ih h
    cases c with
    | red =>
      cases d with
      | left =>
        cases ht with
        | red hl hr => exact ⟨_,_,hl,.red hr hup⟩
      | right =>
        cases ht with
        | red hl hr => exact ⟨_,_,hr,.red hl hup⟩
    | black =>
      cases d with
      | left =>
        cases ht with
        | black hl hr => exact ⟨_,_,hl,.black hr hup⟩
      | right =>
        cases ht with
        | black hl hr => exact ⟨_,_,hr,.black hl hup⟩

/-- What the surroundings of a place for a black root say about its parent. -/
theorem Fits.of_frame {c : Color} {s : Tree α} {up : Ctx α}
    (h : Fits (.frame d c a s up) .black n) : ∃ e k, Balanced s e n ∧ Fits up c k ∧
      ∀ (d' : Side) (b : α) {t u : Tree α}, Balanced t .black n → Balanced u .black n →
        Balanced (branch d' c t b u) c k := by
  cases h with
  | red hs hup => exact ⟨_,_,hs,hup,fun _ b _ _ ht hu => ht.branch_red b hu⟩
  | black hs hup => exact ⟨_,_,hs,hup,fun _ b _ _ ht hu => ht.branch_black b hu⟩

/-- A red root over two balanced trees, which may have red roots as well. -/
inductive RedRoot : Tree α → ℕ → Prop
  | intro {l r a c e n} : Balanced l c n → Balanced r e n →
      RedRoot (node .red l a r) n

theorem RedRoot.branch (a : α)
    (ht : Balanced t c n) (hu : Balanced u e n) : RedRoot (branch d .red t a u) n := by
  cases d
  · exact .intro ht hu
  · exact .intro hu ht

theorem Balanced.relabel {l r : Tree α} (b : α)
    (h : Balanced (node c l a r) e n) : Balanced (node c l b r) e n := by
  cases h with
  | red hl hr => exact .red hl hr
  | black hl hr => exact .black hl hr

/-! ### Search trees -/

section
variable {κ : Type} [LinearOrder κ] (key : α → κ)

/-- The order of keys as met from side `d`. -/
def Side.before (d : Side) (a b : κ) : Prop :=
  match d with
  | .left => a < b
  | .right => b < a

instance (d : Side) (a b : κ) : Decidable (d.before a b) :=
  match d with
  | .left => inferInstanceAs (Decidable (a < b))
  | .right => inferInstanceAs (Decidable (b < a))

/-- The labels are ordered by their keys, with equal keys in any order. -/
def Sorted (t : Tree α) : Prop := t.toList.Pairwise fun a b => key a ≤ key b

/-- Every turn on the way down to the hole is the one for `k`: to the left where
`k` is smaller, and to the right otherwise. -/
def Directed (k : κ) : Ctx α → Prop
  | .top => True
  | .frame d _ a _ up => (d = .left ↔ k < key a) ∧ Directed k up

variable {key}

theorem Side.not_before_self (d : Side) (a : κ) : ¬d.before a a := by
  cases d <;> exact lt_irrefl a

theorem Side.not_before_trans {d : Side} {a b c : κ} (h : ¬d.before b a) (h' : ¬d.before c b) :
    ¬d.before c a := by
  cases d with
  | left => exact not_lt.mpr ((not_lt.mp h).trans (not_lt.mp h'))
  | right => exact not_lt.mpr ((not_lt.mp h').trans (not_lt.mp h))

theorem Side.before_of_not_before {d : Side} {a b c : κ} (h : ¬d.before b a) (h' : d.before b c) :
    d.before a c := by
  cases d with
  | left => exact lt_of_le_of_lt (not_lt.mp h) h'
  | right => exact lt_of_lt_of_le h' (not_lt.mp h)

theorem Sorted.of_branch {d : Side} {c : Color} {t u : Tree α} {a : α}
    (h : Sorted key (branch d c t a u)) : Sorted key t ∧ Sorted key u ∧
      (∀ b ∈ t.toList, ¬d.before (key a) (key b)) ∧ ∀ b ∈ u.toList, ¬d.before (key b) (key a) := by
  cases d with
  | left =>
    obtain ⟨ht,hau,htu⟩ := pairwise_append.mp h
    obtain ⟨ha,hu⟩ := pairwise_cons.mp hau
    exact ⟨ht,hu,fun b hb => not_lt.mpr (htu b hb a mem_cons_self),
      fun b hb => not_lt.mpr (ha b hb)⟩
  | right =>
    obtain ⟨hu,hat,hut⟩ := pairwise_append.mp h
    obtain ⟨ha,ht⟩ := pairwise_cons.mp hat
    exact ⟨ht,hu,fun b hb => not_lt.mpr (ha b hb),
      fun b hb => not_lt.mpr (hut b hb a mem_cons_self)⟩

theorem Directed.around {k : κ} {C : Ctx α} {t : Tree α} (h : Directed key k C)
    (hs : Sorted key (C.plug t)) :
    (∀ a ∈ C.before, key a ≤ k) ∧ ∀ a ∈ C.after, k < key a := by
  induction C generalizing t with
  | top => simp [Ctx.before,Ctx.after]
  | frame d c b s up ih =>
    obtain ⟨hb,hafter⟩ := ih h.2 hs
    rw [Sorted,Ctx.plug,Ctx.toList_plug,pairwise_append,pairwise_append] at hs
    have hm := hs.2.1.1
    cases d with
    | left =>
      have hk : k < key b := h.1.mp rfl
      rw [branch,toList,pairwise_append,pairwise_cons] at hm
      refine ⟨hb,?_⟩
      simp only [Ctx.after,mem_cons,mem_append]
      rintro a (rfl | ha | ha)
      · exact hk
      · exact hk.trans_le (hm.2.1.1 a ha)
      · exact hafter a ha
    | right =>
      have hk : key b ≤ k := not_lt.mp fun hlt => by simpa using h.1.mpr hlt
      rw [branch,toList,pairwise_append] at hm
      refine ⟨?_,hafter⟩
      simp only [Ctx.before,mem_append,mem_singleton]
      rintro a (ha | ha | rfl)
      · exact hb a ha
      · exact (hm.2.2 a ha b mem_cons_self).trans hk
      · exact hk

/-- A label with the key `k` may stand at the end of the way for `k`. -/
theorem Directed.sorted_leaf {C : Ctx α} {a : α} (c : Color) (h : Directed key (key a) C)
    (hs : Sorted key (C.plug .nil)) : Sorted key (C.plug (node c .nil a .nil)) := by
  obtain ⟨hbef,ha⟩ := h.around hs
  rw [Sorted,Ctx.toList_plug,pairwise_append] at hs ⊢
  refine ⟨hs.1,pairwise_cons.mpr ⟨fun b hb => (ha b hb).le,hs.2.1⟩,?_⟩
  intro b hb
  simp only [toList,nil_append,cons_append,mem_cons]
  rintro e (rfl | he)
  · exact hbef b hb
  · exact hs.2.2 b hb e he

end

end QPlusWeb.ColoredTree
