import QPlusWeb.ColoredTree
import Mathlib.Logic.Function.Basic
import Mathlib.Order.Defs.LinearOrder

/-!
# The red-black tree with parent links

`RedBlackTree.h`: a tree of nodes that belong to the user, linked by left,
right and parent pointers, with insertion, deletion of a node or of a key, and
three searches.

A tree is its root pointer together with the contents of the nodes. Nodes are
values of a type `N` and a pointer is an `Option N`. `none` is the null pointer
as a value; as the outcome of a call it means that a null pointer was
dereferenced, that an assertion failed or that the fuel of a loop ran out.
The source writes every repair twice, with left and right exchanged; here the
side is an argument.
-/
namespace QPlusWeb.RedBlack

open ColoredTree
export ColoredTree (Tree)

/-- The links and the color of a node; the source keeps the last two in one word. -/
structure Node (N : Type) where
  left : Option N
  right : Option N
  parent : Option N
  color : Color
  deriving DecidableEq, Repr

structure RedBlackTree (N : Type) where
  root : Option N
  node : N → Node N

variable {N K : Type} [DecidableEq N]

namespace RedBlackTree

/-! ### Access to the nodes -/

variable (t : RedBlackTree N)

def left (x : N) : Option N := (t.node x).left

def right (x : N) : Option N := (t.node x).right

def parent (x : N) : Option N := (t.node x).parent

def color (x : N) : Color := (t.node x).color

def child : Side → N → Option N
  | .left => t.left
  | .right => t.right

def modify (x : N) (f : Node N → Node N) : RedBlackTree N :=
  { t with node := Function.update t.node x (f (t.node x)) }

def setLeft (x : N) (v : Option N) : RedBlackTree N :=
  t.modify x fun r => { r with left := v }

def setRight (x : N) (v : Option N) : RedBlackTree N :=
  t.modify x fun r => { r with right := v }

def setChild : Side → N → Option N → RedBlackTree N
  | .left => t.setLeft
  | .right => t.setRight

def setParent (x : N) (v : Option N) : RedBlackTree N :=
  t.modify x fun r => { r with parent := v }

def setColor (x : N) (c : Color) : RedBlackTree N :=
  t.modify x fun r => { r with color := c }

def reset (x : N) : RedBlackTree N :=
  t.modify x fun _ => ⟨none, none, none, .red⟩

/-- Whether a pointer is not null and points to a red node. -/
def isRed : Option N → Bool
  | none => false
  | some x => decide (t.color x = .red)

/-- Sets the parent of a child that may be missing. -/
def setParentOf (x : Option N) (p : Option N) : RedBlackTree N :=
  match x with
  | none => t
  | some x => t.setParent x p

/-- Sets the color of a node that may be missing. -/
def setColorOf (x : Option N) (c : Color) : RedBlackTree N :=
  match x with
  | none => t
  | some x => t.setColor x c

/-- Lets the link that leads to `x` lead to `y`. -/
def relink (x : N) (y : Option N) : RedBlackTree N :=
  match t.parent x with
  | none => { t with root := y }
  | some p => if some x = t.left p then t.setLeft p y else t.setRight p y

/-! ### Walks -/

def treeMinimum (t : RedBlackTree N) : ℕ → N → Option N
  | 0, _ => none
  | fuel + 1, x =>
    match t.left x with
    | none => some x
    | some y => t.treeMinimum fuel y

/-- The climb of `successor` out of right subtrees. -/
def successorLoop (t : RedBlackTree N) : ℕ → N → Option N → Option (Option N)
  | 0, _, _ => none
  | _ + 1, _, none => some none
  | fuel + 1, x, some y =>
    if some x = t.right y then t.successorLoop fuel y (t.parent y) else some (some y)

def successor (fuel : ℕ) (x : N) : Option (Option N) :=
  match t.right x with
  | some r => (t.treeMinimum fuel r).map some
  | none => t.successorLoop fuel x (t.parent x)

/-! ### Rotations -/

/-- `leftRotate` for the left side and `rightRotate` for the right one; the
result is the new root of the subtree. -/
def rotate (d : Side) (x : N) : Option (N × RedBlackTree N) := do
  let y ← t.child d.flip x
  -- turn the `d` subtree of `y` into the other subtree of `x`
  let t := t.setChild d.flip x (t.child d y)
  let t := t.setParentOf (t.child d y) (some x)
  -- link the parent of `x` to `y`
  let t := t.setParent y (t.parent x)
  let t := t.relink x (some y)
  -- put `x` on side `d` of `y`
  let t := t.setChild d y (some x)
  some (y, t.setParent x (some y))

def leftRotate : N → Option (N × RedBlackTree N) := t.rotate .left

def rightRotate : N → Option (N × RedBlackTree N) := t.rotate .right

/-! ### Insertion -/

section
variable [LinearOrder K] (key : N → K)

/-- The search of `treeInsert` for the last node on the way down. -/
def treeInsertLoop (t : RedBlackTree N) (z : N) : ℕ → Option N → Option N → Option (Option N)
  | 0, _, _ => none
  | _ + 1, y, none => some y
  | fuel + 1, _, some x =>
    t.treeInsertLoop z fuel (some x) (if key z < key x then t.left x else t.right x)

/-- Links the new leaf `z` to its parent `y`. -/
def linkLeaf (t : RedBlackTree N) (z : N) (y : Option N) : RedBlackTree N :=
  let t := t.setParent z y
  match y with
  | none => { t with root := some z }
  | some y => if key z < key y then t.setLeft y (some z) else t.setRight y (some z)

def treeInsert (t : RedBlackTree N) (fuel : ℕ) (z : N) : Option (RedBlackTree N) := do
  guard (t.left z = none)
  guard (t.right z = none)
  guard (t.parent z = none)
  guard (t.color z = .red)
  let y ← t.treeInsertLoop key z fuel none t.root
  some (t.linkLeaf key z y)

/-- Case 2 of `insert`: the node is the inner child and changes places with its
parent. The node to go on with is returned first. -/
def insertCase2 (d : Side) (x : N) : Option (N × RedBlackTree N) := do
  let p ← t.parent x
  if some x = t.child d.flip p then
    let r ← t.rotate d p
    some (p, r.2)
  else some (x, t)

def insertCase3 (d : Side) (x : N) : Option (RedBlackTree N) := do
  let p ← t.parent x
  let t := t.setColor p .black
  let g ← t.parent p
  let t := t.setColor g .red
  let r ← t.rotate d.flip g
  some r.2

/-- The loop of `insert`. -/
def insertFixup : ℕ → RedBlackTree N → N → Option (RedBlackTree N)
  | 0, _, _ => none
  | fuel + 1, t, x =>
    if some x = t.root then some t
    else do
      let p ← t.parent x
      if t.color p = .red then
        let g ← t.parent p
        let d : Side := if some p = t.left g then .left else .right
        if t.isRed (t.child d.flip g) then
          -- Case 1
          let y ← t.child d.flip g
          insertFixup fuel (((t.setColor p .black).setColor y .black).setColor g .red) g
        else
          let r ← t.insertCase2 d x
          let t ← r.2.insertCase3 d r.1
          insertFixup fuel t r.1
      else some t

def insert (t : RedBlackTree N) (fuel : ℕ) (x : N) : Option (RedBlackTree N) := do
  let t := t.reset x
  let t ← t.treeInsert key fuel x
  let t := t.setColor x .red
  let t ← insertFixup fuel t x
  let r ← t.root
  some (t.setColor r .black)

end

/-! ### Removal -/

/-- Case 1 of `removeFixup`: a red sibling moves up. The new sibling is returned first. -/
def removeCase1 (d : Side) (p w : N) : Option (N × RedBlackTree N) :=
  if t.color w = .red then do
    let t := (t.setColor w .black).setColor p .red
    let r ← t.rotate d p
    let w ← r.2.child d.flip p
    some (w, r.2)
  else some (w, t)

/-- Case 3 of `removeFixup`: the outer child of the sibling is not red. The new
sibling is returned first. -/
def removeCase3 (d : Side) (p w : N) : Option (N × RedBlackTree N) :=
  if t.isRed (t.child d.flip w) then some (w, t)
  else do
    let v ← t.child d w
    let t := (t.setColor v .black).setColor w .red
    let r ← t.rotate d.flip w
    let w ← r.2.child d.flip p
    some (w, r.2)

def removeCase4 (d : Side) (p w : N) : Option (RedBlackTree N) := do
  let t := t.setColor w (t.color p)
  let t := t.setColor p .black
  let t := t.setColorOf (t.child d.flip w) .black
  let r ← t.rotate d p
  some r.2

/-- One round of the loop of `removeFixup` for a hole on side `d` of `p`: the
tree, and the new values of `x` and `xParent`. -/
def removeRound (d : Side) (p : N) : Option (RedBlackTree N × Option N × Option N) := do
  -- the sibling is asserted not to be null
  let w ← t.child d.flip p
  let r ← t.removeCase1 d p w
  let w := r.1
  let t := r.2
  if !t.isRed (t.child d w) && !t.isRed (t.child d.flip w) then
    -- Case 2
    let t := t.setColor w .red
    some (t, some p, t.parent p)
  else
    let r ← t.removeCase3 d p w
    let t ← r.2.removeCase4 d p r.1
    let x ← t.root
    some (t, some x, t.parent x)

def removeFixup : ℕ → RedBlackTree N → Option N → Option N → Option (RedBlackTree N)
  | 0, _, _, _ => none
  | fuel + 1, t, x, xParent =>
    if x ≠ t.root ∧ t.isRed x = false then do
      let p ← xParent
      let d : Side := if x = t.left p then .left else .right
      let r ← t.removeRound d p
      removeFixup fuel r.1 r.2.1 r.2.2
    else some (t.setColorOf x .black)

/-- The part of `remove` that takes `y`, which has at most one child, out of the
tree: the tree, and the values of `x` and `xParent`. -/
def spliceOut (y : N) : RedBlackTree N × Option N × Option N :=
  let x := if t.left y = none then t.right y else t.left y
  let t := t.setParentOf x (t.parent y)
  (t.relink y x, x, t.parent y)

/-- Takes `y` out of the tree and repairs the colors. -/
def unlink (fuel : ℕ) (y : N) : Option (RedBlackTree N) :=
  let r := t.spliceOut y
  if r.1.color y = .black then removeFixup fuel r.1 r.2.1 r.2.2 else some r.1

/-- Gives `y` the links and the color of `z` and makes it the parent of the children of `z`. -/
def copyPlace (z y : N) : RedBlackTree N :=
  let t := t.setParent y (t.parent z)
  let t := t.setColor y (t.color z)
  let t := t.setLeft y (t.left z)
  let t := t.setRight y (t.right z)
  let t := t.setParentOf (t.left z) (some y)
  t.setParentOf (t.right z) (some y)

/-- The part of `remove` that puts `y` in the place of `z`. -/
def takePlace (z y : N) : Option (RedBlackTree N) := do
  let t := t.copyPlace z y
  guard (t.parent z = none → t.root = some z)
  some (t.relink z (some y))

def remove (fuel : ℕ) (z : N) : Option (N × RedBlackTree N) := do
  guard (t.parent z ≠ none ∨ t.root = some z)
  let y ← if t.left z = none ∨ t.right z = none then some z else (t.successor fuel z).join
  let t ← t.unlink fuel y
  if y = z then some (z, t)
  else do
    let t ← t.takePlace z y
    some (z, t)

/-! ### Searches -/

section
variable [LinearOrder K] (key : N → K)

def findExactLoop (t : RedBlackTree N) (k : K) : ℕ → Option N → Option (Option N)
  | 0, _ => none
  | _ + 1, none => some none
  | fuel + 1, some x =>
    if key x = k then some (some x)
    else t.findExactLoop k fuel (if k < key x then t.left x else t.right x)

def findExact (t : RedBlackTree N) (fuel : ℕ) (k : K) : Option (Option N) :=
  t.findExactLoop key k fuel t.root

/-- The loop of `findLeastGreaterThanOrEqual` for the left side and of
`findGreatestLessThanOrEqual` for the right one. -/
def findNearestLoop (t : RedBlackTree N) (d : Side) (k : K) :
    ℕ → Option N → Option N → Option (Option N)
  | 0, _, _ => none
  | _ + 1, best, none => some best
  | fuel + 1, best, some x =>
    if key x = k then some (some x)
    else if d.before (key x) k then t.findNearestLoop d k fuel best (t.child d.flip x)
    else t.findNearestLoop d k fuel (some x) (t.child d x)

def findLeastGreaterThanOrEqual (t : RedBlackTree N) (fuel : ℕ) (k : K) : Option (Option N) :=
  t.findNearestLoop key .left k fuel none t.root

def findGreatestLessThanOrEqual (t : RedBlackTree N) (fuel : ℕ) (k : K) : Option (Option N) :=
  t.findNearestLoop key .right k fuel none t.root

/-- `remove(key)`: the node that was removed, or null. -/
def removeKey (t : RedBlackTree N) (fuel : ℕ) (k : K) : Option (Option N × RedBlackTree N) := do
  match ← t.findExact key fuel k with
  | none => some (none, t)
  | some x => do
    let r ← t.remove fuel x
    some (some r.1, r.2)

end

end RedBlackTree

end QPlusWeb.RedBlack
