import QPlusWeb.OrderedTable
import Mathlib.Data.Finset.Card

/-!
# A transaction's uncommitted tree and the iterator that merges it

A transaction keeps its puts and removes in an ordered tree over a fixed
database snapshot. Its iterator walks both at once, in either direction. The
tree and the snapshot are finite ordered tables; searching and stepping them
is taken from there, as the AVL tree and the database iterator promise it.

An AVL iterator records a path. An insertion may rotate the tree under it, so
a path recorded in an older tree promises nothing: every read or step through
one is answered by the arbitrary function `stray`. The definitions follow the
source branch by branch, and the skipping loop carries fuel.
-/
namespace QPlusWeb.LevelDBTransaction
open OrderedTable

abbrev Bytes := List UInt8

/-- A comparator whose sign realizes the total order on keys. -/
structure LevelDBComparator (K : Type*) [LinearOrder K] where
  compare : K → K → ℤ
  compare_neg : ∀ a b, compare a b < 0 ↔ a < b
  compare_zero : ∀ a b, compare a b = 0 ↔ a = b

structure AVLTreeNode where
  value : Bytes
  deleted : Bool
  deriving DecidableEq, Repr

structure Transaction (K : Type*) [LinearOrder K] where
  snapshot : Table K Bytes
  tree : Table K AVLTreeNode

/-- `path` lists the keys of the tree in which the current path was recorded;
`key` is the copy of the node's key taken when the iterator was positioned. -/
structure TreeIterator (K : Type*) where
  iterator : Option K
  path : List K
  key : Option K
  deriving DecidableEq, Repr

/-- The result of dereferencing (`none`) or stepping (`some d`) a path that was
recorded before the latest insertion. -/
abbrev StrayPath (K : Type*) := Option Direction → TreeIterator K → List K → Option K

inductive Source where
  | tree | db
  deriving DecidableEq, Repr

structure TransactionIterator (K : Type*) where
  treeIterator : TreeIterator K
  dbIterator : Option K
  current : Option Source
  direction : Direction
  treeChanged : Bool
  deriving DecidableEq, Repr

section
variable {K : Type*} [LinearOrder K]

namespace TreeIterator
variable (stray : StrayPath K) (tree : Table K AVLTreeNode) (i : TreeIterator K)

def isValid : Bool := i.iterator.isSome

/-- The cached key, readable only while the iterator is valid. -/
def keyIfValid : Option K := if i.isValid then i.key else none

/-- Record a path to `p`; the cached key is refreshed only at a real node. -/
def settle (p : Option K) : TreeIterator K :=
  ⟨p, tree.keyList, if p.isSome then p else i.key⟩

def seekToLast : TreeIterator K := i.settle tree tree.last

def seek (target : K) : TreeIterator K :=
  match tree.equalKey target with
  | some k => i.settle tree (some k)
  | none => i.settle tree (tree.after target)

/-- `next` and `prev` are this step in the two directions. -/
def move (d : Direction) (i : TreeIterator K) : TreeIterator K :=
  if i.path = tree.keyList then i.settle tree (i.iterator.bind (tree.step d))
  else
    let p := stray (some d) i tree.keyList
    ⟨p, i.path, if p.isSome then p else i.key⟩

def node : Option AVLTreeNode :=
  (if i.path = tree.keyList then i.iterator else stray none i tree.keyList).bind tree.get

def isDeleted : Bool :=
  match i.node stray tree with
  | some n => n.deleted
  | none => false

def value : Option Bytes := (i.node stray tree).map AVLTreeNode.value

def reset : TreeIterator K :=
  ⟨i.key.bind tree.equalKey, tree.keyList, i.key⟩

end TreeIterator

namespace TransactionIterator
variable (cmp : LevelDBComparator K) (stray : StrayPath K) (t : Transaction K)

def create : TransactionIterator K :=
  ⟨⟨none, [], none⟩, none, none, .forward, false⟩

variable (i : TransactionIterator K)

def isValid : Bool := i.current.isSome

/-- `m_current->key()`. -/
def currentKey : Option K :=
  match i.current with
  | none => none
  | some .tree => i.treeIterator.keyIfValid
  | some .db => i.dbIterator

def moveTree (d : Direction) (i : TransactionIterator K) : TransactionIterator K :=
  { i with treeIterator := i.treeIterator.move stray t.tree d }

def moveDb (d : Direction) (i : TransactionIterator K) : TransactionIterator K :=
  { i with dbIterator := i.dbIterator.bind (t.snapshot.step d) }

/-- The tree iterator is placed on the first key above `k`. -/
def seekTreeAfter (k : K) (i : TreeIterator K) : TreeIterator K :=
  let i := i.seek t.tree k
  match i.keyIfValid with
  | some j => if cmp.compare j k = 0 then i.move stray t.tree .forward else i
  | none => i

def refreshTreeIterator : TransactionIterator K :=
  { i with
    treeChanged := false
    treeIterator :=
      if i.treeIterator.isValid = true ∧ i.current = some .tree then
        i.treeIterator.reset t.tree
      else
        match i.dbIterator, i.direction with
        | none, _ => i.treeIterator
        | some k, .forward => seekTreeAfter cmp stray t k i.treeIterator
        | some k, .reverse =>
          let j := i.treeIterator.seek t.tree k
          -- The source has no `else seekToLast()` here, unlike `prev`.
          if j.isValid then j.move stray t.tree .reverse else j }

def refreshed : TransactionIterator K :=
  if i.treeChanged then i.refreshTreeIterator cmp stray t else i

/-- The observable key; reading it refreshes the tree iterator. -/
def key : Option K := (i.refreshed cmp stray t).currentKey

def value (i : TransactionIterator K) : Option Bytes :=
  let i := i.refreshed cmp stray t
  match i.current with
  | none => none
  | some .tree => i.treeIterator.value stray t.tree
  | some .db => i.dbIterator.bind t.snapshot.get

def treeIteratorIsLower : Bool :=
  match i.treeIterator.keyIfValid, i.dbIterator with
  | some a, some b => decide (cmp.compare a b < 0)
  | _, _ => false

def treeIteratorIsHigher : Bool :=
  match i.treeIterator.keyIfValid, i.dbIterator with
  | some a, some b => decide (0 < cmp.compare a b)
  | _, _ => false

/-- For equal keys the tree iterator takes precedence. -/
def resolveConflict : TransactionIterator K :=
  match i.treeIterator.keyIfValid, i.dbIterator with
  | some a, some b => if cmp.compare a b = 0 then i.moveDb t i.direction else i
  | _, _ => i

def skipsDeleteMarker : Bool :=
  i.treeIterator.isValid && i.treeIterator.isDeleted stray t.tree &&
    match i.direction with
    | .forward => !i.dbIterator.isSome || i.treeIteratorIsLower cmp
    | .reverse => !i.dbIterator.isSome || i.treeIteratorIsHigher cmp

/-- The `while (loop)` of the source; each unit of fuel is one iteration. -/
def handleConflictsAndDeletes : ℕ → TransactionIterator K → Option (TransactionIterator K)
  | 0, _ => none
  | fuel + 1, i =>
    let i := i.resolveConflict cmp t
    if i.skipsDeleteMarker cmp stray t then
      handleConflictsAndDeletes fuel (i.moveTree stray t i.direction)
    else some i

/-- One iteration for each tree node and a last one that does not skip. -/
def loopFuel : ℕ := t.tree.entries.length + 1

def setCurrentIteratorToSmallestKey : TransactionIterator K :=
  let smallest := if i.treeIterator.isValid then some Source.tree else none
  match i.dbIterator with
  | none => { i with current := smallest }
  | some b =>
    match i.treeIterator.keyIfValid with
    | none => { i with current := some .db }
    | some a => { i with current := if cmp.compare b a < 0 then some .db else smallest }

def setCurrentIteratorToLargestKey : TransactionIterator K :=
  let largest := if i.treeIterator.isValid then some Source.tree else none
  match i.dbIterator with
  | none => { i with current := largest }
  | some b =>
    match i.treeIterator.keyIfValid with
    | none => { i with current := some .db }
    | some a => { i with current := if 0 < cmp.compare b a then some .db else largest }

def seek (target : K) (i : TransactionIterator K) : Option (TransactionIterator K) :=
  let i := { i with
    treeIterator := i.treeIterator.seek t.tree target
    dbIterator := t.snapshot.ceiling target
    direction := .forward }
  (handleConflictsAndDeletes cmp stray t (loopFuel t) i).map
    (setCurrentIteratorToSmallestKey cmp)

def seekToLast : Option (TransactionIterator K) :=
  let i := { i with
    treeIterator := i.treeIterator.seekToLast t.tree
    dbIterator := t.snapshot.last
    direction := .reverse }
  (handleConflictsAndDeletes cmp stray t (loopFuel t) i).map
    (setCurrentIteratorToLargestKey cmp)

/-- The database iterator is placed on the first key above `k`. -/
def seekDbAfter (k : K) : Option K :=
  match t.snapshot.ceiling k with
  | some b => if cmp.compare b k = 0 then t.snapshot.step .forward b else some b
  | none => none

/-- Step back from the first key at or above `k`, or go to the last key. -/
def seekTreeBefore (k : K) (i : TreeIterator K) : TreeIterator K :=
  let i := i.seek t.tree k
  if i.isValid then i.move stray t.tree .reverse else i.seekToLast t.tree

def seekDbBefore (k : K) : Option K :=
  match t.snapshot.ceiling k with
  | some b => t.snapshot.step .reverse b
  | none => t.snapshot.last

/-- Position the non-current iterator after `key()` and travel forward. -/
def turnForward : TransactionIterator K :=
  match i.current, i.currentKey with
  | some .db, some k =>
    { i with treeIterator := seekTreeAfter cmp stray t k i.treeIterator, direction := .forward }
  | some .tree, some k => { i with dbIterator := seekDbAfter cmp t k, direction := .forward }
  | _, _ => i

/-- Position the non-current iterator before `key()` and travel backward. -/
def turnReverse : TransactionIterator K :=
  match i.current, i.currentKey with
  | some .db, some k =>
    { i with treeIterator := seekTreeBefore stray t k i.treeIterator, direction := .reverse }
  | some .tree, some k => { i with dbIterator := seekDbBefore t k, direction := .reverse }
  | _, _ => i

/-- `m_current->next()` or `m_current->prev()`. -/
def moveCurrent (d : Direction) (i : TransactionIterator K) : TransactionIterator K :=
  match i.current with
  | none => i
  | some .tree => i.moveTree stray t d
  | some .db => i.moveDb t d

def next : Option (TransactionIterator K) :=
  let i := i.refreshed cmp stray t
  let i := if i.direction ≠ .forward then i.turnForward cmp stray t else i
  (handleConflictsAndDeletes cmp stray t (loopFuel t) (i.moveCurrent stray t .forward)).map
    (setCurrentIteratorToSmallestKey cmp)

def prev : Option (TransactionIterator K) :=
  let i := i.refreshed cmp stray t
  let i := if i.direction ≠ .reverse then i.turnReverse stray t else i
  (handleConflictsAndDeletes cmp stray t (loopFuel t) (i.moveCurrent stray t .reverse)).map
    (setCurrentIteratorToLargestKey cmp)

end TransactionIterator

/-- One transaction with one registered iterator. -/
structure State (K : Type*) [LinearOrder K] where
  transaction : Transaction K
  iterator : TransactionIterator K

/-- `notifyIteratorsOfTreeChange` runs only when a node was inserted. -/
def State.set (s : State K) (key : K) (value : Bytes) (deleted : Bool) : State K :=
  let newNode := (s.transaction.tree.get key).isNone
  { transaction := { s.transaction with tree := s.transaction.tree.set key ⟨value, deleted⟩ }
    iterator := { s.iterator with treeChanged := s.iterator.treeChanged || newNode } }

inductive Op (K : Type*) where
  | put (key : K) (value : Bytes)
  | remove (key : K)
  | seek (target : K)
  | seekToLast
  | next
  | prev
  | key
  | value

/-- The calls guarded by `ASSERT(isValid())`. -/
def Op.Admissible (s : State K) : Op K → Prop
  | .next | .prev | .key | .value => s.iterator.isValid = true
  | _ => True

/-- `key()` and `value()` are steps because they refresh the tree iterator. -/
def State.step (cmp : LevelDBComparator K) (stray : StrayPath K) (s : State K) :
    Op K → Option (State K)
  | .put key value => some (s.set key value false)
  | .remove key => some (s.set key [] true)
  | .seek target =>
    (s.iterator.seek cmp stray s.transaction target).map (State.mk s.transaction)
  | .seekToLast => (s.iterator.seekToLast cmp stray s.transaction).map (State.mk s.transaction)
  | .next => (s.iterator.next cmp stray s.transaction).map (State.mk s.transaction)
  | .prev => (s.iterator.prev cmp stray s.transaction).map (State.mk s.transaction)
  | .key | .value => some ⟨s.transaction, s.iterator.refreshed cmp stray s.transaction⟩

/-- The snapshot overlaid with the transaction's puts and removes. -/
def Transaction.view (t : Transaction K) (k : K) : Option Bytes :=
  match t.tree.get k with
  | some n => if n.deleted then none else some n.value
  | none => t.snapshot.get k

def Transaction.viewKeys (t : Transaction K) : Set K := {k | (t.view k).isSome}

/-! ### Reads and commit -/

def AVLTreeNode.stored (n : AVLTreeNode) : Option Bytes := if n.deleted then none else some n.value

/-- The effect of an entry of a write batch. -/
def writeEntry (db : K → Option Bytes) (e : K × AVLTreeNode) : K → Option Bytes :=
  Function.update db e.1 e.2.stored

namespace Transaction

/-- The tree after the calls of `set` with these nodes. -/
def treeOf (ws : List (K × AVLTreeNode)) : Table K AVLTreeNode :=
  ws.foldl (fun tree e => tree.set e.1 e.2) .empty

/-- `none` if the database fails. -/
def safeGet (t : Transaction K) (readable : Bool) (key : K) : Option (Option Bytes) :=
  match t.tree.get key with
  | some n => some n.stored
  | none => if readable then some (t.snapshot.get key) else none

/-- The batch has the nodes of the tree from the least key on. -/
def commit (t : Transaction K) (written : Bool) (db : K → Option Bytes) :
    Bool × (K → Option Bytes) :=
  if t.tree.entries = [] then (true, db)
  else if written then (true, t.tree.entries.foldl writeEntry db)
  else (false, db)

theorem foldl_writeEntry (t : Table K AVLTreeNode) (db : K → Option Bytes) (k : K) :
    t.entries.foldl writeEntry db k = ((t.get k).map (·.stored)).getD (db k) := by
  obtain ⟨es,hs⟩ := t
  simp only [Table.get]
  induction es generalizing db with
  | nil => rfl
  | cons e es ih =>
    obtain ⟨he,hs⟩ := List.pairwise_cons.mp hs
    rw [List.foldl_cons,ih _ hs,writeEntry]
    by_cases hk : e.1 = k
    · subst hk
      have hn : es.find? (fun a => decide (a.1 = e.1)) = none := by
        simpa using fun a b hb => (he (a,b) hb).ne'
      simp [hn]
    · simp [hk,Ne.symm hk]

/-- The tree sums up the writes, whatever they are applied to. -/
theorem foldl_treeOf (ws : List (K × AVLTreeNode)) (db : K → Option Bytes) :
    (treeOf ws).entries.foldl writeEntry db = ws.foldl writeEntry db := by
  induction ws using List.reverseRecOn with
  | nil => rfl
  | append_singleton ws e ih =>
    funext k
    rw [foldl_writeEntry,treeOf,List.foldl_append,List.foldl_append,← ih]
    simp only [List.foldl_cons,List.foldl_nil,Table.get_set,writeEntry]
    by_cases hk : k = e.1
    · simp [hk]
    · rw [if_neg hk,Function.update_of_ne hk,foldl_writeEntry,treeOf]

/-- A transaction reads its writes on top of the snapshot, and the commit makes them again, in
the same order, on whatever the database then holds. -/
theorem commit_replays (snapshot : Table K Bytes) (ws : List (K × AVLTreeNode))
    (db : K → Option Bytes) :
    (∀ k, safeGet ⟨snapshot, treeOf ws⟩ true k = some (ws.foldl writeEntry snapshot.get k)) ∧
      commit ⟨snapshot, treeOf ws⟩ true db = (true, ws.foldl writeEntry db) := by
  constructor
  · intro k
    rw [← foldl_treeOf,foldl_writeEntry,safeGet]
    cases (treeOf ws).get k <;> rfl
  · rw [← foldl_treeOf]
    by_cases he : (treeOf ws).entries = []
    · rw [commit,if_pos he,he]
      rfl
    · exact if_neg he

end Transaction

end

end QPlusWeb.LevelDBTransaction
