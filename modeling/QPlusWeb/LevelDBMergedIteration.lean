import QPlusWeb.LevelDBTransaction

/-!
# The merging iterator follows the merged view

Between calls the iterator stands on one key and its other half stands on the
next key of its own table in the direction of travel. A call moves both halves
past that key, the skipping loop discards shadowed and deleted entries, and
the nearer half becomes current. The loop invariant `Scanned` is stated once
for both directions.

Two reads of the source escape this. A reverse refresh that finds no tree key
at or above the database key leaves the tree half exhausted, so a later `prev`
misses every tree key below. A `put` on the key under the database half is not
seen by `value`. The main theorem excludes exactly the steps that read them.
-/
namespace QPlusWeb.LevelDBTransaction
open OrderedTable

section
variable {K : Type*} [LinearOrder K] {i : TreeIterator K} {t : Transaction K} {k : K}

theorem LevelDBComparator.compare_pos (cmp : LevelDBComparator K) (a b : K) :
    0 < cmp.compare a b ↔ b < a := by
  rw [← not_le,← not_le,le_iff_lt_or_eq,le_iff_lt_or_eq,cmp.compare_neg,cmp.compare_zero]

/-- A delete marker is stored for the key. -/
def Transaction.Deleted (t : Transaction K) (k : K) : Prop :=
  ∃ n, t.tree.get k = some n ∧ n.deleted = true

theorem Transaction.mem_viewKeys_of_mem (h : k ∈ t.tree.keys) : k ∈ t.viewKeys ↔ ¬t.Deleted k := by
  obtain ⟨n,hn⟩ := Option.isSome_iff_exists.mp (Table.get_isSome_iff.mpr h)
  simp only [viewKeys,view,Deleted,Set.mem_ofPred_eq,hn,Option.some.injEq,exists_eq_left']
  cases n.deleted <;> simp

theorem Transaction.mem_viewKeys_of_notMem
    (h : k ∉ t.tree.keys) : k ∈ t.viewKeys ↔ k ∈ t.snapshot.keys := by
  rw [← Table.get_eq_none_iff] at h
  simp only [viewKeys,view,Set.mem_ofPred_eq,h]
  exact Table.get_isSome_iff

namespace TreeIterator
variable {stray : StrayPath K} {tree : Table K AVLTreeNode}

/-- The path was recorded in this tree and the cached key is the node's. -/
structure Synced (tree : Table K AVLTreeNode) (i : TreeIterator K) : Prop where
  path : i.path = tree.keyList
  key : ∀ k, i.iterator = some k → i.key = some k

theorem settle_synced (i : TreeIterator K) (p : Option K) : (i.settle tree p).Synced tree := by
  refine ⟨rfl,?_⟩
  intro k hk
  simp only [settle] at hk ⊢
  simp [hk]

@[simp] theorem settle_iterator (i : TreeIterator K) (p : Option K) :
    (i.settle tree p).iterator = p := rfl

theorem Synced.keyIfValid (h : i.Synced tree) : i.keyIfValid = i.iterator := by
  unfold TreeIterator.keyIfValid isValid
  cases hi : i.iterator with
  | none => rfl
  | some k => simpa using h.key k hi

theorem seekToLast_synced (i : TreeIterator K) : (i.seekToLast tree).Synced tree :=
  settle_synced i _

theorem seek_synced (i : TreeIterator K) (k : K) : (i.seek tree k).Synced tree := by
  unfold seek
  split <;> exact settle_synced i _

/-- The equality probe followed by the strict probe is the ceiling. -/
theorem seek_iterator (i : TreeIterator K) (k : K) : (i.seek tree k).iterator = tree.ceiling k := by
  refine IsFirst.unique (d := .forward) ?_ (tree.ceiling_isFirst k)
  unfold seek
  by_cases hk : k ∈ tree.keys
  · rw [Table.equalKey_of_mem hk]
    exact ⟨⟨hk,le_rfl⟩,fun x hx => hx.2⟩
  · rw [Table.equalKey_of_notMem hk]
    refine (tree.after_isFirst k).congr ?_
    intro x
    have hne : x ∈ tree.keys → k ≠ x := fun hx h => hk (h ▸ hx)
    constructor
    · exact fun hx => ⟨hx.1,hx.2.le⟩
    · exact fun hx => ⟨hx.1,lt_of_le_of_ne hx.2 (hne hx.1)⟩

theorem Synced.move_eq (h : i.Synced tree) (d : Direction) :
    i.move stray tree d = i.settle tree (i.iterator.bind (tree.step d)) := by
  simp [move,h.path]

theorem Synced.node_eq (h : i.Synced tree) : i.node stray tree = i.iterator.bind tree.get := by
  simp [node,h.path]

theorem reset_of_mem (hk : i.key = some k) (hm : k ∈ tree.keys) :
    i.reset tree = ⟨some k,tree.keyList,some k⟩ := by
  simp [reset,hk,Table.equalKey_of_mem hm]

end TreeIterator

namespace TransactionIterator
variable {cmp : LevelDBComparator K} {stray : StrayPath K} {t : Transaction K} {B : Set K}
  {i : TransactionIterator K} {k : K}

/-- Both halves have passed only shadowed or deleted entries of the range `B`.
A database entry is passed only when the tree holds its key at or before the
tree position, and a tree entry only when it is a delete marker that the
database half has passed as well. -/
structure Scanned (t : Transaction K) (B : Set K) (i : TransactionIterator K) : Prop where
  synced : i.treeIterator.Synced t.tree
  tree_mem : ∀ k, i.treeIterator.iterator = some k → k ∈ t.tree.keys ∧ k ∈ B
  db_mem : ∀ k, i.dbIterator = some k → k ∈ t.snapshot.keys ∧ k ∈ B
  tree_passed : ∀ x ∈ t.tree.keys, x ∈ B → Before i.direction x i.treeIterator.iterator →
    t.Deleted x ∧ Before i.direction x i.dbIterator
  db_passed : ∀ x ∈ t.snapshot.keys, x ∈ B → Before i.direction x i.dbIterator →
    x ∈ t.tree.keys ∧ ∀ k, i.treeIterator.iterator = some k → ¬ Precedes i.direction k x

/-- Both halves stand on their first entry of the range. -/
structure Aligned (t : Transaction K) (B : Set K) (i : TransactionIterator K) : Prop where
  synced : i.treeIterator.Synced t.tree
  tree_first : IsFirst i.direction {x | x ∈ t.tree.keys ∧ x ∈ B} i.treeIterator.iterator
  db_first : IsFirst i.direction {x | x ∈ t.snapshot.keys ∧ x ∈ B} i.dbIterator

theorem Aligned.scanned (h : Aligned t B i) : Scanned t B i := by
  refine ⟨h.synced,fun _ => h.tree_first.mem,fun _ => h.db_first.mem,?_,?_⟩
  · intro x hx hB hb
    exact absurd hb (h.tree_first.not_before ⟨hx,hB⟩)
  · intro x hx hB hb
    exact absurd hb (h.db_first.not_before ⟨hx,hB⟩)

/-- Ranges a walk in direction `d` never leaves. -/
def Onward (d : Direction) (B : Set K) : Prop := ∀ x ∈ B, ∀ y, Precedes d x y → y ∈ B

/-- Only the database half moves: after a conflict it stands strictly behind the shared key. -/
theorem resolveConflict_cases (cmp : LevelDBComparator K) (h : Scanned t B i) :
    (∃ k, i.treeIterator.iterator = some k ∧ i.dbIterator = some k ∧
      i.resolveConflict cmp t = {i with dbIterator := t.snapshot.step i.direction k}) ∨
    (∀ k, i.treeIterator.iterator = some k → i.dbIterator ≠ some k) ∧ i.resolveConflict cmp t = i := by
  unfold resolveConflict
  rw [h.synced.keyIfValid]
  cases hT : i.treeIterator.iterator with
  | none => exact .inr ⟨nofun,rfl⟩
  | some a =>
    cases hD : i.dbIterator with
    | none => exact .inr ⟨fun _ _ => nofun,rfl⟩
    | some b =>
      simp only [cmp.compare_zero,Option.some.injEq]
      split_ifs with hab
      · exact .inl ⟨a,rfl,hab.symm,by simp [moveDb,hD,hab]⟩
      · exact .inr ⟨fun k ha hb => hab (ha.trans (Option.some.inj hb).symm),rfl⟩

theorem Scanned.resolveConflict (cmp : LevelDBComparator K) (hB : Onward i.direction B)
    (h : Scanned t B i) : Scanned t B (i.resolveConflict cmp t) := by
  obtain ⟨k,hT,hD,heq⟩ | ⟨-,heq⟩ := resolveConflict_cases cmp h
  · have hf := t.snapshot.step_isFirst i.direction k
    rw [heq]
    refine ⟨h.synced,h.tree_mem,?_,?_,?_⟩
    · intro x hx
      have hm := hf.mem hx
      exact ⟨hm.1,hB k (h.db_mem k hD).2 x hm.2⟩
    · intro x hx hxB hb
      exact ⟨(h.tree_passed x hx hxB hb).1,fun j hj => (hb k hT).trans (hf.mem hj).2⟩
    · intro x hx hxB hb
      rcases precedes_trichotomy i.direction x k with hlt | rfl | hgt
      · exact h.db_passed x hx hxB (by rw [hD]; simpa using hlt)
      · refine ⟨(h.tree_mem x hT).1,?_⟩
        intro j hj
        obtain rfl : x = j := by simpa [hT] using hj
        exact Precedes.irrefl _ _
      · exact absurd hb (hf.not_before ⟨hx,hgt⟩)
  · rwa [heq]

/-- After the conflict check the halves never share a key. -/
theorem resolveConflict_ne (h : Scanned t B i)
    (hT : (i.resolveConflict cmp t).treeIterator.iterator = some k) :
    (i.resolveConflict cmp t).dbIterator ≠ some k := by
  obtain ⟨j,hj,-,heq⟩ | ⟨hne,heq⟩ := resolveConflict_cases cmp h
  · rw [heq] at hT ⊢
    obtain rfl := Option.some.inj (hj.symm.trans hT)
    intro hs
    exact Precedes.irrefl _ _ ((t.snapshot.step_isFirst i.direction j).mem hs).2
  · rw [heq] at hT ⊢
    exact hne k hT

theorem skipsDeleteMarker_iff (h : Scanned t B i) : i.skipsDeleteMarker cmp stray t ↔
      ∃ k, i.treeIterator.iterator = some k ∧ t.Deleted k ∧ Before i.direction k i.dbIterator := by
  unfold skipsDeleteMarker TreeIterator.isDeleted treeIteratorIsLower treeIteratorIsHigher
  rw [h.synced.node_eq,h.synced.keyIfValid]
  cases hT : i.treeIterator.iterator with
  | none => simp
  | some k =>
    obtain ⟨n,hn⟩ := Option.isSome_iff_exists.mp (Table.get_isSome_iff.mpr (h.tree_mem k hT).1)
    have hd : t.Deleted k ↔ n.deleted := by simp [Transaction.Deleted,hn]
    simp only [TreeIterator.isValid,hT,Option.bind_some,hn,Option.some.injEq,exists_eq_left',hd]
    cases i.direction <;> cases hD : i.dbIterator <;>
      simp [cmp.compare_neg,cmp.compare_pos]

theorem Scanned.moveTree (stray : StrayPath K) (hB : Onward i.direction B) (h : Scanned t B i)
    (hT : i.treeIterator.iterator = some k) (hdel : t.Deleted k)
    (hb : Before i.direction k i.dbIterator) :
    Scanned t B (i.moveTree stray t i.direction) := by
  have hm : (i.moveTree stray t i.direction).treeIterator =
      i.treeIterator.settle t.tree (t.tree.step i.direction k) := by
    simp [TransactionIterator.moveTree,h.synced.move_eq,hT]
  have hf := t.tree.step_isFirst i.direction k
  have hkB := (h.tree_mem k hT).2
  have hd : (i.moveTree stray t i.direction).direction = i.direction := rfl
  have hdb : (i.moveTree stray t i.direction).dbIterator = i.dbIterator := rfl
  refine ⟨hm ▸ TreeIterator.settle_synced _ _,?_,h.db_mem,?_,?_⟩
  · intro x hx
    rw [hm,TreeIterator.settle_iterator] at hx
    have hmem := hf.mem hx
    exact ⟨hmem.1,hB k hkB x hmem.2⟩
  · intro x hx hxB hbx
    rw [hm,hd,TreeIterator.settle_iterator] at hbx
    rcases precedes_trichotomy i.direction x k with hlt | rfl | hgt
    · exact h.tree_passed x hx hxB (by rw [hT]; simpa using hlt)
    · exact ⟨hdel,hb⟩
    · exact absurd hbx (hf.not_before ⟨hx,hgt⟩)
  · intro x hx hxB hbx
    rw [hd,hm,TreeIterator.settle_iterator]
    have hp := h.db_passed x hx hxB hbx
    refine ⟨hp.1,?_⟩
    intro j hj hjx
    exact hp.2 k hT ((hf.mem hj).2.trans hjx)

/-- The tree keys the skipping loop may still visit. -/
def pending (t : Transaction K) (i : TransactionIterator K) : Finset K :=
  t.tree.keyList.toFinset.filter (fun y => ¬ Before i.direction y i.treeIterator.iterator)

theorem pending_card_le (i : TransactionIterator K) : (pending t i).card < loopFuel t := by
  have h₁ := Finset.card_filter_le t.tree.keyList.toFinset
    (fun y => ¬Before i.direction y i.treeIterator.iterator)
  have h₂ := List.toFinset_card_le t.tree.keyList
  have h₃ : t.tree.keyList.length = t.tree.entries.length := by simp [Table.keyList]
  unfold pending loopFuel
  omega

theorem pending_moveTree (stray : StrayPath K) (h : Scanned t B i)
    (hT : i.treeIterator.iterator = some k) :
    (pending t (i.moveTree stray t i.direction)).card < (pending t i).card := by
  have hm : (i.moveTree stray t i.direction).treeIterator.iterator = t.tree.step i.direction k := by
    simp [TransactionIterator.moveTree,h.synced.move_eq,hT]
  have hd : (i.moveTree stray t i.direction).direction = i.direction := rfl
  have hf := t.tree.step_isFirst i.direction k
  have hkt : k ∈ t.tree.keyList := Table.mem_keys.mp (h.tree_mem k hT).1
  apply Finset.card_lt_card
  refine ⟨?_,?_⟩
  · intro y hy
    simp only [pending,Finset.mem_filter,List.mem_toFinset,hm,hd] at hy ⊢
    refine ⟨hy.1,?_⟩
    intro hb
    refine hy.2 ?_
    intro j hj
    rw [hT,before_some] at hb
    exact hb.trans (hf.mem hj).2
  · intro hs
    have hk : k ∈ pending t i := by
      simp only [pending,Finset.mem_filter,List.mem_toFinset,hT,before_some]
      exact ⟨hkt,Precedes.irrefl _ _⟩
    have hk' := hs hk
    simp only [pending,Finset.mem_filter,hm,hd] at hk'
    refine hk'.2 ?_
    intro j hj
    exact (hf.mem hj).2

/-- What holds when the loop stops. -/
structure Resolved (t : Transaction K) (B : Set K) (i : TransactionIterator K) : Prop
    extends Scanned t B i where
  apart : ∀ k, i.treeIterator.iterator = some k → i.dbIterator ≠ some k
  live : ∀ k, i.treeIterator.iterator = some k → t.Deleted k →
    ¬ Before i.direction k i.dbIterator

theorem handleConflictsAndDeletes_resolved (cmp : LevelDBComparator K) (stray : StrayPath K)
    (fuel : ℕ) (i : TransactionIterator K) (hB : Onward i.direction B) (h : Scanned t B i)
    (hf : (pending t i).card < fuel) :
    ∃ j, handleConflictsAndDeletes cmp stray t fuel i = some j ∧ Resolved t B j ∧
      j.direction = i.direction := by
  induction fuel generalizing i with
  | zero => omega
  | succ fuel ih =>
    have hs := h.resolveConflict cmp hB
    have hdir : (i.resolveConflict cmp t).direction = i.direction := by
      obtain ⟨_,-,-,heq⟩ | ⟨-,heq⟩ := resolveConflict_cases cmp h <;> rw [heq]
    have hp : pending t (i.resolveConflict cmp t) = pending t i := by
      obtain ⟨_,-,-,heq⟩ | ⟨-,heq⟩ := resolveConflict_cases cmp h <;> simp [heq,pending]
    simp only [handleConflictsAndDeletes]
    split_ifs with hskip
    · obtain ⟨k,hT,hdel,hb⟩ := (skipsDeleteMarker_iff hs).mp hskip
      have hB' : Onward (i.resolveConflict cmp t).direction B := hdir ▸ hB
      have hlt := pending_moveTree stray hs hT
      rw [hp] at hlt
      obtain ⟨j,hj,hr,hd⟩ := ih ((i.resolveConflict cmp t).moveTree stray t _)
        hB' (hs.moveTree stray hB' hT hdel hb) (by omega)
      exact ⟨j,hj,hr,hd.trans hdir⟩
    · refine ⟨_,rfl,⟨hs,?_,?_⟩,hdir⟩
      · intro k hT
        exact resolveConflict_ne h hT
      · intro k hT hdel hb
        exact hskip ((skipsDeleteMarker_iff hs).mpr ⟨k,hT,hdel,hb⟩)

/-- The final choice of the current half, in the direction of travel. -/
def setCurrent (cmp : LevelDBComparator K) : Direction → TransactionIterator K →
    TransactionIterator K
  | .forward => setCurrentIteratorToSmallestKey cmp
  | .reverse => setCurrentIteratorToLargestKey cmp

theorem setCurrent_cases (cmp : LevelDBComparator K) (h : i.treeIterator.Synced t.tree)
    (hne : ∀ k, i.treeIterator.iterator = some k → i.dbIterator ≠ some k) (d : Direction) :
    (i.treeIterator.iterator = none ∧ i.dbIterator = none ∧
      setCurrent cmp d i = {i with current := none}) ∨
    (∃ k, i.treeIterator.iterator = some k ∧ Before d k i.dbIterator ∧
      setCurrent cmp d i = {i with current := some .tree}) ∨
    (∃ k, i.dbIterator = some k ∧ Before d k i.treeIterator.iterator ∧
      setCurrent cmp d i = {i with current := some .db}) := by
  have hk := h.keyIfValid
  have hv : i.treeIterator.isValid = i.treeIterator.iterator.isSome := rfl
  cases hT : i.treeIterator.iterator with
  | none =>
    cases hD : i.dbIterator with
    | none =>
      refine Or.inl ⟨rfl,rfl,?_⟩
      cases d <;> simp [setCurrent,setCurrentIteratorToSmallestKey,
        setCurrentIteratorToLargestKey,hv,hT,hD]
    | some b =>
      refine Or.inr (Or.inr ⟨b,rfl,before_none d b,?_⟩)
      cases d <;> simp [setCurrent,setCurrentIteratorToSmallestKey,
        setCurrentIteratorToLargestKey,hk,hT,hD]
  | some a =>
    cases hD : i.dbIterator with
    | none =>
      refine Or.inr (Or.inl ⟨a,rfl,before_none d a,?_⟩)
      cases d <;> simp [setCurrent,setCurrentIteratorToSmallestKey,
        setCurrentIteratorToLargestKey,hv,hT,hD]
    | some b =>
      have hs : setCurrent cmp d i =
          {i with current := if Precedes d b a then some .db else some .tree} := by
        cases d <;> simp [setCurrent,setCurrentIteratorToSmallestKey,
          setCurrentIteratorToLargestKey,hk,hv,hT,hD,cmp.compare_neg,
          cmp.compare_pos]
      by_cases hba : Precedes d b a
      · exact Or.inr (Or.inr ⟨b,rfl,by simpa using hba,by rw [hs,if_pos hba,hD]⟩)
      · have hab : a ≠ b := fun he => hne a hT (he ▸ hD)
        have hlt : Precedes d a b := by
          have := precedes_trichotomy d a b
          tauto
        exact Or.inr (Or.inl ⟨a,rfl,by simpa using hlt,by rw [hs,if_neg hba,hD]⟩)

/-- The iterator stands on `k`: one half is there and, unless the tree has
changed, the other half is on its next key in the direction of travel. -/
inductive Standing (t : Transaction K) (i : TransactionIterator K) (k : K) : Prop
  | tree (current : i.current = some .tree) (iterator : i.treeIterator.iterator = some k)
      (key : i.treeIterator.key = some k) (mem : k ∈ t.tree.keys)
      (path : i.treeChanged = false → i.treeIterator.path = t.tree.keyList)
      (other : i.dbIterator = t.snapshot.step i.direction k)
  | db (current : i.current = some .db) (iterator : i.dbIterator = some k)
      (mem : k ∈ t.snapshot.keys)
      (other : i.treeChanged = false → i.treeIterator.Synced t.tree ∧
        i.treeIterator.iterator = t.tree.step i.direction k)

def Inv (t : Transaction K) (i : TransactionIterator K) : Prop :=
  i.current = none ∨ ∃ k, Standing t i k

theorem Standing.currentKey (h : Standing t i k) : i.currentKey = some k := by
  cases h with
  | tree hc hi hk =>
    simp [TransactionIterator.currentKey,hc,TreeIterator.keyIfValid,TreeIterator.isValid,hi,hk]
  | db hc hi => simp [TransactionIterator.currentKey,hc,hi]

/-- What both halves have passed is not in the view. -/
theorem Scanned.notMem_viewKeys (h : Scanned t B i) (hkB : k ∈ B)
    (hT : Before i.direction k i.treeIterator.iterator) (hD : Before i.direction k i.dbIterator) :
    k ∉ t.viewKeys := by
  intro hk
  by_cases hkt : k ∈ t.tree.keys
  · exact (Transaction.mem_viewKeys_of_mem hkt).mp hk (h.tree_passed k hkt hkB hT).1
  · have hks := (Transaction.mem_viewKeys_of_notMem hkt).mp hk
    exact hkt (h.db_passed k hks hkB hD).1

/-- A live tree key chosen as current is the first key of the merged view. -/
theorem Resolved.first_tree (h : Resolved t B i)
    (hT : i.treeIterator.iterator = some k) (hb : Before i.direction k i.dbIterator) :
    IsFirst i.direction {x | x ∈ t.viewKeys ∧ x ∈ B} (some k) := by
  have hk := h.tree_mem k hT
  rw [isFirst_iff]
  refine ⟨?_,?_⟩
  · rintro x ⟨rfl⟩
    exact ⟨(Transaction.mem_viewKeys_of_mem hk.1).mpr fun hd => h.live k hT hd hb,hk.2⟩
  · rintro x ⟨hx,hxB⟩ hxk
    refine h.notMem_viewKeys hxB (hT ▸ hxk) (fun j hj => ?_) hx
    exact (hxk k rfl).trans (hb j hj)

/-- A database key chosen as current is the first key of the merged view. -/
theorem Resolved.first_db (h : Resolved t B i)
    (hD : i.dbIterator = some k) (hb : Before i.direction k i.treeIterator.iterator) :
    IsFirst i.direction {x | x ∈ t.viewKeys ∧ x ∈ B} (some k) := by
  have hk := h.db_mem k hD
  have hkt : k ∉ t.tree.keys := by
    intro hm
    have hp := (h.tree_passed k hm hk.2 hb).2
    exact Precedes.irrefl _ _ (hp k hD)
  rw [isFirst_iff]
  refine ⟨?_,?_⟩
  · rintro x ⟨rfl⟩
    exact ⟨(Transaction.mem_viewKeys_of_notMem hkt).mpr hk.1,hk.2⟩
  · rintro x ⟨hx,hxB⟩ hxk
    refine h.notMem_viewKeys hxB (fun j hj => ?_) (hD ▸ hxk) hx
    exact (hxk k rfl).trans (hb j hj)

/-- The half left behind stands on its next key after the chosen one. -/
theorem Resolved.other_db (hB : Onward i.direction B)
    (h : Resolved t B i) (hT : i.treeIterator.iterator = some k)
    (hb : Before i.direction k i.dbIterator) :
    i.dbIterator = t.snapshot.step i.direction k := by
  refine IsFirst.unique ?_ (t.snapshot.step_isFirst i.direction k)
  rw [isFirst_iff]
  refine ⟨fun x hx => ⟨(h.db_mem x hx).1,hb x hx⟩,?_⟩
  rintro x ⟨hx,hkx⟩ hxb
  exact (h.db_passed x hx (hB k (h.tree_mem k hT).2 x hkx) hxb).2 k hT hkx

theorem Resolved.other_tree (hB : Onward i.direction B)
    (h : Resolved t B i) (hD : i.dbIterator = some k)
    (hb : Before i.direction k i.treeIterator.iterator) :
    i.treeIterator.iterator = t.tree.step i.direction k := by
  refine IsFirst.unique ?_ (t.tree.step_isFirst i.direction k)
  rw [isFirst_iff]
  refine ⟨fun x hx => ⟨(h.tree_mem x hx).1,hb x hx⟩,?_⟩
  rintro x ⟨hx,hkx⟩ hxb
  have hp := (h.tree_passed x hx (hB k (h.db_mem k hD).2 x hkx) hxb).2
  exact hkx.asymm (hp k hD)

/-- Nothing of the view is left in the range when both halves are exhausted. -/
theorem Resolved.first_none (h : Resolved t B i)
    (hT : i.treeIterator.iterator = none) (hD : i.dbIterator = none) :
    IsFirst i.direction {x | x ∈ t.viewKeys ∧ x ∈ B} none := by
  rw [isFirst_iff]
  refine ⟨by simp,?_⟩
  rintro x ⟨hx,hxB⟩ he
  exact h.notMem_viewKeys hxB (hT ▸ he) (hD ▸ he) hx

/-- Choosing the nearer half lands on the first key of the view in the range
and leaves the iterator standing there. -/
theorem Resolved.setCurrent (cmp : LevelDBComparator K) (hB : Onward i.direction B)
    (h : Resolved t B i) :
    IsFirst i.direction {x | x ∈ t.viewKeys ∧ x ∈ B} (setCurrent cmp i.direction i).currentKey ∧
      Inv t (setCurrent cmp i.direction i) := by
  obtain ⟨hT,hD,hset⟩ | ⟨k,hT,hb,hset⟩ | ⟨k,hD,hb,hset⟩ :=
    setCurrent_cases cmp h.synced h.apart i.direction
  · rw [hset]
    exact ⟨h.first_none hT hD,Or.inl rfl⟩
  · have hn := h.other_db hB hT hb
    have hs : Standing t {i with current := some .tree} k :=
      .tree rfl hT (h.synced.key k hT) (h.tree_mem k hT).1 (fun _ => h.synced.path) hn
    rw [hset,hs.currentKey]
    exact ⟨h.first_tree hT hb,Or.inr ⟨k,hs⟩⟩
  · have hn := h.other_tree hB hD hb
    have hs : Standing t {i with current := some .db} k :=
      .db rfl hD (h.db_mem k hD).1 (fun _ => ⟨h.synced,hn⟩)
    rw [hset,hs.currentKey]
    exact ⟨h.first_db hD hb,Or.inr ⟨k,hs⟩⟩

/-- Skipping from aligned halves and choosing the nearer one. -/
theorem Aligned.land (cmp : LevelDBComparator K) (stray : StrayPath K) (h : Aligned t B i)
    (hB : Onward i.direction B) :
    ∃ j, (handleConflictsAndDeletes cmp stray t (loopFuel t) i).map
        (setCurrent cmp i.direction) = some j ∧
      IsFirst i.direction {x | x ∈ t.viewKeys ∧ x ∈ B} j.currentKey ∧ Inv t j := by
  obtain ⟨j,hj,hr,hd⟩ := handleConflictsAndDeletes_resolved cmp stray (loopFuel t)
    i hB h.scanned (pending_card_le i)
  have hl := hr.setCurrent cmp (hd ▸ hB)
  rw [hd] at hl
  exact ⟨_,by rw [hj]; rfl,hl⟩

end TransactionIterator

end

end QPlusWeb.LevelDBTransaction
