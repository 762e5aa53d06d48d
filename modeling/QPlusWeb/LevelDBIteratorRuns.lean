import QPlusWeb.LevelDBMergedIteration

/-!
# Whole runs of writes and iterator steps

Every call first brings the iterator back to a standing position, turns it if
needed, moves the current half and lands. The step specification `Meets` is
the contract of each call against the merged view at the time of the call.

`MissesTree` is the state in which a reverse refresh loses the tree half, and
`Overwritten` the state in which `value` reads the snapshot under a newer put.
Runs that take no `prev`, `key` or `value` step there satisfy the contract at
every step; the two runs at the end show what happens otherwise.
-/
namespace QPlusWeb.LevelDBTransaction
open OrderedTable Option TransactionIterator

section
variable {K : Type*} [LinearOrder K] {s : State K} {d : Direction} (i : TransactionIterator K)

namespace TransactionIterator
variable (cmp : LevelDBComparator K) (stray : StrayPath K) {t : Transaction K}
  {i : TransactionIterator K} {s : State K} {k : K}

/-- A refresh in this state seeks the tree to the database key, finds nothing
and does not go to the last tree key although there are keys below. -/
def MissesTree (t : Transaction K) (i : TransactionIterator K) : Prop :=
  i.treeChanged = true ∧ i.current = some .db ∧ i.direction = .reverse ∧
    ∃ k, i.dbIterator = some k ∧ t.tree.ceiling k = none ∧ t.tree.before k ≠ none

/-- The database half is current and the transaction has since written its key. -/
def Overwritten (t : Transaction K) (i : TransactionIterator K) : Prop :=
  i.current = some .db ∧ ∃ k, i.dbIterator = some k ∧ k ∈ t.tree.keys

/-- The current half is on `k` and the tree half can be used; the half that is
not current may be anywhere. -/
inductive Based (t : Transaction K) (i : TransactionIterator K) (k : K) : Prop
  | tree (current : i.current = some .tree) (synced : i.treeIterator.Synced t.tree)
      (iterator : i.treeIterator.iterator = some k) (mem : k ∈ t.tree.keys)
  | db (current : i.current = some .db) (synced : i.treeIterator.Synced t.tree)
      (iterator : i.dbIterator = some k) (mem : k ∈ t.snapshot.keys)

section
variable (k : K) (i : TreeIterator K)

theorem seekTreeAfter_spec : (seekTreeAfter cmp stray t k i).Synced t.tree ∧
      (seekTreeAfter cmp stray t k i).iterator = t.tree.after k := by
  have hs : (i.seek t.tree k).Synced t.tree := i.seek_synced k
  have hspec := t.tree.ceiling_then_after k
  simp only [seekTreeAfter,hs.keyIfValid,TreeIterator.seek_iterator,cmp.compare_zero]
  cases hc : t.tree.ceiling k with
  | none =>
    rw [hc] at hspec
    exact ⟨hs,by rw [TreeIterator.seek_iterator,hc]; exact hspec⟩
  | some b =>
    rw [hc] at hspec
    simp only at hspec ⊢
    split_ifs with hb
    · rw [hs.move_eq]
      refine ⟨TreeIterator.settle_synced _ _,?_⟩
      rw [if_pos hb] at hspec
      rw [TreeIterator.settle_iterator,TreeIterator.seek_iterator,hc]
      exact hspec
    · rw [if_neg hb] at hspec
      exact ⟨hs,by rw [TreeIterator.seek_iterator,hc]; exact hspec⟩

/-- Stepping back from the seek position when the seek found a key. -/
theorem seek_then_prev_spec (hv : t.tree.ceiling k ≠ none) :
    ((i.seek t.tree k).move stray t.tree .reverse).Synced t.tree ∧
      ((i.seek t.tree k).move stray t.tree .reverse).iterator = t.tree.before k := by
  have hs : (i.seek t.tree k).Synced t.tree := i.seek_synced k
  have hspec := t.tree.ceiling_then_before k
  obtain ⟨b,hc⟩ := ne_none_iff_exists'.mp hv
  rw [hc] at hspec
  rw [hs.move_eq]
  refine ⟨TreeIterator.settle_synced _ _,?_⟩
  rw [TreeIterator.settle_iterator,TreeIterator.seek_iterator,hc]
  exact hspec

theorem seekTreeBefore_spec : (seekTreeBefore stray t k i).Synced t.tree ∧
      (seekTreeBefore stray t k i).iterator = t.tree.before k := by
  have hs := t.tree.ceiling_then_before k
  simp only [seekTreeBefore,TreeIterator.isValid,TreeIterator.seek_iterator]
  split_ifs with hv
  · exact seek_then_prev_spec stray k i (by simpa [isSome_iff_ne_none] using hv)
  · rw [not_isSome_iff_eq_none] at hv
    rw [hv] at hs
    exact ⟨TreeIterator.seekToLast_synced _,hs⟩

end

theorem seekDbAfter_eq (k : K) : seekDbAfter cmp t k = t.snapshot.step .forward k := by
  simp only [seekDbAfter,cmp.compare_zero]
  exact t.snapshot.ceiling_then_after k

theorem seekDbBefore_eq (k : K) : seekDbBefore t k = t.snapshot.step .reverse k :=
  t.snapshot.ceiling_then_before k

@[simp] theorem refreshed_frame : (i.refreshed cmp stray t).current = i.current ∧
      (i.refreshed cmp stray t).direction = i.direction ∧
      (i.refreshed cmp stray t).dbIterator = i.dbIterator ∧
      (i.refreshed cmp stray t).treeChanged = false := by
  unfold refreshed
  split_ifs with hc
  · exact ⟨rfl,rfl,rfl,rfl⟩
  · exact ⟨rfl,rfl,rfl,by simpa using hc⟩

section
variable (h : Standing t i k)
include h

/-- A pending refresh of a standing iterator, half by half. -/
theorem Standing.refreshed_treeIterator (hc : i.treeChanged) :
    (i.refreshed cmp stray t).treeIterator =
      match i.current, i.direction with
      | some .tree, _ => ⟨some k,t.tree.keyList,some k⟩
      | _, .forward => seekTreeAfter cmp stray t k i.treeIterator
      | _, .reverse =>
        let j := i.treeIterator.seek t.tree k
        if j.isValid then j.move stray t.tree .reverse else j := by
  cases h with
  | tree hcur hi hk hm =>
    simp [refreshed,hc,refreshTreeIterator,TreeIterator.isValid,hi,hcur,
      TreeIterator.reset_of_mem hk hm]
  | db hcur hi =>
    cases hd : i.direction <;> simp [refreshed,hc,refreshTreeIterator,hi,hcur,hd]

theorem Standing.based : Based t (i.refreshed cmp stray t) k := by
  cases hc : i.treeChanged with
  | false =>
    have hr : i.refreshed cmp stray t = i := by simp [refreshed,hc]
    rw [hr]
    cases h with
    | tree hcur hi hk hm hp =>
      refine .tree hcur ⟨hp hc,?_⟩ hi hm
      intro j hj
      rw [hk,← hi,hj]
    | db hcur hi hm ho => exact .db hcur (ho hc).1 hi hm
  | true =>
    have ht := h.refreshed_treeIterator cmp stray hc
    cases h with
    | tree hcur hi hk hm =>
      rw [hcur] at ht
      refine .tree (by simpa using hcur) ?_ (by rw [ht]) hm
      rw [ht]
      exact ⟨rfl,fun _ hj => hj⟩
    | db hcur hi hm =>
      refine .db (by simpa using hcur) ?_ (by simpa using hi) hm
      rw [ht,hcur]
      cases i.direction with
      | forward => exact (seekTreeAfter_spec cmp stray k _).1
      | reverse =>
        have hs : (i.treeIterator.seek t.tree k).Synced t.tree := i.treeIterator.seek_synced k
        simp only
        split_ifs
        · rw [hs.move_eq]
          exact TreeIterator.settle_synced _ _
        · exact hs

/-- Outside the losing state a refresh restores the standing position. -/
theorem Standing.refresh (hmiss : ¬MissesTree t i) : Standing t (i.refreshed cmp stray t) k := by
  cases hc : i.treeChanged with
  | false =>
    have hr : i.refreshed cmp stray t = i := by simp [refreshed,hc]
    rw [hr]
    exact h
  | true =>
    have ht := h.refreshed_treeIterator cmp stray hc
    cases h with
    | tree hcur hi hk hm hp ho =>
      rw [hcur] at ht
      exact .tree (by simpa using hcur) (by rw [ht]) (by rw [ht]) hm (fun _ => by rw [ht])
        (by simpa using ho)
    | db hcur hi hm =>
      refine .db (by simpa using hcur) (by simpa using hi) hm ?_
      intro _
      rw [ht,hcur,(refreshed_frame ..).2.1]
      cases hd : i.direction with
      | forward => exact seekTreeAfter_spec cmp stray k _
      | reverse =>
        simp only [TreeIterator.isValid,TreeIterator.seek_iterator]
        split_ifs with hv
        · exact seek_then_prev_spec stray k _ (by simpa [isSome_iff_ne_none] using hv)
        · rw [not_isSome_iff_eq_none] at hv
          have hb : t.tree.before k = none := by
            by_contra hb
            exact hmiss ⟨hc,hcur,hd,k,hi,hv,hb⟩
          refine ⟨i.treeIterator.seek_synced k,?_⟩
          rw [TreeIterator.seek_iterator,hv]
          exact hb.symm

theorem Standing.key : i.key cmp stray t = some k := by
  unfold TransactionIterator.key
  cases h.based cmp stray with
  | tree hc hs hi => simp only [TransactionIterator.currentKey,hc,hs.keyIfValid,hi]
  | db hc hs hi => simp only [TransactionIterator.currentKey,hc,hi]

end

theorem key_of_invalid (h : i.current = none) : i.key cmp stray t = none := by
  simp [key,currentKey,h]

/-- The observable position is the one the landing set. -/
theorem Inv.key (h : Inv t i) : i.key cmp stray t = i.currentKey := by
  rcases h with h | ⟨k,h⟩
  · rw [key_of_invalid cmp stray h]
    simp [TransactionIterator.currentKey,h]
  · rw [h.key cmp stray,h.currentKey]

theorem Based.turnForward (h : Based t i k) (hc : i.treeChanged = false) :
    Standing t (i.turnForward cmp stray t) k ∧ (i.turnForward cmp stray t).direction = .forward ∧
      (i.turnForward cmp stray t).treeChanged = false := by
  cases h with
  | tree hcur hs hi hm =>
    simp only [TransactionIterator.turnForward,currentKey,hcur,hs.keyIfValid,hi,seekDbAfter_eq]
    exact ⟨.tree rfl hi (hs.key k hi) hm (fun _ => hs.path) rfl,trivial,hc⟩
  | db hcur hs hi hm =>
    simp only [TransactionIterator.turnForward,currentKey,hcur,hi]
    exact ⟨.db rfl rfl hm (fun _ => seekTreeAfter_spec cmp stray k _),trivial,hc⟩

theorem Based.turnReverse (h : Based t i k) (hc : i.treeChanged = false) :
    Standing t (i.turnReverse stray t) k ∧ (i.turnReverse stray t).direction = .reverse ∧
      (i.turnReverse stray t).treeChanged = false := by
  cases h with
  | tree hcur hs hi hm =>
    simp only [TransactionIterator.turnReverse,currentKey,hcur,hs.keyIfValid,hi,seekDbBefore_eq]
    exact ⟨.tree rfl hi (hs.key k hi) hm (fun _ => hs.path) rfl,trivial,hc⟩
  | db hcur hs hi hm =>
    simp only [TransactionIterator.turnReverse,currentKey,hcur,hi]
    exact ⟨.db rfl rfl hm (fun _ => seekTreeBefore_spec stray k _),trivial,hc⟩

/-- Moving the current half off `k` puts both halves just past `k`. -/
theorem Standing.moveCurrent (h : Standing t i k) (hc : i.treeChanged = false)
    (hd : i.direction = d) :
    Aligned t {x | Precedes d k x} (i.moveCurrent stray t d) ∧
      (i.moveCurrent stray t d).direction = d := by
  cases h with
  | tree hcur hi hk hm hp ho =>
    have hs : i.treeIterator.Synced t.tree := ⟨hp hc,fun j hj => by rw [hk,← hi,hj]⟩
    simp only [TransactionIterator.moveCurrent,hcur,moveTree,hs.move_eq,hi,bind_some]
    subst hd
    exact ⟨⟨TreeIterator.settle_synced _ _,t.tree.step_isFirst _ k,
      ho ▸ t.snapshot.step_isFirst _ k⟩,rfl⟩
  | db hcur hi hm ho =>
    simp only [TransactionIterator.moveCurrent,hcur,moveDb,hi,bind_some]
    subst hd
    exact ⟨⟨(ho hc).1,(ho hc).2 ▸ t.tree.step_isFirst _ k,t.snapshot.step_isFirst _ k⟩,rfl⟩

theorem onward_precedes (d : Direction) (k : K) : Onward d {x | Precedes d k x} :=
  fun _ hx _ hxy => hx.trans hxy

theorem seek_lands (target : K) (i : TransactionIterator K) :
    ∃ j, i.seek cmp stray t target = some j ∧
      IsFirst .forward {x | x ∈ t.viewKeys ∧ target ≤ x} j.currentKey ∧ Inv t j := by
  have hal : Aligned t {x | target ≤ x} {i with
      treeIterator := i.treeIterator.seek t.tree target
      dbIterator := t.snapshot.ceiling target
      direction := .forward} := by
    refine ⟨i.treeIterator.seek_synced target,?_,t.snapshot.ceiling_isFirst target⟩
    simp only [TreeIterator.seek_iterator]
    exact t.tree.ceiling_isFirst target
  exact hal.land cmp stray fun _ hx _ hxy => le_trans hx (le_of_lt hxy)

theorem seekToLast_lands : ∃ j, i.seekToLast cmp stray t = some j ∧
      IsFirst .reverse t.viewKeys j.currentKey ∧ Inv t j := by
  have hal : Aligned t Set.univ {i with
      treeIterator := i.treeIterator.seekToLast t.tree
      dbIterator := t.snapshot.last
      direction := .reverse} :=
    ⟨i.treeIterator.seekToLast_synced,t.tree.last_isFirst.congr (by simp),
      t.snapshot.last_isFirst.congr (by simp)⟩
  obtain ⟨j,hj,hf,hi⟩ := hal.land cmp stray fun _ _ _ _ => trivial
  exact ⟨j,hj,hf.congr (by simp),hi⟩

section
variable (h : Standing t i k)
include h

/-- From a half that is ready both halves move past the key and land on the next one of the view. -/
theorem Standing.move_lands (hd : i.direction = d) (hc : i.treeChanged = false) :
    ∃ j, (handleConflictsAndDeletes cmp stray t (loopFuel t) (i.moveCurrent stray t d)).map
        (setCurrent cmp d) = some j ∧
      IsFirst d {x | x ∈ t.viewKeys ∧ Precedes d k x} j.currentKey ∧ Inv t j := by
  obtain ⟨hal,hdir⟩ := h.moveCurrent stray hc hd
  have hl := hal.land cmp stray (by rw [hdir]; exact onward_precedes d k)
  rwa [hdir] at hl

/-- `next` needs no condition: a turn repositions the half that was lost. -/
theorem Standing.next_lands : ∃ j, i.next cmp stray t = some j ∧
      IsFirst .forward {x | x ∈ t.viewKeys ∧ k < x} j.currentKey ∧ Inv t j := by
  simp only [next]
  split_ifs with hd
  · obtain ⟨hs,hd,hc⟩ := (h.based cmp stray).turnForward cmp stray (by simp)
    exact hs.move_lands cmp stray hd hc
  · have hd' : i.direction = .forward := by simpa using hd
    have hs : Standing t (i.refreshed cmp stray t) k := by
      refine h.refresh cmp stray ?_
      rintro ⟨-,-,hr,-⟩
      rw [hd'] at hr
      exact Direction.noConfusion hr
    exact hs.move_lands cmp stray (by simpa using hd') (by simp)

theorem Standing.prev_lands (hm : ¬MissesTree t i) : ∃ j, i.prev cmp stray t = some j ∧
      IsFirst .reverse {x | x ∈ t.viewKeys ∧ x < k} j.currentKey ∧ Inv t j := by
  simp only [prev]
  split_ifs with hd
  · obtain ⟨hs,hd,hc⟩ := (h.based cmp stray).turnReverse stray (by simp)
    exact hs.move_lands cmp stray hd hc
  · exact (h.refresh cmp stray hm).move_lands cmp stray (by simpa using hd) (by simp)

theorem Standing.value_eq {v : Bytes} (ho : ¬Overwritten t i) (hv : t.view k = some v) :
    i.value cmp stray t = some v := by
  unfold value
  cases hb : h.based cmp stray with
  | tree hc hs hi hm =>
    obtain ⟨n,hn⟩ := isSome_iff_exists.mp (Table.get_isSome_iff.mpr hm)
    simp only [hc,TreeIterator.value,hs.node_eq,hi,bind_some,hn,map_some]
    rw [Transaction.view,hn] at hv
    simp only at hv
    split_ifs at hv
    exact hv
  | db hc hs hi hm =>
    have hkt : k ∉ t.tree.keys := fun hkt =>
      ho ⟨by simpa using hc,k,by simpa using hi,hkt⟩
    rw [Transaction.view,Table.get_eq_none_iff.mpr hkt] at hv
    simp only [hc,hi]
    exact hv

end

theorem Standing.set (h : Standing s.transaction s.iterator k)
    (key : K) (value : Bytes) (deleted : Bool) :
    Standing (s.set key value deleted).transaction (s.set key value deleted).iterator k := by
  have hkeys : ∀ x, x ∈ s.transaction.tree.keys →
      x ∈ (s.set key value deleted).transaction.tree.keys := fun x hx =>
    Table.mem_keys_set.mpr (Or.inr hx)
  -- An unchanged flag means the node existed, so the key sequence is the old one.
  have hold : (s.set key value deleted).iterator.treeChanged = false →
      s.iterator.treeChanged = false ∧ key ∈ s.transaction.tree.keys := by
    intro hc
    simp only [State.set,Bool.or_eq_false_iff] at hc
    refine ⟨hc.1,Table.get_isSome_iff.mp ?_⟩
    simpa using hc.2
  cases h with
  | tree hcur hi hk hm hp ho =>
    refine .tree hcur hi hk (hkeys k hm) ?_ ho
    intro hc
    obtain ⟨hc,hkey⟩ := hold hc
    exact (hp hc).trans (Table.keyList_set_of_mem _ hkey).symm
  | db hcur hi hm ho =>
    refine .db hcur hi hm ?_
    intro hc
    obtain ⟨hc,hkey⟩ := hold hc
    refine ⟨⟨(ho hc).1.path.trans (Table.keyList_set_of_mem _ hkey).symm,(ho hc).1.key⟩,?_⟩
    refine (ho hc).2.trans (Table.step_congr ?_ _ k)
    intro x
    refine ⟨hkeys x,fun hx => ?_⟩
    rcases Table.mem_keys_set.mp hx with rfl | hx
    · exact hkey
    · exact hx

theorem Inv.set (h : Inv s.transaction s.iterator) (key : K) (value : Bytes) (deleted : Bool) :
    Inv (s.set key value deleted).transaction (s.set key value deleted).iterator := by
  rcases h with h | ⟨k,h⟩
  · exact Or.inl h
  · exact Or.inr ⟨k,h.set key value deleted⟩

theorem Inv.standing (h : Inv t i) (hv : i.isValid) : ∃ k, Standing t i k := by
  rcases h with h | h
  · simp [isValid,h] at hv
  · exact h

theorem Inv.isValid_iff (h : Inv t i) : i.isValid ↔ ∃ k, i.currentKey = some k := by
  rcases h with h | ⟨k,h⟩
  · simp [isValid,TransactionIterator.currentKey,h]
  · refine ⟨fun _ => ⟨k,h.currentKey⟩,fun _ => ?_⟩
    cases h with
    | tree hc | db hc => simp [isValid,hc]

end TransactionIterator

section Runs
open TransactionIterator
variable (cmp : LevelDBComparator K) (stray : StrayPath K)

/-- The key the iterator is on, as `key()` reports it. -/
def State.position (s : State K) : Option K := s.iterator.key cmp stray s.transaction

/-- The iterator is on the first key of the set, and valid exactly if there is one. -/
def State.LandsOn (s : State K) (d : Direction) (S : Set K) : Prop :=
  IsFirst d S (s.position cmp stray) ∧ (s.iterator.isValid = true ↔ S.Nonempty)

/-- The contract of each call against the merged view. -/
def Meets (s : State K) : Op K → State K → Prop
  | .put k v, s' => (∀ x, s'.transaction.view x = if x = k then some v else s.transaction.view x) ∧
      s'.position cmp stray = s.position cmp stray
  | .remove k, s' => (∀ x, s'.transaction.view x = if x = k then none else s.transaction.view x) ∧
      s'.position cmp stray = s.position cmp stray
  | .seek target, s' => s'.transaction = s.transaction ∧
      s'.LandsOn cmp stray .forward {x | x ∈ s.transaction.viewKeys ∧ target ≤ x}
  | .seekToLast, s' => s'.transaction = s.transaction ∧
      s'.LandsOn cmp stray .reverse s.transaction.viewKeys
  | .next, s' => s'.transaction = s.transaction ∧ ∃ k, s.position cmp stray = some k ∧
      s'.LandsOn cmp stray .forward {x | x ∈ s.transaction.viewKeys ∧ k < x}
  | .prev, s' => s'.transaction = s.transaction ∧ ∃ k, s.position cmp stray = some k ∧
      s'.LandsOn cmp stray .reverse {x | x ∈ s.transaction.viewKeys ∧ x < k}
  | .key, s' => s'.transaction = s.transaction ∧ s'.position cmp stray = s.position cmp stray
  | .value, s' => s'.transaction = s.transaction ∧
      s'.position cmp stray = s.position cmp stray ∧
      ∀ k v, s.position cmp stray = some k → s.transaction.view k = some v →
        s.iterator.value cmp stray s.transaction = some v

/-- States reached by steps that satisfy the given condition. -/
inductive Run (ok : State K → Op K → Prop) (s₀ : State K) : State K → Prop
  | start : Run ok s₀ s₀
  | step {s s' : State K} (op : Op K) : Run ok s₀ s → ok s op →
      s.step cmp stray op = some s' → Run ok s₀ s'

/-- An admissible step that does not read a lost tree half or an overwritten
database value. -/
def Op.Careful (s : State K) (op : Op K) : Prop :=
  op.Admissible s ∧
    match op with
    | .prev | .key => ¬ MissesTree s.transaction s.iterator
    | .value => ¬ MissesTree s.transaction s.iterator ∧ ¬ Overwritten s.transaction s.iterator
    | _ => True

/-- A fresh iterator over any snapshot and any earlier writes. -/
def State.initial (snapshot : Table K Bytes) (tree : Table K AVLTreeNode) : State K :=
  ⟨⟨snapshot, tree⟩, create⟩

variable {cmp stray}

theorem landsOn_of_isFirst {S : Set K}
    (hi : Inv s.transaction s.iterator) (h : IsFirst d S s.iterator.currentKey) :
    s.LandsOn cmp stray d S := by
  refine ⟨?_,?_⟩
  · rw [State.position,hi.key cmp stray]
    exact h
  · rw [hi.isValid_iff]
    constructor
    · rintro ⟨k,hk⟩
      exact ⟨k,h.mem hk⟩
    · rintro ⟨x,hx⟩
      have hb := h.not_before hx
      simp only [Before,not_forall] at hb
      obtain ⟨k,hk,-⟩ := hb
      exact ⟨k,hk⟩

theorem view_set (s : State K) (key : K) (value : Bytes) (deleted : Bool) (x : K) :
    (s.set key value deleted).transaction.view x =
      if x = key then (if deleted then none else some value) else s.transaction.view x := by
  simp only [Transaction.view,State.set,Table.get_set]
  by_cases hx : x = key
  · simp [hx]
  · simp [hx]

theorem position_set (h : Inv s.transaction s.iterator) (key : K) (value : Bytes) (deleted : Bool) :
    (s.set key value deleted).position cmp stray = s.position cmp stray := by
  rw [State.position,State.position,(h.set key value deleted).key cmp stray,h.key cmp stray]
  rfl

theorem inv_refreshed {k : K} (h : Standing s.transaction s.iterator k)
    (hm : ¬MissesTree s.transaction s.iterator) :
    Inv s.transaction (s.iterator.refreshed cmp stray s.transaction) :=
  Or.inr ⟨k,h.refresh cmp stray hm⟩

theorem position_refreshed {k : K} (h : Standing s.transaction s.iterator k)
    (hm : ¬MissesTree s.transaction s.iterator) :
    State.position cmp stray ⟨s.transaction,s.iterator.refreshed cmp stray s.transaction⟩ =
      s.position cmp stray := by
  rw [State.position,State.position,h.key cmp stray]
  exact (h.refresh cmp stray hm).key cmp stray

/-- One careful step keeps the invariant and meets its contract. -/
theorem step_meets (cmp : LevelDBComparator K) (stray : StrayPath K)
    (hinv : Inv s.transaction s.iterator) (op : Op K) (hop : op.Careful s) :
    ∃ s', s.step cmp stray op = some s' ∧ Meets cmp stray s op s' ∧
      Inv s'.transaction s'.iterator := by
  obtain ⟨ha,hc⟩ := hop
  cases op with
  | put k v =>
    refine ⟨_,rfl,⟨?_,position_set hinv k v false⟩,hinv.set k v false⟩
    intro x
    simpa using view_set s k v false x
  | remove k =>
    refine ⟨_,rfl,⟨?_,position_set hinv k [] true⟩,hinv.set k [] true⟩
    intro x
    simpa using view_set s k [] true x
  | seek target =>
    obtain ⟨j,hj,hf,hi⟩ := s.iterator.seek_lands cmp stray target
    exact ⟨⟨s.transaction,j⟩,by rw [State.step,hj]; rfl,⟨rfl,landsOn_of_isFirst hi hf⟩,hi⟩
  | seekToLast =>
    obtain ⟨j,hj,hf,hi⟩ := s.iterator.seekToLast_lands cmp stray
    exact ⟨⟨s.transaction,j⟩,by rw [State.step,hj]; rfl,⟨rfl,landsOn_of_isFirst hi hf⟩,hi⟩
  | next =>
    obtain ⟨k,hs⟩ := hinv.standing ha
    obtain ⟨j,hj,hf,hi⟩ := hs.next_lands cmp stray
    exact ⟨⟨s.transaction,j⟩,by rw [State.step,hj]; rfl,
      ⟨rfl,k,hs.key cmp stray,landsOn_of_isFirst hi hf⟩,hi⟩
  | prev =>
    obtain ⟨k,hs⟩ := hinv.standing ha
    obtain ⟨j,hj,hf,hi⟩ := hs.prev_lands cmp stray hc
    exact ⟨⟨s.transaction,j⟩,by rw [State.step,hj]; rfl,
      ⟨rfl,k,hs.key cmp stray,landsOn_of_isFirst hi hf⟩,hi⟩
  | key =>
    obtain ⟨k,hs⟩ := hinv.standing ha
    exact ⟨_,rfl,⟨rfl,position_refreshed hs hc⟩,inv_refreshed hs hc⟩
  | value =>
    obtain ⟨k,hs⟩ := hinv.standing ha
    refine ⟨_,rfl,⟨rfl,position_refreshed hs hc.1,?_⟩,inv_refreshed hs hc.1⟩
    intro j v hj hv
    obtain rfl : k = j := by
      rw [State.position,hs.key cmp stray] at hj
      simpa using hj
    exact hs.value_eq cmp stray hc.2 hv

theorem Run.inv {snapshot : Table K Bytes} {tree : Table K AVLTreeNode}
    (h : Run cmp stray (fun s op => op.Careful s) (State.initial snapshot tree) s) :
    Inv s.transaction s.iterator := by
  induction h with
  | start => exact Or.inl rfl
  | step op _ hop hs ih =>
    obtain ⟨s'',hs'',-,hi⟩ := step_meets cmp stray ih op hop
    rw [hs] at hs''
    obtain rfl := Option.some.inj hs''
    exact hi

/-- In every run of careful steps, each further careful step returns and leaves
the iterator where the merged view says. -/
theorem careful_run_follows_view (cmp : LevelDBComparator K) (stray : StrayPath K)
    (snapshot : Table K Bytes) (tree : Table K AVLTreeNode) (s : State K)
    (hrun : Run cmp stray (fun s op => op.Careful s) (State.initial snapshot tree) s)
    (op : Op K) (hop : op.Careful s) :
    ∃ s', s.step cmp stray op = some s' ∧ Meets cmp stray s op s' := by
  obtain ⟨s',hs',hm,-⟩ := step_meets cmp stray hrun.inv op hop
  exact ⟨s',hs',hm⟩

end Runs

end

/-- Integer difference as a comparator, for concrete runs. -/
def natComparator : LevelDBComparator ℕ where
  compare a b := (a : ℤ) - b
  compare_neg a b := by omega
  compare_zero a b := by omega

/-- One database entry, and no write yet. -/
def oneEntry : State ℕ := State.initial ⟨[(3, [30])], by simp⟩ Table.empty

/-- `seekToLast` on it: the database half is current and travels in reverse. -/
def onLastEntry : State ℕ :=
  ⟨oneEntry.transaction, ⟨⟨none, [], none⟩, some 3, some .db, .reverse, false⟩⟩

/-- Concrete runs never follow a stale path, so any answer will do there. -/
def noStray : StrayPath ℕ := fun _ _ _ => none

/-- On the last entry, keys on both sides of it are written. -/
def writtenAround : State ℕ := (onLastEntry.set 5 [50] false).set 1 [10] false

theorem careful_run_writtenAround :
    ∃ s', Run natComparator noStray (fun s op => op.Careful s) oneEntry writtenAround ∧
      writtenAround.step natComparator noStray .prev = some s' ∧
      Meets natComparator noStray writtenAround .prev s' ∧
      s'.position natComparator noStray = some 1 := by
  have hlast : Run natComparator noStray (fun s op => op.Careful s) oneEntry onLastEntry :=
    .step .seekToLast .start ⟨trivial, trivial⟩ rfl
  have hrun : Run natComparator noStray (fun s op => op.Careful s) oneEntry writtenAround :=
    .step (.put 1 [10]) (.step (.put 5 [50]) hlast ⟨trivial, trivial⟩ rfl) ⟨trivial, trivial⟩ rfl
  have hcare : Op.Careful writtenAround .prev := by
    refine ⟨rfl, ?_⟩
    rintro ⟨-, -, -, k, hk, hceiling, -⟩
    -- the tree has the key 5 behind the database's 3
    obtain rfl : 3 = k := Option.some.inj hk
    revert hceiling
    decide
  obtain ⟨s', hs', hm⟩ := careful_run_follows_view natComparator noStray
    ⟨[(3, [30])], by simp⟩ Table.empty writtenAround hrun .prev hcare
  refine ⟨s', hrun, hs', hm, ?_⟩
  have hstep : (writtenAround.step natComparator noStray .prev).map
      (State.position natComparator noStray) = some (some 1) := by decide
  simpa [hs'] using hstep

/-- On the last database key, a `put` below it and then `prev` runs off the end
although the new key is in the view. On the same key, a `put` of the key itself
leaves `value` at the snapshot's bytes. -/
theorem lost_tree_half_and_stale_value :
    (∃ s s', Run natComparator noStray (fun s op => op.Admissible s) oneEntry s ∧
      s.step natComparator noStray .prev = some s' ∧
      ¬ Meets natComparator noStray s .prev s') ∧
    (∃ s s', Run natComparator noStray (fun s op => op.Admissible s) oneEntry s ∧
      s.step natComparator noStray .value = some s' ∧
      ¬ Meets natComparator noStray s .value s') := by
  have hl : Run natComparator noStray (fun s op => op.Admissible s) oneEntry onLastEntry :=
    .step .seekToLast .start trivial rfl
  refine ⟨⟨onLastEntry.set 1 [10] false,_,.step (.put 1 [10]) hl trivial rfl,rfl,?_⟩,
    ⟨onLastEntry.set 3 [31] false,_,.step (.put 3 [31]) hl trivial rfl,rfl,?_⟩⟩
  · rintro ⟨-,k,hk,hland,-⟩
    have hk3 : some 3 = some k := hk
    obtain rfl := Option.some.inj hk3
    have hview : (1 : ℕ) ∈ (onLastEntry.set 1 [10] false).transaction.viewKeys := by
      rfl
    exact hland.not_before ⟨hview,by omega⟩ (before_none _ _)
  · rintro ⟨-,-,hv⟩
    have hs : (onLastEntry.set 3 [31] false).iterator.value natComparator noStray
        (onLastEntry.set 3 [31] false).transaction = some [30] := by decide
    have hview := hv 3 [31] rfl rfl
    rw [hs] at hview
    simp at hview

end QPlusWeb.LevelDBTransaction
