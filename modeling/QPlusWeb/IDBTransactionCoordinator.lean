import QPlusWeb.Runs
import Mathlib.Data.Finset.Basic

/-!
# Scheduling of IndexedDB transactions

A transaction that is started by the page waits in a queue until `IDBTransactionCoordinator` lets it run.
Read-write transactions with a common object store exclude each other.  The pointers to the transactions
are a type with the mode and the scope of each; a run is recorded together with the order in which the
page started the transactions.
-/

namespace QPlusWeb.IDB

open Runs List

inductive TransactionMode where
  | readOnly
  | readWrite
  | versionChange
  deriving DecidableEq

structure TransactionCoordinator (T : Type) where
  transactions : Finset T
  queuedTransactions : List T
  startedTransactions : Finset T
  /-- the calls of `didStartTransaction` -/
  starts : List T
  /-- the calls of `run` -/
  runs : List T

inductive CoordinatorEvent (T : Type) where
  | didCreateTransaction (transaction : T)
  | didStartTransaction (transaction : T)
  | didFinishTransaction (transaction : T)

namespace TransactionCoordinator

def empty {T : Type} : TransactionCoordinator T := ⟨∅, [], ∅, [], []⟩

variable {T : Type} [DecidableEq T] (mode : T → TransactionMode) (scope : T → Finset ℤ)

def doScopesOverlap (scope₁ scope₂ : Finset ℤ) : Bool := decide (∃ id ∈ scope₁, id ∈ scope₂)

/-- The condition of the loops of `canRunTransaction`. -/
def blocks (transaction other : T) : Bool :=
  mode other = .readWrite && doScopesOverlap (scope transaction) (scope other)

variable (s : TransactionCoordinator T)

def canRunTransaction (transaction : T) : Bool :=
  match mode transaction with
  | .versionChange => true
  | .readOnly => true
  | .readWrite =>
    !decide (∃ other ∈ s.startedTransactions, blocks mode scope transaction other = true) &&
      !(s.queuedTransactions.takeWhile (· ≠ transaction)).any (blocks mode scope transaction)

/-- `run` is called and starts the timer of the transaction. -/
def runTransaction (transaction : T) : TransactionCoordinator T :=
  { s with
    queuedTransactions := s.queuedTransactions.erase transaction
    startedTransactions := insert transaction s.startedTransactions
    runs := s.runs ++ [transaction] }

/-- The loop; only the transaction that is visited leaves the queue. -/
def processFrom (s : TransactionCoordinator T) : List T → TransactionCoordinator T
  | [] => s
  | transaction :: rest =>
    processFrom (if canRunTransaction mode scope s transaction then s.runTransaction transaction else s)
      rest

def processStartedTransactions : TransactionCoordinator T :=
  if s.queuedTransactions = [] then s else processFrom mode scope s s.queuedTransactions

/-- An event that fails an assertion is impossible. -/
def step : CoordinatorEvent T → Option (TransactionCoordinator T)
  | .didCreateTransaction transaction =>
    if transaction ∈ s.transactions then none
    else some { s with transactions := insert transaction s.transactions }
  | .didStartTransaction transaction =>
    if transaction ∈ s.transactions then
      some (processStartedTransactions mode scope
        { s with
          queuedTransactions :=
            if transaction ∈ s.queuedTransactions then s.queuedTransactions
            else s.queuedTransactions ++ [transaction]
          starts := s.starts ++ [transaction] })
    else none
  | .didFinishTransaction transaction =>
    if transaction ∈ s.transactions then
      let s :=
        if transaction ∈ s.queuedTransactions then
          { s with queuedTransactions := s.queuedTransactions.erase transaction }
        else { s with startedTransactions := s.startedTransactions.erase transaction }
      some (processStartedTransactions mode scope
        { s with transactions := s.transactions.erase transaction })
    else none

/-- A transaction is an object of its own and starts once, in the state `Unused`. -/
def allowed : CoordinatorEvent T → Prop
  | .didCreateTransaction transaction =>
    mode transaction ≠ .versionChange ∧ transaction ∉ s.starts
  | .didStartTransaction transaction => transaction ∉ s.starts
  | .didFinishTransaction _ => True

instance (s : TransactionCoordinator T) (e : CoordinatorEvent T) : Decidable (allowed mode s e) :=
  match e with
  | .didCreateTransaction _ => inferInstanceAs (Decidable (_ ∧ _))
  | .didStartTransaction _ => inferInstanceAs (Decidable (¬ _))
  | .didFinishTransaction _ => .isTrue trivial

/-! ### The schedule -/

/-- Read-write transactions with overlapping scopes. -/
def Conflict (t t' : T) : Prop :=
  mode t = .readWrite ∧ mode t' = .readWrite ∧ ∃ id ∈ scope t, id ∈ scope t'

/-- A transaction waits for one that runs or is queued before it. -/
def Waits (t : T) : Prop :=
  mode t = .readWrite ∧ ((∃ r ∈ s.startedTransactions, Conflict mode scope t r) ∨
    ∃ q, [q, t].Sublist s.queuedTransactions ∧ Conflict mode scope t q)

/-- What holds also in the middle of the loop. -/
structure Exclusive (s : TransactionCoordinator T) : Prop where
  startsOnce : s.starts.Nodup
  queueInOrder : s.queuedTransactions.Sublist s.starts
  runStarted : ∀ t ∈ s.runs, t ∈ s.starts ∧ t ∉ s.queuedTransactions
  startedRun : ∀ t ∈ s.startedTransactions, t ∈ s.runs
  exclusive :
    ∀ t ∈ s.startedTransactions, ∀ t' ∈ s.startedTransactions, t ≠ t' → ¬ Conflict mode scope t t'
  ordered : s.runs.Pairwise fun r r' => Conflict mode scope r r' → [r, r'].Sublist s.starts
  notOvertaken :
    ∀ q ∈ s.queuedTransactions, ∀ r ∈ s.runs, Conflict mode scope q r → [r, q].Sublist s.starts

variable {mode scope} {s : TransactionCoordinator T} {t t' : T}

section
omit [DecidableEq T]

theorem Conflict.symm (h : Conflict mode scope t t') : Conflict mode scope t' t := by
  obtain ⟨hmode,hmode',id,hid,hid'⟩ := h
  exact ⟨hmode',hmode,id,hid',hid⟩

theorem blocks_iff (h : mode t = .readWrite) :
    blocks mode scope t t' ↔ Conflict mode scope t t' := by
  simp [blocks,doScopesOverlap,Conflict,h]

/-- What is queued before a transaction is another one. -/
theorem Exclusive.not_mem_kept {kept rest : List T} (h : Exclusive mode scope s)
    (hqueue : s.queuedTransactions = kept++t::rest) : t ∉ kept := by
  have hn := h.startsOnce.sublist h.queueInOrder
  rw [hqueue] at hn
  exact fun hm => (nodup_append.mp hn).2.2 t hm t mem_cons_self rfl

end

section Loop
variable {kept rest : List T} (h : Exclusive mode scope s)
  (hqueue : s.queuedTransactions = kept ++ t :: rest)
include h hqueue

theorem takeWhile_queue : s.queuedTransactions.takeWhile (· ≠ t) = kept := by
  have hn := h.not_mem_kept hqueue
  have hk : ∀ x ∈ kept, decide (x ≠ t) := fun x hx =>
    decide_eq_true (ne_of_mem_of_not_mem hx hn)
  rw [hqueue,takeWhile_append_of_pos hk]
  simp

theorem canRunTransaction_iff : canRunTransaction mode scope s t ↔
      (∀ r ∈ s.startedTransactions, ¬Conflict mode scope t r) ∧ ∀ q ∈ kept,
        ¬Conflict mode scope t q := by
  unfold canRunTransaction
  rw [takeWhile_queue h hqueue]
  cases hm : mode t with
  | readOnly | versionChange => simp [Conflict,hm]
  | readWrite => simp [blocks_iff hm]

theorem erase_queue : s.queuedTransactions.erase t = kept++rest := by
  rw [hqueue,erase_append_right _ (h.not_mem_kept hqueue),erase_cons_head]

theorem Exclusive.runTransaction (hrun : canRunTransaction mode scope s t) :
    Exclusive mode scope (s.runTransaction t) := by
  obtain ⟨hs,hk⟩ := (canRunTransaction_iff h hqueue).mp hrun
  have hm : t ∈ s.queuedTransactions := by simp [hqueue]
  have he : (s.runTransaction t).queuedTransactions = kept++rest := erase_queue h hqueue
  have hsub : (kept++rest).Sublist s.queuedTransactions := by
    rw [hqueue]
    exact (List.Sublist.refl kept).append (sublist_cons_self t rest)
  have hn : t ∉ kept++rest := by
    rw [← erase_queue h hqueue]
    exact (h.startsOnce.sublist h.queueInOrder).not_mem_erase
  refine ⟨h.startsOnce,?_,?_,?_,?_,?_,?_⟩
  · rw [he]
    exact hsub.trans h.queueInOrder
  · intro r hr
    rw [he]
    rcases mem_append.mp hr with hr | hr
    · exact (h.runStarted r hr).imp_right fun hnotMem hm => hnotMem (hsub.subset hm)
    · obtain rfl := mem_singleton.mp hr
      exact ⟨h.queueInOrder.subset hm,hn⟩
  · intro r hr
    rcases Finset.mem_insert.mp hr with rfl | hr
    · exact mem_append_right _ (mem_singleton_self _)
    · exact mem_append_left _ (h.startedRun r hr)
  · intro r hr r' hr' hne
    rcases Finset.mem_insert.mp hr with rfl | hold
    · exact hs r' ((Finset.mem_insert.mp hr').resolve_left hne.symm)
    · rcases Finset.mem_insert.mp hr' with rfl | ho'
      · exact fun hc => hs r hold hc.symm
      · exact h.exclusive r hold r' ho' hne
  · refine pairwise_append.mpr ⟨h.ordered,pairwise_singleton _ _,?_⟩
    intro r hr r' hr' hc
    obtain rfl := mem_singleton.mp hr'
    exact h.notOvertaken r' hm r hr hc.symm
  · intro q hq r hr hc
    rw [he] at hq
    rcases mem_append.mp hr with hr | hr
    · exact h.notOvertaken q (hsub.subset hq) r hr hc
    · obtain rfl := mem_singleton.mp hr
      -- what was queued before it and is in conflict would have held it up
      have ha := (mem_append.mp hq).resolve_left fun hm => hk q hm hc.symm
      refine List.Sublist.trans ?_ (hqueue ▸ h.queueInOrder)
      exact ((singleton_sublist.mpr ha).cons_cons _).trans (sublist_append_right _ _)

theorem waits_of_not_canRun (hrun : ¬canRunTransaction mode scope s t) : Waits mode scope s t := by
  rw [canRunTransaction_iff h hqueue,not_and_or] at hrun
  push Not at hrun
  rcases hrun with ⟨r,hr,hc⟩ | ⟨q,hq,hc⟩
  · exact ⟨hc.1,.inl ⟨r,hr,hc⟩⟩
  · refine ⟨hc.1,.inr ⟨q,?_,hc⟩⟩
    rw [hqueue]
    exact (singleton_sublist.mpr hq).append (singleton_sublist.mpr mem_cons_self)

omit h hqueue in
theorem Waits.runTransaction (hw : Waits mode scope s t') (hne : t' ≠ t) :
    Waits mode scope (s.runTransaction t) t' := by
  refine ⟨hw.1,?_⟩
  rcases hw.2 with ⟨r,hr,hc⟩ | ⟨q,hq,hc⟩
  · exact .inl ⟨r,Finset.mem_insert_of_mem hr,hc⟩
  · by_cases hqt : q = t
    · exact .inl ⟨q,hqt ▸ Finset.mem_insert_self _ _,hc⟩
    · refine .inr ⟨q,?_,hc⟩
      have hs := hq.erase t
      rwa [erase_cons_tail (by simpa using hqt),erase_cons_tail (by simpa using hne)] at hs

end Loop

/-- No transaction waits needlessly, and none runs too early. -/
structure Scheduled (mode : T → TransactionMode) (scope : T → Finset ℤ)
    (s : TransactionCoordinator T) : Prop extends Exclusive mode scope s where
  waiting : ∀ t ∈ s.queuedTransactions, Waits mode scope s t

theorem scheduled_processFrom {kept rest : List T} (h : Exclusive mode scope s)
    (hqueue : s.queuedTransactions = kept++rest) (hk : ∀ t ∈ kept, Waits mode scope s t) :
    Scheduled mode scope (processFrom mode scope s rest) := by
  induction rest generalizing s kept with
  | nil =>
    rw [append_nil] at hqueue
    exact ⟨h,hqueue ▸ hk⟩
  | cons t rest ih =>
    unfold processFrom
    split
    next hr =>
      refine ih (h.runTransaction hqueue hr) (erase_queue h hqueue) fun t' ht' => ?_
      exact (hk t' ht').runTransaction (ne_of_mem_of_not_mem ht' (h.not_mem_kept hqueue))
    next hr =>
      have hq' : s.queuedTransactions = (kept++[t])++rest := by simp [hqueue]
      exact ih h hq' (forall_mem_append.mpr
        ⟨hk,forall_mem_singleton.mpr (waits_of_not_canRun h hqueue hr)⟩)

theorem scheduled_processStartedTransactions (h : Exclusive mode scope s) :
    Scheduled mode scope (processStartedTransactions mode scope s) := by
  unfold processStartedTransactions
  split
  next he => exact ⟨h,by simp [he]⟩
  next => exact scheduled_processFrom h (nil_append _).symm (by simp)

/-- Transactions go from the queue to those that run. -/
structure Moves (s s' : TransactionCoordinator T) : Prop where
  transactions_eq : s'.transactions = s.transactions
  starts_eq : s'.starts = s.starts
  present_iff : ∀ t, t ∈ s'.queuedTransactions ∨ t ∈ s'.startedTransactions ↔
    t ∈ s.queuedTransactions ∨ t ∈ s.startedTransactions

theorem moves_processFrom {kept rest : List T} (h : Exclusive mode scope s)
    (hqueue : s.queuedTransactions = kept ++ rest) : Moves s (processFrom mode scope s rest) := by
  induction rest generalizing s kept with
  | nil => exact ⟨rfl, rfl, fun t => Iff.rfl⟩
  | cons t rest ih =>
    unfold processFrom
    split
    next hr =>
      have hm := ih (h.runTransaction hqueue hr) (erase_queue h hqueue)
      refine ⟨hm.transactions_eq, hm.starts_eq, fun u => (hm.present_iff u).trans ?_⟩
      have he : (s.runTransaction t).queuedTransactions = kept ++ rest := erase_queue h hqueue
      have hi : (s.runTransaction t).startedTransactions = insert t s.startedTransactions := rfl
      rw [he, hi, hqueue]
      simp only [mem_append, mem_cons, Finset.mem_insert]
      tauto
    next =>
      have hq' : s.queuedTransactions = (kept ++ [t]) ++ rest := by simp [hqueue]
      exact ih h hq'

theorem moves_processStartedTransactions (h : Exclusive mode scope s) :
    Moves s (processStartedTransactions mode scope s) := by
  unfold processStartedTransactions
  split
  next => exact ⟨rfl, rfl, fun t => Iff.rfl⟩
  next => exact moves_processFrom h (nil_append _).symm

/-! ### The events -/

/-- The transactions that the page starts. -/
def started : CoordinatorEvent T → Option T
  | .didStartTransaction transaction => some transaction
  | _ => none

/-- The transactions that are created and not finished. -/
def live (transactions : Finset T) : CoordinatorEvent T → Finset T
  | .didCreateTransaction transaction => insert transaction transactions
  | .didStartTransaction _ => transactions
  | .didFinishTransaction transaction => transactions.erase transaction

/-- The schedule of the events so far: a transaction that was started and is not finished is queued
or runs. -/
structure Follows (mode : T → TransactionMode) (scope : T → Finset ℤ)
    (events : List (CoordinatorEvent T)) (s : TransactionCoordinator T) : Prop
    extends Scheduled mode scope s where
  starts_eq : s.starts = events.filterMap started
  transactions_eq : s.transactions = events.foldl live ∅
  present_iff : ∀ t, t ∈ s.queuedTransactions ∨ t ∈ s.startedTransactions ↔
    t ∈ s.starts ∧ t ∈ s.transactions

omit [DecidableEq T] in
/-- A transaction leaves the queue or the ones that run. -/
theorem Exclusive.shrink {s' : TransactionCoordinator T} (h : Exclusive mode scope s)
    (hqueue : s'.queuedTransactions.Sublist s.queuedTransactions)
    (hstarted : s'.startedTransactions ⊆ s.startedTransactions) (hs : s'.starts = s.starts)
    (hruns : s'.runs = s.runs) : Exclusive mode scope s' where
  startsOnce := hs ▸ h.startsOnce
  queueInOrder := hs ▸ hqueue.trans h.queueInOrder
  runStarted t ht := by
    rw [hruns] at ht
    rw [hs]
    exact (h.runStarted t ht).imp_right fun hn hm => hn (hqueue.subset hm)
  startedRun t ht := hruns ▸ h.startedRun t (hstarted ht)
  exclusive t ht t' ht' := h.exclusive t (hstarted ht) t' (hstarted ht')
  ordered := by
    rw [hruns,hs]
    exact h.ordered
  notOvertaken q hq r hr := by
    rw [hruns] at hr
    rw [hs]
    exact h.notOvertaken q (hqueue.subset hq) r hr

omit [DecidableEq T] in
theorem Exclusive.start (h : Exclusive mode scope s) (ht : t ∉ s.starts) : Exclusive mode scope
      {s with queuedTransactions := s.queuedTransactions++[t], starts := s.starts++[t]} where
  startsOnce := nodup_append.mpr ⟨h.startsOnce,nodup_singleton t,by
    rintro r hr r' hr' rfl
    exact ht (mem_singleton.mp hr' ▸ hr)⟩
  queueInOrder := h.queueInOrder.append (List.Sublist.refl [t])
  runStarted r hr := by
    obtain ⟨hs,hn⟩ := h.runStarted r hr
    refine ⟨mem_append_left _ hs,?_⟩
    rw [mem_append,mem_singleton,not_or]
    exact ⟨hn,ne_of_mem_of_not_mem hs ht⟩
  startedRun := h.startedRun
  exclusive := h.exclusive
  ordered := h.ordered.imp fun hrr' hc => (hrr' hc).trans (sublist_append_left _ _)
  notOvertaken q hq r hr hc := by
    rcases mem_append.mp hq with hq | hq
    · exact (h.notOvertaken q hq r hr hc).trans (sublist_append_left _ _)
    · rw [mem_singleton.mp hq]
      exact (singleton_sublist.mpr (h.runStarted r hr).1).append (List.Sublist.refl [t])

theorem Follows.step {events : List (CoordinatorEvent T)} {e : CoordinatorEvent T}
    {s' : TransactionCoordinator T} (h : Follows mode scope events s) (ha : allowed mode s e)
    (hs : step mode scope s e = some s') : Follows mode scope (events ++ [e]) s' := by
  cases e with
  | didCreateTransaction t =>
    obtain ⟨hn, heq⟩ := Option.ite_none_left_eq_some.mp hs
    obtain rfl := Option.some.inj heq
    refine ⟨⟨h.shrink (List.Sublist.refl _) subset_rfl rfl rfl, h.waiting⟩, ?_, ?_, fun u => ?_⟩
    · simp [h.starts_eq, started]
    · simp [h.transactions_eq, live]
    · refine (h.present_iff u).trans (and_congr_right fun hu => ?_)
      have hne : u ≠ t := fun he => ha.2 (he ▸ hu)
      simp [hne]
  | didStartTransaction t =>
    obtain ⟨hm, heq⟩ := Option.ite_none_right_eq_some.mp hs
    obtain rfl := Option.some.inj heq
    have hn : t ∉ s.queuedTransactions := fun hm => ha (h.queueInOrder.subset hm)
    rw [if_neg hn]
    have hv := moves_processStartedTransactions (h.start ha)
    refine ⟨scheduled_processStartedTransactions (h.start ha), ?_, ?_, fun u => ?_⟩
    · rw [hv.starts_eq]
      simp [h.starts_eq, started]
    · rw [hv.transactions_eq]
      simp [h.transactions_eq, live]
    · have hu := h.present_iff u
      rw [hv.present_iff, hv.starts_eq, hv.transactions_eq]
      by_cases he : u = t
      · simp [he, hm]
      · simpa [he] using hu
  | didFinishTransaction t =>
    obtain ⟨hm, heq⟩ := Option.ite_none_right_eq_some.mp hs
    obtain rfl := Option.some.inj heq
    -- it leaves the queue or those that run, since it is not in both
    have hleave : ∀ s₁ : TransactionCoordinator T, s₁.transactions = s.transactions.erase t →
        s₁.starts = s.starts → Exclusive mode scope s₁ →
        (∀ u, u ∈ s₁.queuedTransactions ∨ u ∈ s₁.startedTransactions ↔
          u ≠ t ∧ (u ∈ s.queuedTransactions ∨ u ∈ s.startedTransactions)) →
        Follows mode scope (events ++ [.didFinishTransaction t])
          (processStartedTransactions mode scope s₁) := by
      intro s₁ ht hst hx hp
      have hv := moves_processStartedTransactions hx
      refine ⟨scheduled_processStartedTransactions hx, ?_, ?_, fun u => ?_⟩
      · rw [hv.starts_eq, hst]
        simp [h.starts_eq, started]
      · rw [hv.transactions_eq, ht]
        simp [h.transactions_eq, live]
      · rw [hv.present_iff, hv.starts_eq, hv.transactions_eq, hp, h.present_iff, ht, hst,
          Finset.mem_erase]
        tauto
    split
    next hq =>
      refine hleave _ rfl rfl (h.shrink erase_sublist subset_rfl rfl rfl) fun u => ?_
      have hnot : t ∉ s.startedTransactions := fun hr => (h.runStarted t (h.startedRun t hr)).2 hq
      have hd := h.startsOnce.sublist h.queueInOrder
      rw [hd.mem_erase_iff]
      have hu : u ∈ s.startedTransactions → u ≠ t := fun hr he => hnot (he ▸ hr)
      tauto
    next hq =>
      refine hleave _ rfl rfl (h.shrink (List.Sublist.refl _) (Finset.erase_subset _ _) rfl rfl)
        fun u => ?_
      have hu : u ∈ s.queuedTransactions → u ≠ t := fun hr he => hq (he ▸ hr)
      rw [Finset.mem_erase]
      tauto

/-- After every event the transactions that run exclude each other, they were run in the order of their
starts, and the others wait for one of them or for one before them. -/
theorem transactions_scheduled (events : List (CoordinatorEvent T))
    (ha : Allowed (TransactionCoordinator.step mode scope) (allowed mode) events empty)
    (h : run (TransactionCoordinator.step mode scope) events empty = some s) :
    Follows mode scope events s := by
  refine run_history ?_ (fun past s e s' hp ha hs => hp.step ha hs) ha h
  refine ⟨⟨⟨nodup_nil, List.Sublist.refl _, ?_, ?_, ?_, List.Pairwise.nil, ?_⟩, ?_⟩, rfl, rfl, ?_⟩
  all_goals simp [empty]

/-- Three writers: the first one is finished, the second one shares a store with it and runs now, and
the last one waits for the second. -/
def threeWriters : List (CoordinatorEvent (Fin 3)) :=
  [.didCreateTransaction 0, .didCreateTransaction 1, .didCreateTransaction 2,
    .didStartTransaction 0, .didStartTransaction 1, .didStartTransaction 2, .didFinishTransaction 0]

theorem transactions_scheduled_threeWriters :
    ∃ s, run (TransactionCoordinator.step (fun _ => .readWrite) fun _ => {1}) threeWriters empty =
        some s ∧ s.queuedTransactions = [2] ∧ s.startedTransactions = {1} ∧ s.runs = [0, 1] ∧
      Follows (fun _ => .readWrite) (fun _ => {1}) threeWriters s :=
  ⟨_, rfl, by decide, by decide, by decide, transactions_scheduled _ (by decide) rfl⟩

end TransactionCoordinator

end QPlusWeb.IDB
