import QPlusWeb.Runs
import Mathlib.Data.List.Nodup

/-!
# The locks of Web SQL transactions

`SQLTransactionCoordinator.cpp`: the databases of an origin share an identifier, and under it any
number of read-only transactions or one other transaction have the lock.  The others are in a queue.
-/

namespace QPlusWeb.WebSQL

open Runs List

structure SQLTransactionBackend where
  address : ℕ
  databaseIdentifier : String
  isReadOnly : Bool
  deriving DecidableEq

/-- The transactions of one identifier, with the calls of `acquireLock` and `lockAcquired` so far. -/
structure CoordinationInfo where
  pendingTransactions : List SQLTransactionBackend := []
  activeReadTransactions : List SQLTransactionBackend := []
  activeWriteTransaction : Option SQLTransactionBackend := none
  requests : List SQLTransactionBackend := []
  grants : List SQLTransactionBackend := []

/-- The map, of which the identifiers are listed, and the transactions told of the shutdown. -/
structure SQLTransactionCoordinator where
  identifiers : List String := []
  info : String → CoordinationInfo := fun _ => {}
  isShuttingDown : Bool := false
  notified : List SQLTransactionBackend := []

inductive Call where
  | acquireLock (transaction : SQLTransactionBackend)
  | releaseLock (transaction : SQLTransactionBackend)

namespace CoordinationInfo

/-- The transactions that have the lock. -/
def holders (info : CoordinationInfo) : List SQLTransactionBackend :=
  info.activeWriteTransaction.toList++info.activeReadTransactions

/-- The loop of `processPendingTransactions`. -/
def grantReads (info : CoordinationInfo) : List SQLTransactionBackend → CoordinationInfo
  | [] => {info with pendingTransactions := []}
  | t::rest =>
    if t.isReadOnly then
      grantReads {info with activeReadTransactions := info.activeReadTransactions.insert t
                            grants := info.grants++[t]} rest
    else {info with pendingTransactions := t::rest}

def processPendingTransactions (info : CoordinationInfo) : CoordinationInfo :=
  match info.activeWriteTransaction,info.pendingTransactions with
  | none,t::rest =>
    if t.isReadOnly then info.grantReads (t::rest)
    else if info.activeReadTransactions = [] then
      {info with pendingTransactions := rest, activeWriteTransaction := some t
                 grants := info.grants++[t]}
    else info
  | _,_ => info

end CoordinationInfo

namespace SQLTransactionCoordinator
variable (c : SQLTransactionCoordinator) (t : SQLTransactionBackend)

def acquireLock : SQLTransactionCoordinator :=
  let info := c.info t.databaseIdentifier
  let info := {info with pendingTransactions := info.pendingTransactions++[t]
                         requests := info.requests++[t]}
  {c with identifiers := c.identifiers.insert t.databaseIdentifier
          info := Function.update c.info t.databaseIdentifier info.processPendingTransactions}

/-- A transaction without the lock fails an assertion. -/
def releaseLock : Option SQLTransactionCoordinator :=
  let info := c.info t.databaseIdentifier
  let put (info : CoordinationInfo) := some {c with
    info := Function.update c.info t.databaseIdentifier info.processPendingTransactions}
  if c.isShuttingDown then some c
  else if t.isReadOnly then
    if t ∈ info.activeReadTransactions then
      put {info with activeReadTransactions := info.activeReadTransactions.erase t}
    else none
  else if info.activeWriteTransaction = some t then put {info with activeWriteTransaction := none}
  else none

def step : Call → Option SQLTransactionCoordinator
  | .acquireLock t => some (c.acquireLock t)
  | .releaseLock t => c.releaseLock t

/-- The first call gets to `doCleanup`, which releases the lock of a transaction that has it. -/
def notifyDatabaseThreadIsShuttingDown : Option SQLTransactionCoordinator :=
  let c' := {c with notified := c.notified++[t]}
  if t ∉ c.notified ∧ t ∈ (c.info t.databaseIdentifier).grants then c'.releaseLock t else some c'

/-- The loop over the waiting transactions. -/
def notifyPending (d : String) : ℕ → SQLTransactionCoordinator → Option SQLTransactionCoordinator
  | 0,_ => none
  | fuel+1,c =>
    match (c.info d).pendingTransactions with
    | [] => some c
    | t::_ => c.notifyDatabaseThreadIsShuttingDown t >>= notifyPending d fuel

/-- The round of the loop of `shutdown` for one identifier. -/
def shutdownDatabase (fuel : ℕ) (d : String) : Option SQLTransactionCoordinator :=
  (c.info d).holders.foldlM notifyDatabaseThreadIsShuttingDown c >>= notifyPending d fuel

def shutdown (fuel : ℕ) : Option SQLTransactionCoordinator := do
  let c ← c.identifiers.foldlM (shutdownDatabase · fuel) {c with isShuttingDown := true}
  some {c with identifiers := [], info := fun _ => {}}

end SQLTransactionCoordinator

/-! ### One identifier -/

namespace CoordinationInfo

/-- What holds between two calls, if `Released` are the transactions that have given the lock back. -/
structure Coordinated (Released : SQLTransactionBackend → Prop) (info : CoordinationInfo) : Prop where
  reads : ∀ t ∈ info.activeReadTransactions, t.isReadOnly = true
  nodup : info.activeReadTransactions.Nodup
  write : ∀ t ∈ info.activeWriteTransaction,
    t.isReadOnly = false ∧ info.activeReadTransactions = []
  order : info.grants ++ info.pendingTransactions = info.requests
  granted : ∀ t, t ∈ info.holders ∨ Released t → t ∈ info.grants
  kept : ∀ t ∈ info.grants, t ∈ info.holders ∨ Released t
  once : info.requests.Nodup → ∀ t ∈ info.holders, ¬Released t

/-- The transaction at the head of the queue conflicts with a holder. -/
structure Settled (Released : SQLTransactionBackend → Prop) (info : CoordinationInfo) : Prop
    extends Coordinated Released info where
  waits : ∀ t ∈ info.pendingTransactions.head?,
    ∃ s ∈ info.holders, s.isReadOnly = false ∨ t.isReadOnly = false

variable {info : CoordinationInfo} {l : List SQLTransactionBackend} {t : SQLTransactionBackend}
  {Released : SQLTransactionBackend → Prop}

theorem exists_holder (h : info.activeReadTransactions ≠ []) : ∃ s, s ∈ info.holders := by
  obtain ⟨s, hs⟩ := exists_mem_of_ne_nil _ h
  exact ⟨s, mem_append_right _ hs⟩

/-- The lock goes to the transaction at the head of the queue. -/
theorem Coordinated.grant {info' : CoordinationInfo} (h : info.Coordinated Released)
    (hp : info.pendingTransactions = t :: l)
    (hreads : ∀ s ∈ info'.activeReadTransactions, s.isReadOnly = true)
    (hnodup : info'.activeReadTransactions.Nodup)
    (hwrite : ∀ s ∈ info'.activeWriteTransaction,
      s.isReadOnly = false ∧ info'.activeReadTransactions = [])
    (hh : ∀ s, s ∈ info'.holders ↔ s = t ∨ s ∈ info.holders)
    (hg : info'.grants = info.grants ++ [t]) (hl : info'.pendingTransactions = l)
    (hr : info'.requests = info.requests) : info'.Coordinated Released := by
  have ho := h.order
  rw [hp] at ho
  refine ⟨hreads, hnodup, hwrite, by simp [hg, hl, hr, ← ho], fun s hs => ?_, fun s hs => ?_,
    fun hn s hs hrel => ?_⟩
  · rw [hg, mem_append, mem_singleton]
    rcases hs with hs | hs
    · rcases (hh s).mp hs with rfl | hs
      · exact .inr rfl
      · exact .inl (h.granted s (.inl hs))
    · exact .inl (h.granted s (.inr hs))
  · rw [hg, mem_append, mem_singleton] at hs
    rw [hh]
    rcases hs with hs | rfl
    · exact (h.kept s hs).imp_left .inr
    · exact .inl (.inl rfl)
  · rw [hr] at hn
    rcases (hh s).mp hs with rfl | hs
    · -- a transaction that was released had been granted the lock before
      have hd := (nodup_append.mp (ho ▸ hn)).2.2
      exact hd _ (h.granted _ (.inr hrel)) _ mem_cons_self rfl
    · exact h.once hn s hs hrel

theorem Coordinated.release {info' : CoordinationInfo} (h : info.Coordinated Released)
    (ht : t ∈ info.holders) (hreads : ∀ s ∈ info'.activeReadTransactions, s.isReadOnly = true)
    (hnodup : info'.activeReadTransactions.Nodup)
    (hwrite : ∀ s ∈ info'.activeWriteTransaction,
      s.isReadOnly = false ∧ info'.activeReadTransactions = [])
    (hh : ∀ s, s ∈ info'.holders ↔ s ≠ t ∧ s ∈ info.holders) (hg : info'.grants = info.grants)
    (hp : info'.pendingTransactions = info.pendingTransactions)
    (hr : info'.requests = info.requests) : info'.Coordinated fun s => s = t ∨ Released s := by
  refine ⟨hreads, hnodup, hwrite, by rw [hg, hp, hr, h.order], fun s hs => ?_, fun s hs => ?_,
    fun hn s hs hrel => ?_⟩
  · rw [hg]
    rcases hs with hs | rfl | hs
    · exact h.granted s (.inl ((hh s).mp hs).2)
    · exact h.granted s (.inl ht)
    · exact h.granted s (.inr hs)
  · by_cases hst : s = t
    · exact .inr (.inl hst)
    · rw [hh]
      exact (h.kept s (hg ▸ hs)).imp (⟨hst, ·⟩) .inr
  · obtain ⟨hst, hs⟩ := (hh s).mp hs
    exact h.once (hr ▸ hn) s hs (hrel.resolve_left hst)

theorem settled_grantReads (h : Coordinated Released {info with pendingTransactions := l})
    (hw : info.activeWriteTransaction = none)
    (hr : ∀ t ∈ l.head?, t.isReadOnly = false → info.activeReadTransactions ≠ []) :
    (info.grantReads l).Settled Released := by
  induction l generalizing info with
  | nil => exact ⟨h, by simp [grantReads]⟩
  | cons t rest ih =>
    rw [grantReads]
    split
    · next ht =>
      refine ih (h.grant rfl (fun s hs => ?_) (Nodup.insert h.nodup) (by simp [hw])
        (fun s => by simp [holders, hw]) rfl rfl rfl) hw ?_
      · obtain rfl | hs := mem_insert_iff.mp hs
        · exact ht
        · exact h.reads s hs
      · exact fun _ _ _ => ne_nil_of_mem mem_insert_self
    · next ht =>
      have hf := Bool.eq_false_iff.mpr ht
      refine ⟨h, fun s hs => ?_⟩
      obtain rfl := Option.some.inj hs
      obtain ⟨s, hs⟩ := exists_holder (hr t rfl hf)
      exact ⟨s, hs, .inr hf⟩

theorem settled_processPendingTransactions (h : info.Coordinated Released) :
    info.processPendingTransactions.Settled Released := by
  cases hw : info.activeWriteTransaction with
  | some w =>
    simp only [processPendingTransactions, hw]
    exact ⟨h, fun t _ => ⟨w, by simp [holders, hw], .inl (h.write w hw).1⟩⟩
  | none =>
    cases hp : info.pendingTransactions with
    | nil =>
      simp only [processPendingTransactions, hw, hp]
      exact ⟨h, by simp [hp]⟩
    | cons t rest =>
      simp only [processPendingTransactions, hw, hp]
      split_ifs with ht hn
      · refine settled_grantReads (by rw [← hp]; exact h) hw fun s hs hf => ?_
        rw [← Option.some.inj hs, ht] at hf
        cases hf
      · have hf := Bool.eq_false_iff.mpr ht
        refine ⟨h.grant hp h.reads h.nodup (by simp [hf, hn]) (fun s => ?_) rfl rfl rfl,
          fun s hs => ⟨t, by simp [holders], .inl hf⟩⟩
        simp [holders, hw, hn]
      · refine ⟨h, fun s hs => ?_⟩
        obtain ⟨r, hr⟩ := exists_holder hn
        rw [hp] at hs
        exact ⟨r, hr, .inr (Option.some.inj hs ▸ Bool.eq_false_iff.mpr ht)⟩

theorem requests_grantReads : (info.grantReads l).requests = info.requests := by
  induction l generalizing info with
  | nil => rfl
  | cons t rest ih =>
    rw [grantReads]
    split
    · exact ih
    · rfl

@[simp] theorem requests_processPendingTransactions :
    info.processPendingTransactions.requests = info.requests := by
  unfold processPendingTransactions
  split
  · split_ifs
    · exact requests_grantReads
    all_goals rfl
  · rfl

end CoordinationInfo

/-! ### Runs -/

namespace SQLTransactionCoordinator
open CoordinationInfo

variable {c c' : SQLTransactionCoordinator} {d : String} {ids : List String} {calls : List Call}

/-- The transactions for which the lock of `d` is asked. -/
def requested (d : String) : Call → Option SQLTransactionBackend
  | .acquireLock t => if t.databaseIdentifier = d then some t else none
  | .releaseLock _ => none

/-- What the calls so far leave behind. -/
structure Follows (calls : List Call) (c : SQLTransactionCoordinator) : Prop where
  settled : ∀ d, (c.info d).Settled fun t => t.databaseIdentifier = d ∧ .releaseLock t ∈ calls
  requests : ∀ d, (c.info d).requests = calls.filterMap (requested d)
  listed : ∀ d, (c.info d).requests ≠ [] → d ∈ c.identifiers
  nodup : c.identifiers.Nodup
  running : c.isShuttingDown = false ∧ c.notified = []

theorem Follows.mem_requests (h : c.Follows calls) {t : SQLTransactionBackend}
    (ht : t ∈ (c.info d).requests) : t.databaseIdentifier = d := by
  rw [h.requests, mem_filterMap] at ht
  obtain ⟨a, -, ha⟩ := ht
  cases a with
  | acquireLock s =>
    rw [requested] at ha
    split_ifs at ha with hd
    exact Option.some.inj ha ▸ hd
  | releaseLock s => cases ha

/-- A call puts a new entry under the identifier of its transaction. -/
theorem Follows.put {a : Call} {t : SQLTransactionBackend} {info : CoordinationInfo}
    (h : c.Follows calls) (ha : a = .acquireLock t ∨ a = .releaseLock t)
    (hi : info.Coordinated fun s =>
      s.databaseIdentifier = t.databaseIdentifier ∧ .releaseLock s ∈ calls ++ [a])
    (hr : info.requests = (calls ++ [a]).filterMap (requested t.databaseIdentifier))
    (hids : ids.Nodup) (hsub : ∀ d, d ∈ c.identifiers ∨ d = t.databaseIdentifier → d ∈ ids) :
    Follows (calls ++ [a]) {c with
      identifiers := ids
      info := Function.update c.info t.databaseIdentifier info.processPendingTransactions} := by
  have key : ∀ d, d ≠ t.databaseIdentifier → ((c.info d).Settled fun s =>
      s.databaseIdentifier = d ∧ .releaseLock s ∈ calls ++ [a]) ∧
        (calls ++ [a]).filterMap (requested d) = calls.filterMap (requested d) := by
    intro d hd
    have hrel : ∀ s, (s.databaseIdentifier = d ∧ .releaseLock s ∈ calls ++ [a]) =
        (s.databaseIdentifier = d ∧ .releaseLock s ∈ calls) := by
      intro s
      rcases ha with rfl | rfl
      · simp
      · have hne : s.databaseIdentifier = d → s ≠ t := fun he hst => hd (hst ▸ he.symm)
        simp
        tauto
    constructor
    · simpa only [hrel] using h.settled d
    · rcases ha with rfl | rfl
      · simp [requested, hd.symm]
      · simp [requested]
  refine ⟨fun d => ?_, fun d => ?_, fun d hn => hsub d ?_, hids, h.running⟩
  · by_cases hd : d = t.databaseIdentifier
    · subst hd
      simpa using settled_processPendingTransactions hi
    · simpa [hd] using (key d hd).1
  · by_cases hd : d = t.databaseIdentifier
    · subst hd
      simpa using hr
    · simp [hd, (key d hd).2, h.requests]
  · by_cases hd : d = t.databaseIdentifier
    · exact .inr hd
    · exact .inl (h.listed d (by simpa [hd] using hn))

theorem Follows.acquireLock (h : c.Follows calls) (t : SQLTransactionBackend) :
    (c.acquireLock t).Follows (calls ++ [.acquireLock t]) := by
  have hi := (h.settled t.databaseIdentifier).toCoordinated
  refine h.put (.inl rfl) ⟨hi.reads, hi.nodup, hi.write, ?_, ?_, ?_, fun hn => ?_⟩ ?_
    (Nodup.insert h.nodup) (by simp [or_comm])
  · rw [← append_assoc, hi.order]
  · simpa [holders] using hi.granted
  · simpa [holders] using hi.kept
  · simpa [holders] using hi.once (nodup_append.mp hn).1
  · simp [requested, h.requests]

theorem Follows.releaseLock (h : c.Follows calls) {t : SQLTransactionBackend}
    (hs : c.releaseLock t = some c') : c'.Follows (calls ++ [.releaseLock t]) := by
  have hi := (h.settled t.databaseIdentifier).toCoordinated
  have hput : ∀ info : CoordinationInfo, t ∈ (c.info t.databaseIdentifier).holders →
      info.Coordinated (fun s => s = t ∨
        s.databaseIdentifier = t.databaseIdentifier ∧ .releaseLock s ∈ calls) →
      info.requests = (c.info t.databaseIdentifier).requests → Follows (calls ++ [.releaseLock t])
        {c with info := Function.update c.info t.databaseIdentifier info.processPendingTransactions} := by
    intro info ht hinfo hr
    refine h.put (.inr rfl) ?_ (by simp [requested, hr, h.requests]) h.nodup ?_
    · have heq : ∀ s : SQLTransactionBackend, (s.databaseIdentifier = t.databaseIdentifier ∧
          Call.releaseLock s ∈ calls ++ [.releaseLock t]) = (s = t ∨
            s.databaseIdentifier = t.databaseIdentifier ∧ .releaseLock s ∈ calls) := by
        intro s
        by_cases hst : s = t
        · simp [hst]
        · simp [hst]
      simpa only [heq] using hinfo
    · rintro d (hd | rfl)
      · exact hd
      · refine h.listed _ (ne_nil_of_mem (a := t) ?_)
        rw [← hi.order]
        exact mem_append_left _ (hi.granted t (.inl ht))
  rw [SQLTransactionCoordinator.releaseLock, if_neg (by simp [h.running.1])] at hs
  split_ifs at hs with hro hm hm <;> obtain rfl := Option.some.inj hs
  · have hw : (c.info t.databaseIdentifier).activeWriteTransaction = none := by
      refine Option.eq_none_iff_forall_not_mem.mpr fun w hw => ?_
      rw [(hi.write w hw).2] at hm
      cases hm
    have ht := mem_append_right (c.info t.databaseIdentifier).activeWriteTransaction.toList hm
    refine hput _ ht (hi.release ht (fun s hs => hi.reads s (mem_of_mem_erase hs))
      (hi.nodup.erase t) (by simp [hw]) (fun s => ?_) rfl rfl rfl) rfl
    simp [holders, hw, hi.nodup.mem_erase_iff]
  · have hn := (hi.write t hm).2
    have ht : t ∈ (c.info t.databaseIdentifier).holders := by simp [holders, hm]
    exact hput _ ht (hi.release ht hi.reads hi.nodup (by simp) (fun s => by simp [holders, hm, hn])
      rfl rfl rfl) rfl

theorem follows_of_run (h : run step calls {} = some c) : c.Follows calls := by
  refine run_history ?_ ?_ (allowed_true _ _) h
  · refine ⟨fun d => ⟨⟨?_, ?_, ?_, rfl, ?_, ?_, ?_⟩, ?_⟩, fun d => rfl, ?_, nodup_nil, rfl, rfl⟩
    all_goals simp [holders]
  · intro past s a s' hp _ hs
    cases a with
    | acquireLock t => exact Option.some.inj hs ▸ hp.acquireLock t
    | releaseLock t => exact hp.releaseLock hs

/-- The calls of `acquireLock` are the requests. A transaction that writes has the lock alone, the lock
is granted in the order of the requests, and the first one that waits conflicts with a holder. A
transaction has the lock from the grant until it is released. -/
theorem locks_granted_in_order (calls : List Call) (h : run step calls {} = some c) (d : String) :
    (c.info d).requests = calls.filterMap (requested d) ∧
    (∀ t ∈ (c.info d).holders, t.isReadOnly = false → (c.info d).holders = [t]) ∧
    (c.info d).grants ++ (c.info d).pendingTransactions = (c.info d).requests ∧
    (∀ t ∈ (c.info d).pendingTransactions.head?,
      ∃ s ∈ (c.info d).holders, s.isReadOnly = false ∨ t.isReadOnly = false) ∧
    (∀ t ∈ (c.info d).holders, t ∈ (c.info d).grants) ∧
    (∀ t ∈ (c.info d).grants, t ∈ (c.info d).holders ∨ .releaseLock t ∈ calls) ∧
    ((c.info d).requests.Nodup → ∀ t ∈ (c.info d).holders, .releaseLock t ∉ calls) := by
  have hf := follows_of_run h
  have hi := hf.settled d
  refine ⟨hf.requests d, fun t ht hw => ?_, hi.order, hi.waits, fun t ht => hi.granted t (.inl ht),
    fun t ht => (hi.kept t ht).imp_right And.right, fun hn t ht hr => ?_⟩
  · obtain ht | ht := mem_append.mp ht
    · have hw := Option.mem_toList.mp ht
      simp [holders, hw, (hi.write t hw).2]
    · exact absurd (hi.reads t ht) (by simp [hw])
  · refine hi.once hn t ht ⟨hf.mem_requests ?_, hr⟩
    rw [← hi.order]
    exact mem_append_left _ (hi.granted t (.inl ht))

def transaction (address : ℕ) (isReadOnly : Bool) : SQLTransactionBackend :=
  ⟨address, "http_a_0", isReadOnly⟩

/-- A writer waits for two readers and a third reader behind it; when the readers are gone, the writer
has the lock. -/
def writerWaits : List Call :=
  [.acquireLock (transaction 0 true), .acquireLock (transaction 1 true),
    .acquireLock (transaction 2 false), .acquireLock (transaction 3 true),
    .releaseLock (transaction 0 true), .releaseLock (transaction 1 true)]

theorem locks_granted_in_order_writerWaits :
    ∃ c, run step writerWaits {} = some c ∧ (c.info "http_a_0").holders = [transaction 2 false] ∧
      (c.info "http_a_0").pendingTransactions = [transaction 3 true] ∧
      (c.info "http_a_0").grants ++ (c.info "http_a_0").pendingTransactions =
        writerWaits.filterMap (requested "http_a_0") := by
  obtain ⟨c, hc⟩ : ∃ c, run step writerWaits {} = some c := ⟨_, rfl⟩
  obtain ⟨hr, -, ho, -⟩ := locks_granted_in_order writerWaits hc "http_a_0"
  refine ⟨c, hc, ?_, ?_, ho.trans hr⟩
  · obtain rfl := Option.some.inj hc
    decide
  · obtain rfl := Option.some.inj hc
    decide

/-! ### Shutdown -/

theorem notify_eq (hs : c.isShuttingDown) (t : SQLTransactionBackend) :
    c.notifyDatabaseThreadIsShuttingDown t = some {c with notified := c.notified++[t]} := by
  simp [notifyDatabaseThreadIsShuttingDown,releaseLock,hs]

theorem foldlM_notify (hs : c.isShuttingDown) (l : List SQLTransactionBackend) :
    l.foldlM notifyDatabaseThreadIsShuttingDown c = some {c with notified := c.notified++l} := by
  induction l generalizing c with
  | nil => simp
  | cons t l ih =>
    rw [foldlM_cons,notify_eq hs]
    simpa using ih (c := {c with notified := c.notified++[t]}) hs

/-- A waiting transaction stays in the queue, so the loop over the queue does not end. -/
theorem notifyPending_eq_none (hs : c.isShuttingDown) (hp : (c.info d).pendingTransactions ≠ [])
    (fuel : ℕ) : notifyPending d fuel c = none := by
  induction fuel generalizing c with
  | zero => rfl
  | succ fuel ih =>
    obtain ⟨t,rest,hp'⟩ := exists_cons_of_ne_nil hp
    simp only [notifyPending,hp',notify_eq hs]
    exact ih hs hp

theorem foldlM_shutdownDatabase (hs : c.isShuttingDown)
    (hp : ∀ d ∈ ids, (c.info d).pendingTransactions = []) (fuel : ℕ) :
    ids.foldlM (shutdownDatabase · (fuel + 1)) c =
      some {c with notified := c.notified ++ ids.flatMap fun d => (c.info d).holders} := by
  induction ids generalizing c with
  | nil => simp
  | cons d ids ih =>
    obtain ⟨hd, hp⟩ := forall_mem_cons.mp hp
    rw [foldlM_cons, shutdownDatabase, foldlM_notify hs]
    simp only [Option.bind_eq_bind, Option.bind_some, notifyPending, hd]
    simpa using ih (c := {c with notified := c.notified ++ (c.info d).holders}) hs hp

theorem foldlM_shutdownDatabase_eq_none (hs : c.isShuttingDown) (hd : d ∈ ids)
    (hp : (c.info d).pendingTransactions ≠ []) (fuel : ℕ) :
    ids.foldlM (shutdownDatabase · fuel) c = none := by
  induction ids generalizing c with
  | nil => cases hd
  | cons e ids ih =>
    rw [foldlM_cons, shutdownDatabase, foldlM_notify hs, Option.bind_eq_bind, Option.bind_some]
    by_cases he : (c.info e).pendingTransactions = []
    · cases fuel with
      | zero => rfl
      | succ fuel =>
        have hne : d ≠ e := fun h => hp (h ▸ he)
        simp only [notifyPending, he, Option.bind_some]
        exact ih hs ((mem_cons.mp hd).resolve_left hne) hp
    · have hn := notifyPending_eq_none (c := {c with notified := c.notified ++ (c.info e).holders})
        hs he fuel
      rw [hn]
      rfl

theorem Follows.nodup_holders (h : c.Follows calls) :
    (c.identifiers.flatMap fun d => (c.info d).holders).Nodup := by
  have hone : ∀ d, (c.info d).holders.Nodup := by
    intro d
    have hi := h.settled d
    cases hw : (c.info d).activeWriteTransaction with
    | none => simpa [holders, hw] using hi.nodup
    | some w => simp [holders, hw, (hi.write w hw).2]
  have hid : ∀ d, ∀ t ∈ (c.info d).holders, t.databaseIdentifier = d := by
    intro d t ht
    refine h.mem_requests ?_
    rw [← (h.settled d).order]
    exact mem_append_left _ ((h.settled d).granted t (.inl ht))
  refine nodup_flatMap.mpr ⟨fun d _ => hone d, h.nodup.imp fun hne t ht ht' => hne ?_⟩
  rw [← hid _ t ht, ← hid _ t ht']

theorem Follows.mem_identifiers (h : c.Follows calls) {t : SQLTransactionBackend}
    (ht : t ∈ (c.info d).holders ++ (c.info d).pendingTransactions) : d ∈ c.identifiers := by
  refine h.listed d (ne_nil_of_mem (a := t) ?_)
  rw [← (h.settled d).order]
  rw [mem_append] at ht ⊢
  exact ht.imp_left fun ht => (h.settled d).granted t (.inl ht)

/-- After any calls the shutdown ends and notifies every transaction that has the lock or waits for it
once, if and only if no transaction waits. -/
theorem shutdown_notifies_iff (calls : List Call) (h : run step calls {} = some c) :
    (∃ fuel c', c.shutdown fuel = some c' ∧ c'.notified.Nodup ∧ ∀ t, t ∈ c'.notified ↔
      ∃ d, t ∈ (c.info d).holders ++ (c.info d).pendingTransactions) ↔
    ∀ d ∈ c.identifiers, (c.info d).pendingTransactions = [] := by
  have hf := follows_of_run h
  constructor
  · rintro ⟨fuel, c', hs, -⟩ d hd
    by_contra hp
    have he := foldlM_shutdownDatabase_eq_none (c := {c with isShuttingDown := true}) rfl hd hp fuel
    rw [shutdown, he] at hs
    cases hs
  · intro hp
    have he := foldlM_shutdownDatabase (c := {c with isShuttingDown := true}) rfl hp 0
    refine ⟨1, _, by rw [shutdown, he]; rfl, ?_, fun t => ?_⟩
    · simpa [hf.running.2] using hf.nodup_holders
    · simp only [hf.running.2, nil_append, mem_flatMap]
      constructor
      · rintro ⟨d, -, ht⟩
        exact ⟨d, mem_append_left _ ht⟩
      · rintro ⟨d, ht⟩
        have hd := hf.mem_identifiers ht
        rw [hp d hd, append_nil] at ht
        exact ⟨d, hd, ht⟩

/-- Two readers of one database and the writer of another one. -/
def threeHolders : List Call :=
  [.acquireLock (transaction 0 true), .acquireLock (transaction 1 true),
    .acquireLock ⟨2, "http_b_0", false⟩]

theorem shutdown_notifies_threeHolders : ∃ c fuel c', run step threeHolders {} = some c ∧
    c.shutdown fuel = some c' ∧ c'.notified.Nodup ∧ transaction 1 true ∈ c'.notified := by
  obtain ⟨c, hc⟩ : ∃ c, run step threeHolders {} = some c := ⟨_, rfl⟩
  have hp : (∀ d ∈ c.identifiers, (c.info d).pendingTransactions = []) ∧
      transaction 1 true ∈ (c.info "http_a_0").holders := by
    obtain rfl := Option.some.inj hc
    decide
  obtain ⟨fuel, c', hs, hn, hm⟩ := (shutdown_notifies_iff threeHolders hc).mpr hp.1
  exact ⟨c, fuel, c', hc, hs, hn, (hm _).mpr ⟨_, mem_append_left _ hp.2⟩⟩

/-- Of two transactions that write the second one waits, and the shutdown does not end. -/
theorem shutdown_of_waiting :
    ¬∃ fuel, (((acquireLock {} (transaction 0 false)).acquireLock (transaction 1 false)).shutdown
      fuel).isSome := by
  rintro ⟨fuel, h⟩
  have hd : "http_a_0" ∈
    ((acquireLock {} (transaction 0 false)).acquireLock (transaction 1 false)).identifiers := by decide
  rw [shutdown, foldlM_shutdownDatabase_eq_none rfl hd (by decide)] at h
  cases h

end SQLTransactionCoordinator

end QPlusWeb.WebSQL
