import QPlusWeb.StorageProtocol

/-!
# What is on the way between a process and the storage manager

The messages on the way to a process lead from the contents that the process has been told about to
the contents of the area, and they answer the oldest requests of the process in order.  A property
of one process and the contents of the area is proved for all runs of the system from what the steps
do to this process.
-/

namespace QPlusWeb.Storage

open MapUpdates Runs Message Option List

/-! ### Effects of requests and messages -/

def Request.storageMapSeed : Request → ℕ
  | .getValues seed => seed
  | .setItem _ seed _ _ => seed
  | .removeItem _ seed _ => seed
  | .clear _ seed => seed

/-- The change that a request asks for. -/
def Request.change : Request → Option (Change Text Text)
  | .getValues _ => none
  | .setItem _ _ key value => some (.put key (some value))
  | .removeItem _ _ key => some (.put key none)
  | .clear _ _ => some .clear

/-- The change that an event reports; a null key stands for all keys. -/
def eventChange (key newValue : Option Text) : Change Text Text :=
  match key with
  | none => .clear
  | some key => .put key newValue

variable (b : Contents Text Text)

def applyEvent : Option Event → Contents Text Text
  | none => b
  | some event => (eventChange event.key event.newValue).apply b

/-- The contents after the request that a message answers; with a quota error nothing is changed. -/
def Message.settle (r : Request) : Message → Contents Text Text
  | .didSetItem _ _ true => b
  | _ =>
    match r.change with
    | none => b
    | some c => c.apply b

/-- A message is received with the contents known so far and the requests that are not answered. -/
def Message.replay (unanswered : List Request) :
    Message → Option (Contents Text Text × List Request)
  | .dispatchStorageEvent sourceStorageAreaID key newValue =>
    some (if sourceStorageAreaID = 0 then (eventChange key newValue).apply b else b, unanswered)
  | .clearCache => some (.empty, unanswered)
  | m =>
    match unanswered with
    | [] => none
    | r :: rest => if m.answers r then some (m.settle b r, rest) else none

def replayAll (b : Contents Text Text) (unanswered : List Request) :
    List Message → Option (Contents Text Text × List Request)
  | [] => some (b, unanswered)
  | m :: messages => (m.replay b unanswered).bind fun next => replayAll next.1 next.2 messages

section Replay
variable {b b' s : Contents Text Text} {R R' U : List Request} {D D' : List Message} {m : Message}

theorem replayAll_append (h : replayAll b R D = some (b',R')) :
    replayAll b R (D++D') = replayAll b' R' D' := by
  induction D generalizing b R with
  | nil =>
    cases h
    rfl
  | cons m D ih =>
    obtain ⟨next,hn,hr⟩ := bind_eq_some_iff.mp h
    rw [cons_append,replayAll,hn]
    exact ih hr

theorem Message.replay_append_requests (h : m.replay b R = some (b',R')) (rs : List Request) :
    m.replay b (R++rs) = some (b',R'++rs) := by
  cases m with
  | dispatchStorageEvent id key newValue | clearCache =>
    cases h
    rfl
  | didGetValues seed | didSetItem seed key quotaError | didRemoveItem seed key | didClear seed =>
    cases R with
    | nil => cases h
    | cons r R =>
      simp only [replay,cons_append] at h ⊢
      split at h
      next ha =>
        cases h
        rw [if_pos ha]
      next => cases h

/-- Requests that are sent later are answered later. -/
theorem replayAll_append_requests (h : replayAll b R D = some (s,U)) (rs : List Request) :
    replayAll b (R++rs) D = some (s,U++rs) := by
  induction D generalizing b R with
  | nil =>
    cases h
    rfl
  | cons m D ih =>
    obtain ⟨⟨b',R'⟩,hn,hr⟩ := bind_eq_some_iff.mp h
    rw [replayAll,replay_append_requests hn rs]
    exact ih hr

theorem replay_cases (h : m.replay b R = some (b',R')) :
    ((∃ id key newValue, m = .dispatchStorageEvent id key newValue ∧
        b' = if id = 0 then (eventChange key newValue).apply b else b) ∧ R' = R) ∨
      ((m = .clearCache ∧ b' = .empty) ∧ R' = R) ∨
      ∃ r, R = r::R' ∧ m.answers r ∧ b' = m.settle b r := by
  cases m with
  | dispatchStorageEvent id key newValue =>
    cases h
    exact .inl ⟨⟨id,key,newValue,rfl,rfl⟩,rfl⟩
  | clearCache =>
    cases h
    exact .inr (.inl ⟨⟨rfl,rfl⟩,rfl⟩)
  | didGetValues seed | didSetItem seed key quotaError | didRemoveItem seed key | didClear seed =>
    cases R with
    | nil => cases h
    | cons r R =>
      simp only [replay] at h
      split at h
      next ha =>
        cases h
        exact .inr (.inr ⟨r,rfl,ha,rfl⟩)
      next => cases h

/-- A message and the request it answers. -/
inductive Answers : Message → Request → Prop
  | getValues (seed) : Answers (.didGetValues seed) (.getValues seed)
  | setItem (id seed key value quotaError) :
    Answers (.didSetItem seed key quotaError) (.setItem id seed key value)
  | removeItem (id seed key) : Answers (.didRemoveItem seed key) (.removeItem id seed key)
  | clear (id seed) : Answers (.didClear seed) (.clear id seed)

theorem answers_cases {r : Request} (h : m.answers r) : Answers m r := by
  unfold answers at h
  split at h
  next seed seed' =>
    obtain rfl : seed = seed' := of_decide_eq_true h
    exact .getValues seed
  next seed key quotaError id seed' key' value =>
    obtain ⟨rfl,rfl⟩ : seed = seed' ∧ key = key' := of_decide_eq_true h
    exact .setItem ..
  next seed key id seed' key' =>
    obtain ⟨rfl,rfl⟩ : seed = seed' ∧ key = key' := of_decide_eq_true h
    exact .removeItem id seed key
  next seed id seed' =>
    obtain rfl : seed = seed' := of_decide_eq_true h
    exact .clear id seed
  next => cases h

/-- The answer of a process is the answer to its oldest request. -/
theorem eraseP_answers (h : m.replay b R = some (b',R')) : R.eraseP m.answers = R' := by
  rcases replay_cases h with ⟨⟨id,key,newValue,rfl,-⟩,rfl⟩ | ⟨⟨rfl,-⟩,rfl⟩ |
    ⟨r,rfl,ha,-⟩
  · exact eraseP_of_forall_not fun r _ => Bool.false_ne_true
  · exact eraseP_of_forall_not fun r _ => Bool.false_ne_true
  · exact eraseP_cons_of_pos ha

end Replay

/-! ### The storage manager -/

section
variable {a : StorageArea} {s : Contents Text Text}

/-- What an area does for a request: the event and the answer tell what has changed. -/
structure Handled (s : Contents Text Text) (r : Request) (a : StorageArea) (event : Option Event)
    (answer : Message) : Prop where
  holds : a.storageMap.Holds (applyEvent s event)
  answers : answer.answers r = true
  settle : answer.settle s r = applyEvent s event
  source : event ≠ none → r.sourceStorageAreaID ≠ 0

section
variable (h : a.storageMap.Holds s) (id : ℕ+) (seed : ℕ)
include h

theorem handled_setItem (key value : Text) :
    Handled s (.setItem id seed key value) (a.setItem key value).1 (a.setItem key value).2.1
      (.didSetItem seed key (a.setItem key value).2.2) := by
  have ha : ∀ quotaError, (didSetItem seed key quotaError).answers
      (.setItem id seed key value) := fun _ => decide_eq_true ⟨rfl,rfl⟩
  unfold StorageArea.setItem
  split
  next => exact ⟨h,ha true,rfl,fun hne => absurd rfl hne⟩
  next hq =>
    have hi := StorageMap.items_setItem (Bool.eq_false_of_not_eq_true hq)
    exact ⟨h.put (StorageMap.puts_of_insert hi),ha false,rfl,fun _ => id.ne_zero⟩

theorem handled_removeItem (key : Text) :
    Handled s (.removeItem id seed key) (a.removeItem key).1 (a.removeItem key).2
      (.didRemoveItem seed key) := by
  have ha : (didRemoveItem seed key).answers (.removeItem id seed key) :=
    decide_eq_true ⟨rfl,rfl⟩
  have herase := h.put (a.storageMap.puts_removeItem key)
  unfold StorageArea.removeItem
  split
  next hold =>
    have hn : s key = none := (h.getItem key).symm.trans hold
    rw [Change.put_self hn] at herase
    exact ⟨herase,ha,Change.put_self hn,fun hne => absurd rfl hne⟩
  next => exact ⟨herase,ha,rfl,fun _ => id.ne_zero⟩

theorem handled_clear : Handled s (.clear id seed) a.clear.1 a.clear.2 (.didClear seed) := by
  have ha : (didClear seed).answers (.clear id seed) := decide_eq_true rfl
  unfold StorageArea.clear
  split
  next hl =>
    have hempty : s = .empty := funext fun k => h.eq_empty hl k
    exact ⟨h,ha,hempty.symm,fun hne => absurd rfl hne⟩
  next => exact ⟨StorageMap.holds_create _,ha,rfl,fun _ => id.ne_zero⟩

end

theorem StorageArea.handled_handle (h : a.storageMap.Holds s) (r : Request) :
    Handled s r (a.handle r).1 (a.handle r).2.1 (a.handle r).2.2 := by
  cases r with
  | getValues seed => exact ⟨h,decide_eq_true rfl,rfl,fun hne => absurd rfl hne⟩
  | setItem id seed key value => exact handled_setItem h id seed key value
  | removeItem id seed key => exact handled_removeItem h id seed key
  | clear id seed => exact handled_clear h id seed

end

/-! ### Links -/

/-- The messages on the way lead from the contents `b` to the contents `s` of the area. -/
def Process.Linked (s b : Contents Text Text) (p : Process) : Prop :=
  replayAll b p.unanswered p.messages = some (s, p.requests)

section
variable {p : Process} {s b : Contents Text Text} {event : Option Event} (call : LocalCall)

theorem linked_create (s : Contents Text Text) (quotaInBytes : ℕ) :
    Process.Linked s s ⟨.create quotaInBytes,[],[],none,[]⟩ := rfl

section
variable (h : p.Linked s b)
include h

theorem Process.Linked.perform : (p.perform call).Linked s b := replayAll_append_requests h _

theorem Process.Linked.resume (values : Items) : ((p.resumed values).perform call).Linked s b :=
  replayAll_append_requests h _

theorem Process.Linked.begin : (p.begin call).Linked s b := by
  unfold Process.begin
  split
  next => exact replayAll_append_requests h _
  next => exact h.perform call

theorem Process.Linked.deliver {m : Message} {rest : List Message} (hm : p.messages = m::rest) :
    ∃ b', m.replay b p.unanswered = some (b',(p.deliver m rest).unanswered) ∧
      (p.deliver m rest).Linked s b' := by
  unfold Process.Linked at h
  rw [hm] at h
  obtain ⟨⟨b',R'⟩,hn,hr⟩ := bind_eq_some_iff.mp h
  have hR' : (p.deliver m rest).unanswered = R' := eraseP_answers hn
  refine ⟨b',hR' ▸ hn,?_⟩
  unfold Process.Linked
  rw [hR']
  exact hr

theorem Process.Linked.answered {r : Request} {rest : List Request} {a : StorageArea}
    {answer : Message} (hr : p.requests = r::rest)
    (hh : Handled s r a event answer) (items : Items) :
    (p.answered items r rest event answer).Linked (applyEvent s event) b := by
  have hevent : replayAll s (r::rest) (eventMessages r.sourceStorageAreaID event) =
      some (s,r::rest) := by
    cases event with
    | none => rfl
    | some event =>
      have hs := hh.source (some_ne_none event)
      simp only [eventMessages,replayAll,replay,if_neg hs]
      rfl
  have hans : replayAll s (r::rest) [answer] = some (applyEvent s event,rest) := by
    rw [← hh.settle]
    have ha := hh.answers
    cases answer with
    | dispatchStorageEvent id key newValue | clearCache => cases ha
    | didGetValues seed | didSetItem seed key quotaError | didRemoveItem seed key | didClear seed =>
      simp only [replayAll,replay,ha,if_true]
      rfl
  unfold Process.Linked at h ⊢
  rw [hr] at h
  exact (replayAll_append ((replayAll_append h).trans hevent)).trans hans

theorem Process.Linked.informed (event : Option Event) :
    (p.informed (eventMessages 0 event)).Linked (applyEvent s event) b := by
  refine (replayAll_append h).trans ?_
  cases event with
  | none | some event => rfl

theorem Process.Linked.cleared : (p.informed [.clearCache]).Linked .empty b := replayAll_append h

end

end

/-! ### Properties of one process -/

/-- A property of a process and the contents of the area that every step keeps; `ok` restricts the
deliveries of messages. -/
structure ProcessInvariant (ok : Process → Prop) (P : Contents Text Text → Process → Prop) :
    Prop where
  initial : ∀ s quotaInBytes, P s ⟨.create quotaInBytes, [], [], none, []⟩
  begin : ∀ s p call, P s p → p.call = none → P s (p.begin call)
  resume : ∀ s p call values, P s p → p.call = some (call, some values) →
    P s ((p.resumed values).perform call)
  deliver : ∀ s p m rest, P s p → ok p → p.call = none → p.messages = m :: rest →
    P s (p.deliver m rest)
  answered : ∀ s p r rest a event answer items, P s p → p.requests = r :: rest →
    Handled s r a event answer → (∀ k, items.lookup k = (s k).map some) →
    P (applyEvent s event) (p.answered items r rest event answer)
  informed : ∀ s p event, P s p → P (applyEvent s event) (p.informed (eventMessages 0 event))
  cleared : ∀ s p, P s p → P .empty (p.informed [.clearCache])

/-- The deliveries of a run that `ok` allows. -/
def Delivers {ι : Type*} (ok : Process → Prop) (σ : System ι) : Action ι → Prop
  | .deliver i => ok (σ.process i)
  | _ => True

instance {ι : Type*} {ok : Process → Prop} [DecidablePred ok] (σ : System ι) (a : Action ι) :
    Decidable (Delivers ok σ a) :=
  match a with
  | .deliver i => inferInstanceAs (Decidable (ok (σ.process i)))
  | .call .. | .resume _ | .handleRequest _ | .deleteEntries => .isTrue trivial

section
variable {ι : Type*} [DecidableEq ι] {ok : Process → Prop} {σ σ' : System ι}
  {P : Contents Text Text → Process → Prop}

/-- All processes have the property for the contents of the area. -/
def System.Satisfies (P : Contents Text Text → Process → Prop) (σ : System ι) : Prop :=
  ∃ s, σ.area.storageMap.Holds s ∧ ∀ i, P s (σ.process i)

theorem System.Satisfies.update (h : σ.Satisfies P) {i : ι} {p : Process}
    (hp : ∀ s, P s (σ.process i) → P s p) :
    System.Satisfies P {σ with process := Function.update σ.process i p} := by
  obtain ⟨s,hs,ha⟩ := h
  refine ⟨s,hs,fun j => ?_⟩
  by_cases hj : j = i
  · subst hj
    simp only [Function.update_self]
    exact hp s (ha j)
  · simp only [Function.update_of_ne hj]
    exact ha j

theorem ProcessInvariant.handle (h : ProcessInvariant ok P) (hσ : σ.Satisfies P) {i : ι}
    {r : Request} {rest : List Request} (hr : (σ.process i).requests = r::rest) :
    (σ.handle i r rest).Satisfies P := by
  obtain ⟨s,hs,ha⟩ := hσ
  have hh := StorageArea.handled_handle hs r
  refine ⟨_,hh.holds,fun j => ?_⟩
  by_cases hj : j = i
  · subst hj
    have hown := h.answered s _ r rest _ _ _ σ.area.storageMap.items (ha j) hr hh hs
    simpa only [System.handle,if_true] using hown
  · have ho := h.informed s _ (σ.area.handle r).2.1 (ha j)
    simpa only [System.handle,if_neg hj] using ho

theorem ProcessInvariant.step (h : ProcessInvariant ok P) (hσ : σ.Satisfies P) {a : Action ι}
    (hok : Delivers ok σ a) (hs : σ.step a = some σ') : σ'.Satisfies P := by
  cases a with
  | call i call =>
    simp only [System.step] at hs
    split at hs
    next => cases hs
    next hc =>
      cases hs
      exact hσ.update fun s hp => h.begin s _ call hp hc
  | resume i =>
    simp only [System.step] at hs
    split at hs
    next call values hc =>
      cases hs
      exact hσ.update fun s hp => h.resume s _ call values hp hc
    next => cases hs
  | handleRequest i =>
    simp only [System.step] at hs
    split at hs
    next => cases hs
    next r rest hr =>
      cases hs
      exact h.handle hσ hr
  | deliver i =>
    simp only [System.step] at hs
    split at hs
    next m rest hc hm =>
      cases hs
      exact hσ.update fun s hp => h.deliver s _ m rest hp hok hc hm
    next => cases hs
  | deleteEntries =>
    cases hs
    obtain ⟨s,-,ha⟩ := hσ
    exact ⟨.empty,StorageMap.holds_create _,fun i => h.cleared s _ (ha i)⟩

omit [DecidableEq ι] in
theorem ProcessInvariant.start (h : ProcessInvariant ok P) (hσ : σ.Initial) : σ.Satisfies P := by
  refine ⟨_,StorageMap.holds_getItem hσ.items,fun i => ?_⟩
  obtain ⟨quotaInBytes,hp⟩ := hσ.process i
  rw [hp]
  exact h.initial _ quotaInBytes

theorem ProcessInvariant.reaches (h : ProcessInvariant ok P)
    (hσ : Reaches System.step (Delivers ok) System.Initial σ) : σ.Satisfies P :=
  hσ.invariant (fun _ => h.start) fun _ _ _ hP hok hs => h.step hP hok hs

end

end QPlusWeb.Storage
