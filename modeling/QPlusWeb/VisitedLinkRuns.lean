import QPlusWeb.VisitedLinkSteps

/-!
# No visited link is lost

In every run in which the larger table can always be created, each link that has been added is pending
or in the table, and the table stays half empty.
-/

namespace QPlusWeb.VisitedLinks.VisitedLinkProvider

open WTF Runs VisitedLinkTable List Option

variable {κ : Type*} {s t : VisitedLinkProvider κ} {page : PageSize} {memory : List LinkHash}
  {m : ℕ} {a : Action κ}

/-! ### The invariant -/

/-- The slots of the current table. -/
def slots (s : VisitedLinkProvider κ) : List LinkHash := s.table.sharedMemory.getD []

/-- There is no table yet, or one of the size that the provider remembers. -/
def Stored (s : VisitedLinkProvider κ) : Prop :=
  s.table.sharedMemory = none ∧ s.tableSize = 0 ∨
    ∃ memory m, s.table.Holds memory m ∧ s.tableSize.toNat = 2 ^ m

theorem slots_eq (h : s.table.Holds memory m) : s.slots = memory := by
  rw [slots,h.sharedMemory_eq,getD_some]

structure Consistent (s : VisitedLinkProvider κ) : Prop where
  pending_inv : HashTable.Inv linkHashTraits s.pendingVisitedLinks
  kept : ∀ l ∈ s.added, l ∈ pendingLinks s.pendingVisitedLinks ∨ l ∈ s.slots
  added_of_pending : ∀ l ∈ pendingLinks s.pendingVisitedLinks, l ∈ s.added
  added_of_slot : ∀ l ∈ s.slots, l ≠ 0 → l ∈ s.added
  added_ne_zero : ∀ l ∈ s.added, l ≠ 0
  stored : s.Stored
  occupied_le : occupied s.slots ≤ s.keyCount.toNat
  keyCount_le : 2 * s.keyCount.toNat ≤ s.tableSize.toNat
  foundDuplicate_eq : s.foundDuplicate = false
  active : pendingLinks s.pendingVisitedLinks ≠ [] → s.timerIsActive = true

theorem consistent_create : Consistent (create : VisitedLinkProvider κ) where
  pending_inv := HashTable.init_inv
  kept := nofun
  added_of_pending := nofun
  added_of_slot := nofun
  added_ne_zero := nofun
  stored := .inl ⟨rfl,rfl⟩
  occupied_le := le_rfl
  keyCount_le := le_rfl
  foundDuplicate_eq := rfl
  active := fun h => (h rfl).elim

theorem Consistent.addVisitedLink (h : Consistent s) {linkHash : LinkHash}
    (hk : linkHashTraits.IsKey linkHash) :
    ∃ t, s.addVisitedLink linkHash = some t ∧ Consistent t := by
  obtain ⟨r,ha,hi,hm⟩ := add_pendingLinks h.pending_inv hk
  refine ⟨{s with
    pendingVisitedLinks := r.table
    timerIsActive := true
    added := s.added++[linkHash]},?_,?_⟩
  · simp [VisitedLinkProvider.addVisitedLink,ha]
  refine {h with
    pending_inv := hi
    kept := ?kept
    added_of_pending := ?added_of_pending
    added_of_slot := fun l hl hne => mem_append_left _ (h.added_of_slot l hl hne)
    added_ne_zero := ?added_ne_zero
    active := fun _ => rfl}
  case kept =>
    exact forall_mem_append.mpr ⟨fun l hl => (h.kept l hl).imp_left fun hp => (hm l).mpr (.inr hp),
        forall_mem_singleton.mpr (.inl ((hm _).mpr (.inl rfl)))⟩
  case added_of_pending =>
    intro l hl
    rcases (hm l).mp hl with rfl | hl
    · exact mem_append_right _ mem_cons_self
    · exact mem_append_left _ (h.added_of_pending l hl)
  case added_ne_zero =>
    exact forall_mem_append.mpr
      ⟨h.added_ne_zero,forall_mem_singleton.mpr (linkHashTraits_isKey.mp hk).1⟩

/-! ### Processes -/

/-- The two states differ in what has to do with processes only. -/
structure SameLinks (s t : VisitedLinkProvider κ) : Prop where
  keyCount : t.keyCount = s.keyCount
  tableSize : t.tableSize = s.tableSize
  table : t.table = s.table
  pendingVisitedLinks : t.pendingVisitedLinks = s.pendingVisitedLinks
  timerIsActive : t.timerIsActive = s.timerIsActive
  added : t.added = s.added
  foundDuplicate : t.foundDuplicate = s.foundDuplicate

theorem SameLinks.consistent (hs : SameLinks s t) (h : Consistent s) : Consistent t := by
  cases t
  obtain ⟨rfl,rfl,rfl,rfl,rfl,rfl,rfl⟩ := hs
  exact {h with}

theorem SameLinks.notifyProcesses [DecidableEq κ] (h : SameLinks s t) (grown : Bool)
    (addedVisitedLinks : List LinkHash) : SameLinks s (t.notifyProcesses grown addedVisitedLinks) :=
      by
  cases grown <;> exact {h with}

theorem SameLinks.sendTable [DecidableEq κ] (h : SameLinks s t) (createsHandle : κ → Bool)
    (processes : List κ) : SameLinks s (sendTable createsHandle processes t) := by
  induction processes generalizing t with
  | nil => exact {h with}
  | cons process processes ih =>
    unfold VisitedLinkProvider.sendTable
    split
    · exact h
    · exact ih {h with}

/-! ### The timer -/

theorem newTableSize_spec (page : PageSize) (h : Consistent s)
    (hc : s.keyCount.toNat+(pendingLinks s.pendingVisitedLinks).length ≤ 2^30) :
    ∃ m ≤ 31, (s.newTableSize page).toNat = 2^m ∧
      2*(s.keyCount.toNat+(pendingLinks s.pendingVisitedLinks).length) ≤ 2^m := by
  have hsum : (s.keyCount+UInt32.ofNat (pendingLinks s.pendingVisitedLinks).length).toNat =
      s.keyCount.toNat+(pendingLinks s.pendingVisitedLinks).length := by
    rw [UInt32.toNat_add,UInt32.toNat_ofNat',Nat.add_mod_mod]
    omega
  obtain ⟨m,hm,hs,hle⟩ := tableSizeForKeyCount_spec page (hsum.trans_le hc)
  rw [hsum] at hle
  by_cases hmax : s.tableSize ≤ tableSizeForKeyCount page
      (s.keyCount+UInt32.ofNat (pendingLinks s.pendingVisitedLinks).length)
  · refine ⟨m,hm,?_,hle⟩
    rw [← hs]
    exact congrArg UInt32.toNat (if_pos hmax)
  · have hn : s.newTableSize page = s.tableSize := if_neg hmax
    rw [UInt32.le_iff_toNat_le,hs] at hmax
    rcases h.stored with ⟨-,hz⟩ | ⟨memory,m',hh,ht⟩
    · rw [hz] at hmax
      exact (hmax (Nat.zero_le _)).elim
    · exact ⟨m',hh.sound.exponent_le,hn ▸ ht,by omega⟩

/-- The table in which the pending links find room. -/
structure Ready (s : VisitedLinkProvider κ) (memory : List LinkHash) (m : ℕ) : Prop where
  holds : s.table.Holds memory m
  tableSize_eq : s.tableSize.toNat = 2 ^ m
  occupied_le : occupied memory ≤ s.keyCount.toNat

/-- All hashes of the old table are new in the larger one. -/
theorem growTable_spec (hs : s.Stored) (ho : occupied s.slots ≤ s.keyCount.toNat)
    {size : UInt32} (hm : m ≤ 31) (hsize : size.toNat = 2^m)
    (hr : 2*s.keyCount.toNat ≤ 2^m) :
    ∃ table memory, s.growTable size = some {s with table := table, tableSize := size} ∧
      table.Holds memory m ∧ occupied memory ≤ s.keyCount.toNat ∧
      ∀ l ≠ 0, l ∈ memory ↔ l ∈ s.slots := by
  have hc : (s.slots.filter (· ≠ 0)).length ≤ s.keyCount.toNat := by
    rwa [occupied,countP_eq_length_filter] at ho
  have he : occupied (List.replicate (2^m) 0) = 0 := by simp [occupied]
  obtain ⟨table,memory,added,ha,hh,hext,hocc',hall⟩ := addLinkHashes_spec
    (holds_setSharedMemory hm) (s.slots.filter (· ≠ 0))
    (by rw [he,length_replicate]; omega)
    (fun l hl => of_decide_eq_true (mem_filter.mp hl).2)
  have hf : ∀ l ∈ s.slots.filter (· ≠ 0), l ∉ List.replicate (2^m) (0 : LinkHash) := by
    intro l hl hmem
    exact of_decide_eq_true (mem_filter.mp hl).2 (eq_of_mem_replicate hmem)
  have hn : (s.slots.filter (· ≠ 0)).Nodup := by
    rcases hs with ⟨hnone,-⟩ | ⟨memory,m,hh,-⟩
    · rw [slots,hnone]
      exact nodup_nil
    · rw [slots_eq hh]
      exact hh.sound.nodup_filter
  have hadded := hall hn hf
  refine ⟨table,memory,?_,hh,by omega,fun l hl => ?_⟩
  · rw [hadded] at ha
    unfold growTable
    rw [hsize]
    simp only [slots] at ha
    simp only [ha,map_some,ne_eq,not_true_eq_false,decide_false,Bool.or_false]
  · rw [hext.mem_iff l hl,mem_filter,decide_eq_true_iff]
    constructor
    · rintro (hmem | hmem)
      · exact hmem.1
      · exact (hl (eq_of_mem_replicate hmem)).elim
    · exact fun hmem => .inl ⟨hmem,hl⟩

/-- The pending links are moved in a state that has their table and everything else of `s`. -/
theorem Consistent.movePendingLinks [DecidableEq κ] (h : Consistent s) {u : VisitedLinkProvider κ}
    (hr : u.Ready memory m)
    (hu : {u with table := s.table, tableSize := s.tableSize} = {s with
      pendingVisitedLinks := s.pendingVisitedLinks.clear
      timerIsActive := false})
    (hmem : ∀ l ≠ 0, l ∈ memory ↔ l ∈ s.slots)
    (hroom : 2*(s.keyCount.toNat+(pendingLinks s.pendingVisitedLinks).length) ≤ 2^m)
    (grown : Bool) (createsHandle : κ → Bool) :
    ∃ t, u.movePendingLinks (pendingLinks s.pendingVisitedLinks) grown createsHandle = some t ∧
      Consistent t := by
  have hkeyCount : u.keyCount = s.keyCount := congrArg (·.keyCount) hu
  have hlen := hr.holds.sound.length_eq
  have ho := hr.occupied_le
  rw [hkeyCount] at ho
  have hp : 2^m ≤ 2^31 := Nat.pow_le_pow_right (by omega) hr.holds.sound.exponent_le
  obtain ⟨table,memory',added,hadd,hh,he,hocc',-⟩ := addLinkHashes_spec hr.holds
    (pendingLinks s.pendingVisitedLinks) (by omega)
    (fun l hl => h.added_ne_zero l (h.added_of_pending l hl))
  let moved : VisitedLinkProvider κ := {u with
    table := table
    keyCount := u.keyCount+UInt32.ofNat (pendingLinks s.pendingVisitedLinks).length}
  have hk : moved.keyCount.toNat =
      s.keyCount.toNat+(pendingLinks s.pendingVisitedLinks).length := by
    change (u.keyCount+UInt32.ofNat _).toNat = _
    rw [hkeyCount,UInt32.toNat_add,UInt32.toNat_ofNat',Nat.add_mod_mod]
    omega
  have hs : moved.slots = memory' := slots_eq hh
  have hn : pendingLinks moved.pendingVisitedLinks = [] :=
    (congrArg (pendingLinks ·.pendingVisitedLinks) hu).trans (pendingLinks_clear h.pending_inv)
  have ha : moved.added = s.added := congrArg (·.added) hu
  have hmem' : ∀ l ≠ 0, l ∈ moved.slots ↔ l ∈ pendingLinks s.pendingVisitedLinks ∨ l ∈ s.slots := by
    intro l hl
    rw [hs,he.mem_iff l hl,hmem l hl]
  have hsame : SameLinks moved moved := ⟨rfl,rfl,rfl,rfl,rfl,rfl,rfl⟩
  refine ⟨_,by simp only [VisitedLinkProvider.movePendingLinks,hadd,map_some]; rfl,
    ((hsame.notifyProcesses grown added).sendTable createsHandle _).consistent ?_⟩
  constructor
  case pending_inv =>
    have hc : moved.pendingVisitedLinks = s.pendingVisitedLinks.clear :=
      congrArg (·.pendingVisitedLinks) hu
    exact hc ▸ h.pending_inv.clear_spec.1
  case kept =>
    intro l hl
    rw [ha] at hl
    exact .inr ((hmem' l (h.added_ne_zero l hl)).mpr (h.kept l hl))
  case added_of_pending =>
    rw [hn]
    exact nofun
  case added_of_slot =>
    intro l hl hne
    rw [ha]
    exact ((hmem' l hne).mp hl).elim (h.added_of_pending l) fun hslot => h.added_of_slot l hslot hne
  case added_ne_zero => exact ha ▸ h.added_ne_zero
  case stored => exact .inr ⟨memory',m,hh,hr.tableSize_eq⟩
  case occupied_le =>
    rw [hs]
    omega
  case keyCount_le =>
    rw [hk]
    exact hroom.trans_eq hr.tableSize_eq.symm
  case foundDuplicate_eq => exact (congrArg (·.foundDuplicate) hu).trans h.foundDuplicate_eq
  case active => exact fun hne => (hne hn).elim

theorem Consistent.timerFired [DecidableEq κ] (h : Consistent s) (outcome : MemoryOutcome κ)
    (hc : s.keyCount.toNat+(pendingLinks s.pendingVisitedLinks).length ≤ 2^30)
    (hmemory : s.tableSize ≠ s.newTableSize page → outcome.createsMemory) :
    ∃ t, s.pendingVisitedLinksTimerFired page outcome = some t ∧ Consistent t := by
  obtain ⟨m,hm,hs,hroom⟩ := newTableSize_spec page h hc
  have ho := h.occupied_le
  let taken : VisitedLinkProvider κ :=
    {s with pendingVisitedLinks := s.pendingVisitedLinks.clear, timerIsActive := false}
  by_cases hsame : s.tableSize = s.newTableSize page
  · rw [← hsame] at hs
    obtain ⟨memory,hh⟩ : ∃ memory, s.table.Holds memory m := by
      rcases h.stored with ⟨-,hz⟩ | ⟨memory,m',hh,hsize'⟩
      · rw [hz] at hs
        exact ((Nat.two_pow_pos m).ne hs).elim
      · have hmm : m' = m := Nat.pow_right_injective (le_refl 2) (hsize'.symm.trans hs)
        exact ⟨memory,hmm ▸ hh⟩
    have hslots : s.slots = memory := slots_eq hh
    have hr : taken.Ready memory m := ⟨hh,hs,by rwa [hslots] at ho⟩
    obtain ⟨t,hmove,ht⟩ := h.movePendingLinks hr rfl (fun l _ => by rw [hslots]) hroom false
      outcome.createsHandle
    refine ⟨t,?_,ht⟩
    rw [← hmove]
    exact if_pos hsame
  · have hroom' : 2*s.keyCount.toNat ≤ 2^m := by omega
    obtain ⟨table,memory,hg,hh,hocc',hmem⟩ := growTable_spec (s := taken) h.stored ho hm hs hroom'
    have hr : ({taken with table := table, tableSize := s.newTableSize page} :
        VisitedLinkProvider κ).Ready memory m := ⟨hh,hs,hocc'⟩
    obtain ⟨t,hmove,ht⟩ := h.movePendingLinks hr rfl hmem hroom true outcome.createsHandle
    refine ⟨t,?_,ht⟩
    unfold pendingVisitedLinksTimerFired
    rw [if_neg hsame,hmemory hsame]
    rw [hg]
    exact hmove

/-! ### Runs -/

/-- The hash is none of the two that the set cannot hold, the keys are at most `2 ^ 30`, and the
memory of a larger table can be created. -/
def Careful (page : PageSize) (s : VisitedLinkProvider κ) : Action κ → Prop
  | .addVisitedLink linkHash => linkHash ≠ 0 ∧ linkHash ≠ -1
  | .timerFires outcome =>
    s.keyCount.toNat + (pendingLinks s.pendingVisitedLinks).length ≤ 2 ^ 30 ∧
      (s.tableSize ≠ s.newTableSize page → outcome.createsMemory = true)
  | .processDidFinishLaunching _ | .processDidClose _ => True

instance (page : PageSize) (s : VisitedLinkProvider κ) (a : Action κ) :
    Decidable (Careful page s a) :=
  match a with
  | .addVisitedLink linkHash => inferInstanceAs (Decidable (linkHash ≠ 0 ∧ linkHash ≠ -1))
  | .timerFires outcome =>
    inferInstanceAs (Decidable (s.keyCount.toNat + (pendingLinks s.pendingVisitedLinks).length ≤
      2 ^ 30 ∧ (s.tableSize ≠ s.newTableSize page → outcome.createsMemory = true)))
  | .processDidFinishLaunching _ | .processDidClose _ => inferInstanceAs (Decidable True)

/-- The timer fires only if it is active. -/
def Possible (s : VisitedLinkProvider κ) : Action κ → Prop
  | .timerFires _ => s.timerIsActive = true
  | _ => True

theorem Consistent.exists_step [DecidableEq κ] (h : Consistent s)
    (ha : Careful page s a) (hp : s.Possible a) :
    ∃ t, step page s a = some t ∧ Consistent t := by
  cases a with
  | addVisitedLink linkHash => exact h.addVisitedLink (linkHashTraits_isKey.mpr ha)
  | timerFires outcome =>
    obtain ⟨t,hf,ht⟩ := h.timerFired outcome ha.1 ha.2
    exact ⟨t,(if_pos hp).trans hf,ht⟩
  | processDidFinishLaunching process =>
    exact ⟨_,rfl,{h with active := fun hne => Bool.or_eq_true_iff.mpr (.inl (h.active hne))}⟩
  | processDidClose process =>
    exact ⟨_,rfl,{h with}⟩

theorem possible_of_step [DecidableEq κ] (hs : step page s a = some t) : s.Possible a := by
  cases a with
  | timerFires outcome =>
    by_contra hi
    have hn : step page s (.timerFires outcome) = none := if_neg hi
    rw [hn] at hs
    cases hs
  | _ => trivial

theorem reaches_consistent [DecidableEq κ]
    (h : Reaches (step page) (Careful page) (· = create) s) : Consistent s := by
  refine Reaches.invariant ?_ ?_ h
  · rintro s rfl
    exact consistent_create
  · intro s a t hs ha hstep
    obtain ⟨t',hstep',ht'⟩ := hs.exists_step ha (possible_of_step hstep)
    rw [hstep'] at hstep
    exact Option.some.inj hstep ▸ ht'

theorem Stored.length_slots (h : s.Stored) : s.slots.length = s.tableSize.toNat := by
  rcases h with ⟨hn,hz⟩ | ⟨memory,m,hh,hs⟩
  · rw [slots,hn,hz]
    rfl
  · rw [slots_eq hh,hh.sound.length_eq,hs]

theorem Consistent.exists_holds (h : Consistent s) (hm : s.table.sharedMemory ≠ none) :
    ∃ m, s.table.Holds s.slots m ∧ occupied s.slots < s.slots.length := by
  have ho := h.occupied_le
  have hk := h.keyCount_le
  rcases h.stored with ⟨hn,-⟩ | ⟨memory,m,hh,hs⟩
  · exact (hm hn).elim
  · have hp := Nat.two_pow_pos m
    rw [slots_eq hh] at ho ⊢
    exact ⟨m,hh,by rw [hh.sound.length_eq]; omega⟩

theorem Consistent.isLinkVisited_spec (h : Consistent s) (linkHash : LinkHash) :
    ∃ visited, s.table.isLinkVisited linkHash = some visited ∧
      (visited ↔ linkHash ≠ 0 ∧ linkHash ∈ s.slots) := by
  by_cases hn : s.table.sharedMemory = none
  · refine ⟨false,?_,by simp,fun hm => ?_⟩
    · rw [isLinkVisited,hn]
    · rw [slots,hn] at hm
      exact absurd hm.2 (by simp)
  · obtain ⟨m,hh,hr⟩ := h.exists_holds hn
    exact hh.isLinkVisited_spec hr linkHash

theorem Consistent.addLinkHash_returns (h : Consistent s) (hm : s.table.sharedMemory ≠ none)
    (linkHash : LinkHash) : (s.table.addLinkHash linkHash).isSome := by
  obtain ⟨m,hh,hr⟩ := h.exists_holds hm
  obtain ⟨p,found,hp,-⟩ := hh.sound.probeLinkHash_spec hr linkHash
  simp [addLinkHash,hh.sharedMemory_eq,hh.tableSizeMask_eq,hp]

/-- The links that an action adds. -/
def addedBy : Action κ → List LinkHash
  | .addVisitedLink linkHash => [linkHash]
  | _ => []

theorem added_movePendingLinks [DecidableEq κ] {linkHashes : List LinkHash} {grown : Bool}
    {createsHandle : κ → Bool} (h : s.movePendingLinks linkHashes grown createsHandle = some t) :
    t.added = s.added := by
  obtain ⟨r, -, rfl⟩ := Option.map_eq_some_iff.mp h
  let moved : VisitedLinkProvider κ :=
    { s with table := r.1, keyCount := s.keyCount + UInt32.ofNat linkHashes.length }
  have hsame : SameLinks moved moved := ⟨rfl, rfl, rfl, rfl, rfl, rfl, rfl⟩
  exact ((hsame.notifyProcesses grown r.2).sendTable createsHandle _).added

theorem added_step [DecidableEq κ] (h : step page s a = some t) : t.added = s.added ++ addedBy a := by
  cases a with
  | addVisitedLink linkHash =>
    obtain ⟨r, -, rfl⟩ := Option.map_eq_some_iff.mp h
    rfl
  | timerFires outcome =>
    refine Eq.trans ?_ (append_nil _).symm
    simp only [step, pendingVisitedLinksTimerFired] at h
    split_ifs at h
    · exact (added_movePendingLinks h :)
    · cases h
      rfl
    · obtain ⟨s', hs', hm⟩ := Option.bind_eq_some_iff.mp h
      obtain ⟨r, -, rfl⟩ := Option.map_eq_some_iff.mp hs'
      exact (added_movePendingLinks hm :)
  | _ =>
    cases h
    exact (append_nil _).symm

/-- In every run in which the larger table can be created whenever it is needed: a link that has been
added is pending or visited, and only such links are visited; at most half of the slots are occupied,
so every lookup and every addition ends, as do the loops of every step that can be taken; and no hash
was found twice when the table was copied. -/
theorem no_link_lost [DecidableEq κ] {actions : List (Action κ)}
    (ha : Allowed (step page) (Careful page) actions create)
    (hrun : run (step page) actions create = some s) :
    s.added = actions.flatMap addedBy ∧
      (∀ l ∈ s.added, l ∈ pendingLinks s.pendingVisitedLinks ∨ s.table.isLinkVisited l = some true) ∧
      (∀ l, ∃ visited, s.table.isLinkVisited l = some visited ∧ (visited = true → l ∈ s.added)) ∧
      (s.slots.length = s.tableSize.toNat ∧ occupied s.slots ≤ s.keyCount.toNat ∧
        s.keyCount.toNat ≤ s.tableSize.toNat / 2) ∧
      (s.table.sharedMemory ≠ none → ∀ l, (s.table.addLinkHash l).isSome = true) ∧
      s.foundDuplicate = false ∧
      ∀ a, Careful page s a → s.Possible a → (step page s a).isSome = true := by
  have hs := reaches_consistent (.run (.start rfl) ha hrun)
  refine ⟨run_record added addedBy (fun _ _ _ => added_step) hrun,fun l hl => ?_,fun l => ?_,⟨hs.stored.length_slots,hs.occupied_le,?_⟩,
    hs.addLinkHash_returns,hs.foundDuplicate_eq,fun a ha hp => ?_⟩
  · refine (hs.kept l hl).imp_right fun hslot => ?_
    obtain ⟨visited,hv,hi⟩ := hs.isLinkVisited_spec l
    rw [hv,hi.mpr ⟨hs.added_ne_zero l hl,hslot⟩]
  · obtain ⟨visited,hv,hi⟩ := hs.isLinkVisited_spec l
    exact ⟨visited,hv,fun ht =>
      hs.added_of_slot l (hi.mp ht).2 (hi.mp ht).1⟩
  · have := hs.keyCount_le
    omega
  · obtain ⟨t,hstep,-⟩ := hs.exists_step ha hp
    rw [hstep]
    rfl

/-- Pages of 4096 bytes. -/
def commonPage : PageSize := ⟨12, by decide, Nat.le_of_ble_eq_true rfl⟩

/-- A process is launched, two links are moved to the table, and two more are pending. -/
theorem no_link_lost_twoPending :
    ∃ s : VisitedLinkProvider ℕ, Reaches (step commonPage) (Careful commonPage) (· = create) s ∧
      s.added = [7, 519, 7, 9] ∧ s.keyCount = 2 ∧ s.tableSize = 512 ∧
      (∀ l ∈ s.added, l ∈ pendingLinks s.pendingVisitedLinks ∨
        s.table.isLinkVisited l = some true) := by
  let actions : List (Action ℕ) := [.processDidFinishLaunching 0,.addVisitedLink 7,
    .addVisitedLink 519,.timerFires ⟨true,fun _ => true⟩,.addVisitedLink 7,.addVisitedLink 9]
  have ha : Allowed (step commonPage) (Careful commonPage) actions create := by decide +kernel
  obtain ⟨s,hs,hadded,hk,hsize⟩ : ∃ s ∈ run (step commonPage) actions create,
      s.added = [7,519,7,9] ∧ s.keyCount = 2 ∧ s.tableSize = 512 := by
    decide +kernel
  have hstart : Reaches (step commonPage) (Careful commonPage) (· = create)
      (create : VisitedLinkProvider ℕ) := .start rfl
  exact ⟨s,hstart.run ha hs,hadded,hk,hsize,(no_link_lost ha hs).2.1⟩

/-- A link is lost if the memory of the first table cannot be created. -/
theorem link_lost :
    ∃ s : VisitedLinkProvider ℕ,
      run (step commonPage) [.addVisitedLink 5, .timerFires ⟨false, fun _ => true⟩] create = some s ∧
      s.added = [5] ∧ pendingLinks s.pendingVisitedLinks = [] ∧
      s.table.isLinkVisited 5 = some false := by
  decide +kernel

end QPlusWeb.VisitedLinks.VisitedLinkProvider
