import QPlusWeb.HashTableProbing

/-!
# The table of visited links

`VisitedLinkTable` is an open-addressing table of 64-bit hashes in shared memory.  Zero is an empty
slot, and nothing is ever removed.  The probe loops are `while (1)` loops; they run here on the table
size as fuel, and `none` is a loop that does not end.
-/

namespace QPlusWeb.VisitedLinks

open ProbeSequence List

abbrev LinkHash := UInt64

/-- The low 32 bits. -/
def LinkHash.unsignedHash (linkHash : LinkHash) : UInt32 := linkHash.toUInt32

/-- The slots of the shared memory, if there is one. -/
structure VisitedLinkTable where
  sharedMemory : Option (List LinkHash)
  tableSize : UInt32
  tableSizeMask : UInt32

/-- The variables of a probe loop. -/
structure ProbeVariables where
  i : UInt32
  k : UInt32

/-- The table has a copy of the function of `HashTable`. -/
def doubleHash (key : UInt32) : UInt32 := WTF.doubleHash key

/-- `if (!k) k = 1 | doubleHash(h); i = (i + k) & sizeMask;` -/
def ProbeVariables.advance (h sizeMask : UInt32) (s : ProbeVariables) : ProbeVariables :=
  let k := if s.k = 0 then 1 ||| doubleHash h else s.k
  ⟨(s.i + k) &&& sizeMask, k⟩

variable (memory : List LinkHash)

def slot (i : ℕ) : LinkHash := memory.getD i 0

namespace VisitedLinkTable

def create : VisitedLinkTable := ⟨none, 0, 0⟩

def setSharedMemory : VisitedLinkTable :=
  ⟨some memory, UInt32.ofNat memory.length, UInt32.ofNat memory.length - 1⟩

/-- One round of the loop that `addLinkHash` and `isLinkVisited` share: it ends at an empty slot or at
the hash itself. -/
def probeStep (sizeMask : UInt32) (linkHash : LinkHash)
    (s : ProbeVariables) : ProbeVariables ⊕ (ℕ × Bool) :=
  let entry := slot memory s.i.toNat
  if entry = 0 then .inr (s.i.toNat, false)
  else if entry = linkHash then .inr (s.i.toNat, true)
  else .inl (s.advance linkHash.unsignedHash sizeMask)

/-- The slot where the loop ends, and whether it has the hash. -/
def probeLinkHash (sizeMask : UInt32) (linkHash : LinkHash) : Option (ℕ × Bool) :=
  loop (probeStep memory sizeMask linkHash) memory.length
    ⟨linkHash.unsignedHash &&& sizeMask, 0⟩

/-- Returns whether the hash has been added; there has to be a memory. -/
def addLinkHash (t : VisitedLinkTable) (linkHash : LinkHash) : Option (VisitedLinkTable × Bool) :=
  t.sharedMemory.bind fun memory =>
    (probeLinkHash memory t.tableSizeMask linkHash).map fun r =>
      if r.2 then (t, false)
      else ({ t with sharedMemory := some (memory.set r.1 linkHash) }, true)

def isLinkVisited (t : VisitedLinkTable) (linkHash : LinkHash) : Option Bool :=
  match t.sharedMemory with
  | none => some false
  | some memory => (probeLinkHash memory t.tableSizeMask linkHash).map Prod.snd

end VisitedLinkTable

/-! ### Slots -/

def occupied : ℕ := memory.countP (· ≠ 0)

variable {memory : List LinkHash} {m p : ℕ} {linkHash : LinkHash}

theorem slot_eq_getElem (hp : p < memory.length) : slot memory p = memory[p] := by
  simp [slot,hp]

theorem slot_mem (hp : p < memory.length) : slot memory p ∈ memory := by
  rw [slot_eq_getElem hp]
  exact getElem_mem hp

theorem exists_slot (h : linkHash ∈ memory) : ∃ p < memory.length, slot memory p = linkHash := by
  obtain ⟨p,hp,hg⟩ := getElem_of_mem h
  exact ⟨p,hp,by rw [slot_eq_getElem hp,hg]⟩

theorem slot_set_self (hp : p < memory.length)
    (linkHash : LinkHash) : slot (memory.set p linkHash) p = linkHash := by
  simp [slot,hp]

theorem slot_set_of_ne {p q : ℕ} (h : q ≠ p) (linkHash : LinkHash) :
    slot (memory.set p linkHash) q = slot memory q := by
  simp [slot,getElem?_set_ne h.symm]

theorem exists_empty_slot (h : occupied memory < memory.length) :
    ∃ p < memory.length, slot memory p = 0 := by
  have hm : ∃ linkHash ∈ memory, ¬(decide (linkHash ≠ 0)) := by
    by_contra hn
    push Not at hn
    exact h.ne (countP_eq_length.mpr hn)
  obtain ⟨linkHash,hm,hz⟩ := hm
  obtain ⟨p,hp,hs⟩ := exists_slot hm
  exact ⟨p,hp,by simpa [hs] using hz⟩

theorem occupied_set (hp : p < memory.length) (he : slot memory p = 0) (h : linkHash ≠ 0) :
    occupied (memory.set p linkHash) = occupied memory+1 := by
  rw [slot_eq_getElem hp] at he
  rw [occupied,occupied,countP_set hp]
  simp [he,h]

theorem mem_set (hp : p < memory.length)
    (he : slot memory p = 0) {other : LinkHash} (ho : other ≠ 0) :
    other ∈ memory.set p linkHash ↔ other = linkHash ∨ other ∈ memory := by
  constructor
  · intro h
    exact (mem_or_eq_of_mem_set h).symm
  · rintro (rfl | h)
    · exact List.mem_set hp _
    · obtain ⟨q,hq,hs⟩ := exists_slot h
      have hne : q ≠ p := by
        rintro rfl
        exact ho (hs.symm.trans he)
      rw [← hs,← slot_set_of_ne hne linkHash]
      exact slot_mem (by rwa [length_set])

/-! ### The probe loop -/

/-- The slots that the loop for a hash comes to. -/
def path (m : ℕ) (linkHash : LinkHash) : ℕ → ℕ := WTF.HashTable.path m linkHash.unsignedHash

/-- Every hash can be reached without crossing an empty slot, and none is there twice. -/
structure Sound (memory : List LinkHash) (m : ℕ) : Prop where
  length_eq : memory.length = 2 ^ m
  exponent_le : m ≤ 31
  reaches : ∀ p < memory.length, slot memory p ≠ 0 →
    Reaches (path m (slot memory p)) (slot memory · = 0) p
  unique : ∀ p < memory.length, ∀ q < memory.length, slot memory p ≠ 0 →
    slot memory p = slot memory q → p = q

/-- The mask of a table with `2 ^ m` slots. -/
def sizeMask (m : ℕ) : UInt32 := UInt32.ofNat (2 ^ m) - 1

theorem sizeMask_toNat (h : m ≤ 31) : (sizeMask m).toNat = 2^m-1 := by
  have hp : 0 < 2^m := Nat.two_pow_pos m
  have hle : 2^m ≤ 2^31 := Nat.pow_le_pow_right (by omega) h
  have ho : (1 : UInt32) ≤ UInt32.ofNat (2^m) := by
    rw [UInt32.le_iff_toNat_le,UInt32.toNat_ofNat_of_lt' (by rw [UInt32.size]; omega)]
    exact hp
  rw [sizeMask,UInt32.toNat_sub_of_le _ _ ho,UInt32.toNat_ofNat_of_lt' (by rw [UInt32.size]; omega)]
  rfl

theorem and_sizeMask_toNat (h : m ≤ 31) (i : UInt32) :
    (i &&& sizeMask m).toNat = i.toNat % 2^m := by
  rw [UInt32.toNat_and,sizeMask_toNat h,Nat.and_two_pow_sub_one_eq_mod]

/-- The variables of the loop in its `n`-th round. -/
def probeAt (m : ℕ) (linkHash : LinkHash) (n : ℕ) : ProbeVariables :=
  ⟨UInt32.ofNat (path m linkHash n), if n = 0 then 0 else 1 ||| doubleHash linkHash.unsignedHash⟩

section
variable (h : m ≤ 31) (linkHash : LinkHash)
include h

theorem probeAt_i_toNat (n : ℕ) : (probeAt m linkHash n).i.toNat = path m linkHash n := by
  have hlt : path m linkHash n < 2^m := WTF.HashTable.path_lt _ rfl n
  have hle : 2^m ≤ 2^31 := Nat.pow_le_pow_right (by omega) h
  exact UInt32.toNat_ofNat_of_lt' (by rw [UInt32.size]; omega)

theorem probeAt_zero :
    (⟨linkHash.unsignedHash &&& sizeMask m,0⟩ : ProbeVariables) = probeAt m linkHash 0 := by
  have hi : linkHash.unsignedHash &&& sizeMask m = (probeAt m linkHash 0).i := by
    refine UInt32.toNat_inj.mp ?_
    rw [and_sizeMask_toNat h,probeAt_i_toNat h,path,WTF.HashTable.path,
      probe_zero _ (Nat.mod_lt _ (Nat.two_pow_pos m))]
  rw [hi]
  rfl

theorem advance_probeAt (n : ℕ) :
    (probeAt m linkHash n).advance linkHash.unsignedHash (sizeMask m) =
      probeAt m linkHash (n+1) := by
  have hk : (if (probeAt m linkHash n).k = 0 then 1 ||| doubleHash linkHash.unsignedHash
      else (probeAt m linkHash n).k) = 1 ||| doubleHash linkHash.unsignedHash := by
    unfold probeAt
    by_cases hn : n = 0
    · simp [hn]
    · simp [hn]
  have hi : ((probeAt m linkHash n).i+(1 ||| doubleHash linkHash.unsignedHash)) &&& sizeMask m =
      (probeAt m linkHash (n+1)).i := by
    refine UInt32.toNat_inj.mp ?_
    rw [and_sizeMask_toNat h,probeAt_i_toNat h,UInt32.toNat_add,probeAt_i_toNat h,
      Nat.mod_mod_of_dvd _ (Nat.pow_dvd_pow 2 (by omega))]
    exact (probe_succ _ _ _ _).symm
  unfold ProbeVariables.advance
  simp only [hk,hi]
  rfl

end

namespace Sound

variable {memory : List LinkHash} {m : ℕ} {linkHash : LinkHash}

theorem path_lt (h : Sound memory m) (linkHash : LinkHash) (n : ℕ) :
    path m linkHash n < memory.length :=
  WTF.HashTable.path_lt _ h.length_eq n

/-- The loop ends, at the hash if it is in the table. -/
theorem probeLinkHash_spec (h : Sound memory m) (hroom : occupied memory < memory.length)
    (linkHash : LinkHash) :
    ∃ p found, VisitedLinkTable.probeLinkHash memory (sizeMask m) linkHash = some (p,found) ∧
      p < memory.length ∧ Reaches (path m linkHash) (slot memory · = 0) p ∧
      (found → linkHash ≠ 0 ∧ slot memory p = linkHash) ∧
      (found = false → slot memory p = 0 ∧ (linkHash ≠ 0 → linkHash ∉ memory)) := by
  have hi := probeAt_i_toNat h.exponent_le linkHash
  obtain ⟨n,hl,hf,hstop⟩ := exists_search (path m linkHash)
    (fun p => linkHash ≠ 0 ∧ slot memory p = linkHash)
    (VisitedLinkTable.probeStep memory (sizeMask m) linkHash) (probeAt m linkHash)
    (WTF.HashTable.path_surjOn linkHash.unsignedHash h.length_eq) (exists_empty_slot hroom)
    fun j ho hf => by
      rw [← advance_probeAt h.exponent_le]
      unfold VisitedLinkTable.probeStep
      rw [hi]
      exact (if_neg hf).trans (if_neg fun heq => ho ⟨by rwa [← heq],heq⟩)
  have hprobe : ∀ r, VisitedLinkTable.probeStep memory (sizeMask m) linkHash
      (probeAt m linkHash n) = .inr r →
      VisitedLinkTable.probeLinkHash memory (sizeMask m) linkHash = some r := by
    rw [VisitedLinkTable.probeLinkHash,probeAt_zero h.exponent_le]
    exact hl
  unfold VisitedLinkTable.probeStep at hprobe
  rw [hi] at hprobe
  rcases hstop with ⟨hne,hs⟩ | ⟨he,hn⟩
  · have hfound : slot memory (path m linkHash n) ≠ 0 := by rwa [hs]
    exact ⟨_,true,hprobe _ ((if_neg hfound).trans (if_pos hs)),h.path_lt linkHash n,
      ⟨n,rfl,hf⟩,fun _ => ⟨hne,hs⟩,nofun⟩
  · refine ⟨_,false,hprobe _ (if_pos he),h.path_lt linkHash n,⟨n,rfl,hf⟩,nofun,
      fun _ => ⟨he,fun hne hm => ?_⟩⟩
    -- the loop would have ended at the hash before the empty slot
    obtain ⟨p,hp,hs⟩ := exists_slot hm
    have hr := h.reaches p hp (by rwa [hs])
    rw [hs] at hr
    exact hn p hr ⟨hne,hs⟩

theorem set (h : Sound memory m) {p : ℕ} (hp : p < memory.length)
    (hreaches : Reaches (path m linkHash) (slot memory · = 0) p) (he : slot memory p = 0)
    (hn : linkHash ∉ memory) : Sound (memory.set p linkHash) m := by
  have hk : ∀ q, slot (memory.set p linkHash) q = 0 → slot memory q = 0 := by
    intro q hq
    by_cases hqp : q = p
    · rwa [hqp]
    · rwa [slot_set_of_ne hqp] at hq
  constructor
  case length_eq => rw [length_set,h.length_eq]
  case exponent_le => exact h.exponent_le
  case reaches =>
    intro q hq hs
    rw [length_set] at hq
    by_cases hqp : q = p
    · rw [hqp,slot_set_self hp]
      exact hreaches.mono hk
    · rw [slot_set_of_ne hqp] at hs ⊢
      exact (h.reaches q hq hs).mono hk
  case unique =>
    intro q hq r hr hs heq
    rw [length_set] at hq hr
    by_cases hqp : q = p
    · by_cases hrp : r = p
      · rw [hqp,hrp]
      · rw [hqp,slot_set_self hp,slot_set_of_ne hrp] at heq
        exact (hn (heq ▸ slot_mem hr)).elim
    · rw [slot_set_of_ne hqp] at hs heq
      by_cases hrp : r = p
      · rw [hrp,slot_set_self hp] at heq
        exact (hn (heq ▸ slot_mem hq)).elim
      · rw [slot_set_of_ne hrp] at heq
        exact h.unique q hq r hr hs heq

end Sound

theorem sound_replicate (h : m ≤ 31) : Sound (List.replicate (2^m) 0) m := by
  have hz : ∀ p, slot (List.replicate (2^m) 0) p = 0 := by
    intro p
    simp only [slot,getD_eq_getElem?_getD,getElem?_replicate]
    split <;> rfl
  exact ⟨length_replicate,h,fun p _ hp => (hp (hz p)).elim, fun p _ q _ hp => (hp (hz p)).elim⟩

theorem Sound.nodup_filter (h : Sound memory m) : (memory.filter (· ≠ 0)).Nodup := by
  rw [List.Nodup,pairwise_filter,pairwise_iff_getElem]
  intro p q hp hq hlt hp0 hq0 heq
  have hs : slot memory p = slot memory q := by
    rw [slot_eq_getElem hp,slot_eq_getElem hq,heq]
  have hne : slot memory p ≠ 0 := by
    rw [slot_eq_getElem hp]
    exact of_decide_eq_true hp0
  exact hlt.ne (h.unique p hp q hq hne hs)

/-! ### Adding and looking up -/

/-- The memory of the table is sound. -/
structure VisitedLinkTable.Holds (t : VisitedLinkTable) (memory : List LinkHash) (m : ℕ) : Prop where
  sharedMemory_eq : t.sharedMemory = some memory
  tableSizeMask_eq : t.tableSizeMask = sizeMask m
  sound : Sound memory m

namespace VisitedLinkTable

variable {t : VisitedLinkTable} {memory : List LinkHash} {m : ℕ}

theorem holds_setSharedMemory {m : ℕ} (h : m ≤ 31) :
    (setSharedMemory (List.replicate (2^m) 0)).Holds (List.replicate (2^m) 0) m where
  sharedMemory_eq := rfl
  tableSizeMask_eq := by rw [setSharedMemory,length_replicate,sizeMask]
  sound := sound_replicate h

/-- What a table becomes if hashes are added to it. -/
structure Extends (memory memory' : List LinkHash) (linkHashes : List LinkHash) : Prop where
  length_eq : memory'.length = memory.length
  mem_iff : ∀ other ≠ 0, other ∈ memory' ↔ other ∈ linkHashes ∨ other ∈ memory

theorem Holds.addLinkHash_spec (h : t.Holds memory m) (hroom : occupied memory < memory.length)
    (hne : linkHash ≠ 0) :
    ∃ t' memory' added, t.addLinkHash linkHash = some (t',added) ∧ t'.Holds memory' m ∧
      Extends memory memory' [linkHash] ∧ (added ↔ linkHash ∉ memory) ∧
      occupied memory ≤ occupied memory' ∧ occupied memory' ≤ occupied memory+1 := by
  obtain ⟨p,found,hprobe,hp,hr,hf,hnot⟩ := h.sound.probeLinkHash_spec hroom linkHash
  have ha : t.addLinkHash linkHash = some (if found then (t,false)
      else ({t with sharedMemory := some (memory.set p linkHash)},true)) := by
    simp [addLinkHash,h.sharedMemory_eq,h.tableSizeMask_eq,hprobe]
  cases found with
  | true =>
    have hm : linkHash ∈ memory := (hf rfl).2 ▸ slot_mem hp
    refine ⟨t,memory,false,ha,h,⟨rfl,fun other _ => ?_⟩,?_,le_rfl,Nat.le_succ _⟩
    · rw [mem_singleton]
      exact ⟨.inr,fun hor => hor.elim (fun heq => heq ▸ hm) id⟩
    · exact ⟨nofun,fun hn => (hn hm).elim⟩
  | false =>
    obtain ⟨he,hn⟩ := hnot rfl
    have hoccupied := occupied_set hp he hne
    refine ⟨_,memory.set p linkHash,true,ha,⟨rfl,h.tableSizeMask_eq,?_⟩,
      ⟨length_set,fun other ho => ?_⟩,?_,by omega,by omega⟩
    · exact h.sound.set hp hr he (hn hne)
    · rw [mem_singleton]
      exact mem_set hp he ho
    · exact ⟨fun _ => hn hne,fun _ => rfl⟩

theorem Holds.isLinkVisited_spec (h : t.Holds memory m) (hr : occupied memory < memory.length)
    (linkHash : LinkHash) :
    ∃ visited, t.isLinkVisited linkHash = some visited ∧
      (visited ↔ linkHash ≠ 0 ∧ linkHash ∈ memory) := by
  obtain ⟨p,found,hprobe,hp,-,hf,hn⟩ := h.sound.probeLinkHash_spec hr linkHash
  refine ⟨found,?_,?_⟩
  · simp [isLinkVisited,h.sharedMemory_eq,h.tableSizeMask_eq,hprobe]
  · cases found with
    | true =>
      obtain ⟨hne,hs⟩ := hf rfl
      exact ⟨fun _ => ⟨hne,hs ▸ slot_mem hp⟩,fun _ => rfl⟩
    | false =>
      exact ⟨nofun,fun hm => ((hn rfl).2 hm.1 hm.2).elim⟩

end VisitedLinkTable

end QPlusWeb.VisitedLinks
