import QPlusWeb.VisitedLinkProvider

/-!
# The parts of a firing of the timer

The table size that the provider asks for, the set of pending links, and the loop that adds hashes to
the table.
-/

namespace QPlusWeb.VisitedLinks

open ProbeSequence WTF BitSmearing List

/-! ### The size of the table -/

theorem nextPowerOf2_spec {v : UInt32} (hp : 0 < v.toNat) (hle : v.toNat ≤ 2^31) :
    ∃ m ≤ 31, (nextPowerOf2 v).toNat = 2^m ∧ v.toNat ≤ 2^m := by
  obtain ⟨m,hm,hpow,hv,-⟩ := fillBelow_sub_one_add_one hp hle
  exact ⟨m,hm,hpow,hv⟩

theorem minimumTableSize_toNat (page : PageSize) :
    page.minimumTableSize.toNat = 2^(page.exponent-3) := by
  have hle : 2^page.exponent / 8 = 2^(page.exponent-3) := by
    rw [show 8 = 2^3 by rfl,Nat.pow_div page.three_le (by omega)]
  have hlt : 2^(page.exponent-3) < 2^32 :=
    Nat.pow_lt_pow_right (by omega) (by have := page.lt_32; omega)
  rw [PageSize.minimumTableSize,hle]
  exact UInt32.toNat_ofNat_of_lt' hlt

/-- Up to `2 ^ 30` keys the table has room for twice as many. -/
theorem tableSizeForKeyCount_spec (page : PageSize) {keyCount : UInt32}
    (h : keyCount.toNat ≤ 2^30) :
    ∃ m ≤ 31, (tableSizeForKeyCount page keyCount).toNat = 2^m ∧ 2*keyCount.toNat ≤ 2^m := by
  have hd : (keyCount*visitedLinkTableMaxLoad).toNat = 2*keyCount.toNat := by
    rw [UInt32.toNat_mul,visitedLinkTableMaxLoad]
    simp only [UInt32.reduceToNat]
    omega
  have hlt := page.lt_32
  unfold tableSizeForKeyCount
  dsimp only
  split
  next hs =>
    refine ⟨page.exponent-3,by omega,minimumTableSize_toNat page,?_⟩
    rw [← minimumTableSize_toNat page]
    rw [UInt32.lt_iff_toNat_lt] at hs
    rcases Nat.eq_zero_or_pos keyCount.toNat with hz | hpos
    · omega
    · obtain ⟨m,-,hp,hle⟩ := nextPowerOf2_spec
        (v := keyCount*visitedLinkTableMaxLoad) (by omega) (by omega)
      omega
  next hl =>
    rcases Nat.eq_zero_or_pos keyCount.toNat with hz | hpos
    · -- the table would be empty
      have hk : keyCount*visitedLinkTableMaxLoad = 0 := by
        refine UInt32.toNat_inj.mp ?_
        rw [hd,hz]
        rfl
      rw [hk,UInt32.lt_iff_toNat_lt,minimumTableSize_toNat] at hl
      exact (hl (Nat.two_pow_pos _)).elim
    · obtain ⟨m,hm,hp,hle⟩ := nextPowerOf2_spec
        (v := keyCount*visitedLinkTableMaxLoad) (by omega) (by omega)
      exact ⟨m,hm,hp,by omega⟩

/-! ### The pending links -/

variable {linkHash : LinkHash}

theorem linkHashTraits_isKey : linkHashTraits.IsKey linkHash ↔ linkHash ≠ 0 ∧ linkHash ≠ -1 := by
  simp [HashTraits.IsKey,linkHashTraits]

theorem linkHashTraits_lawful : linkHashTraits.Lawful where
  equal_refl := fun a _ => beq_self_eq_true a
  equal_symm := fun a b _ _ h => by rw [eq_of_beq h]; exact beq_self_eq_true b
  equal_trans := fun a b c _ _ _ hab hbc => by rw [eq_of_beq hab]; exact hbc
  hash_eq := fun a b _ _ h => by rw [eq_of_beq h]
  equal_of_not_isKey := by
    intro _ a b ha hb
    refine beq_eq_false_iff_ne.mpr ?_
    rintro rfl
    exact ha hb
  isEmptyValue_emptyValue := rfl
  isDeletedValue_deletedValue := rfl
  isDeletedValue_of_isEmptyValue := by
    intro a h
    rw [eq_of_beq h]
    rfl
  minimumTableSize_eq := ⟨3,le_rfl,rfl⟩

/-- The links in the set. -/
def pendingLinks (pending : HashTable LinkHash) : List LinkHash := pending.iterate linkHashTraits

variable {pending : HashTable LinkHash}

section
variable (h : HashTable.Inv linkHashTraits pending)
include h

theorem mem_pendingLinks :
    linkHash ∈ pendingLinks pending ↔ linkHash ∈ HashTable.values linkHashTraits pending := by
  rw [← h.iterate_spec]
  rfl

theorem pendingLinks_clear : pendingLinks pending.clear = [] := by
  refine eq_nil_iff_forall_not_mem.mpr fun linkHash hm => ?_
  rw [mem_pendingLinks h.clear_spec.1,h.clear_spec.2] at hm
  exact Multiset.notMem_zero _ hm

theorem add_pendingLinks (hk : linkHashTraits.IsKey linkHash) :
    ∃ r, pending.add linkHashTraits (HashTable.identity linkHashTraits linkHash) = some r ∧
      HashTable.Inv linkHashTraits r.table ∧
      ∀ other, other ∈ pendingLinks r.table ↔ other = linkHash ∨ other ∈ pendingLinks pending := by
  obtain ⟨r,ha,hs⟩ := h.add_spec linkHashTraits_lawful
    (q := HashTable.identity linkHashTraits linkHash) (linkHashTraits_lawful.asks hk)
  refine ⟨r,ha,hs.inv,fun other => ?_⟩
  rw [mem_pendingLinks hs.inv,mem_pendingLinks h,hs.values_eq,HashTable.insertValue]
  split
  next hp =>
    obtain ⟨e,he,hequal⟩ := hp
    have heq : e = linkHash := eq_of_beq hequal
    exact ⟨.inr,fun hor => hor.elim (fun ho => by rw [ho,← heq]; exact he) id⟩
  next => exact Multiset.mem_cons

end

/-! ### Adding to the table -/

open VisitedLinkTable in
theorem addLinkHashes_spec {t : VisitedLinkTable} {memory : List LinkHash} {m : ℕ}
    (h : t.Holds memory m) (linkHashes : List LinkHash)
    (hroom : occupied memory+linkHashes.length ≤ memory.length) (hne : ∀ l ∈ linkHashes, l ≠ 0) :
    ∃ t' memory' added, VisitedLinkProvider.addLinkHashes t linkHashes = some (t',added) ∧
      t'.Holds memory' m ∧ Extends memory memory' linkHashes ∧
      occupied memory' ≤ occupied memory+linkHashes.length ∧
      (linkHashes.Nodup → (∀ l ∈ linkHashes, l ∉ memory) → added = linkHashes) := by
  induction linkHashes generalizing t memory with
  | nil =>
    refine ⟨t,memory,[],rfl,h,⟨rfl,fun other _ => ?_⟩,le_rfl,fun _ _ => rfl⟩
    exact ⟨.inr,fun hor => hor.resolve_left not_mem_nil⟩
  | cons linkHash linkHashes ih =>
    rw [length_cons] at hroom
    obtain ⟨t₁,memory₁,added,ha,h₁,he₁,hnew,-,hocc₁⟩ :=
      h.addLinkHash_spec (by omega) (hne linkHash mem_cons_self)
    obtain ⟨t₂,memory₂,rest,hr,h₂,he₂,hocc₂,hall⟩ := ih h₁
      (by rw [he₁.length_eq]; omega) (forall_mem_cons.mp hne).2
    refine ⟨t₂,memory₂,if added then linkHash::rest else rest,?_,h₂,⟨?_,?_⟩,?_,?_⟩
    · simp [VisitedLinkProvider.addLinkHashes,ha,hr]
    · rw [he₂.length_eq,he₁.length_eq]
    · intro other ho
      rw [he₂.mem_iff other ho,he₁.mem_iff other ho,mem_singleton,mem_cons,or_left_comm,or_assoc]
    · rw [length_cons]
      omega
    · intro hn hf
      obtain ⟨hh,ht⟩ := nodup_cons.mp hn
      rw [hnew.mpr (hf linkHash mem_cons_self),if_pos rfl]
      refine congrArg _ (hall ht fun l hl hm => ?_)
      rw [he₁.mem_iff l (hne l (mem_cons_of_mem _ hl)),mem_singleton] at hm
      rcases hm with rfl | hm
      · exact hh hl
      · exact hf l (mem_cons_of_mem _ hl) hm

end QPlusWeb.VisitedLinks
