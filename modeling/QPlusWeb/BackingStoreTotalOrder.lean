import QPlusWeb.BackingStoreOrder

/-!
# The backing store is totally ordered

With `indexKeys` false the comparator is a total order on the keys that can be
written, up to the equality of user keys that `IDBKey::isEqual` defines: the
two zeros are different doubles and the same key. With `indexKeys` true it is a
total preorder that never contradicts the first.
-/
namespace QPlusWeb.IDB
open FirstDifference

/-- Equal as keys, which is all that the order of the store can see. -/
def UserKey.isEqual : UserKey → UserKey → Prop
  | .min, .min => True
  | .max, .max => True
  | .key k, .key l => k.key.isEqual l.key = true
  | _, _ => False

/-- The same class and the same fields, with user keys up to `isEqual`. -/
def StoreKey.SameFields : StoreKey → StoreKey → Prop
  | .globalMetaData k, .globalMetaData l => k = l
  | .databaseMetaData d k, .databaseMetaData e l => d = e ∧ k = l
  | .objectStoreData d o u, .objectStoreData e p v => d = e ∧ o = p ∧ u.isEqual v
  | .existsEntry d o u, .existsEntry e p v => d = e ∧ o = p ∧ u.isEqual v
  | .indexData d o i u p m, .indexData e q j v r n =>
    d = e ∧ o = q ∧ i = j ∧ u.isEqual v ∧ p.isEqual r ∧ m = n
  | _, _ => False

theorem UserKey.word_eq_iff (u v : UserKey) : u.word = v.word ↔ u.isEqual v := by
  have hf : u.word = v.word → u.type = v.type := by
    intro h
    obtain ⟨p,hp⟩ := u.word_eq_cons
    obtain ⟨q,hq⟩ := v.word_eq_cons
    rw [hp,hq] at h
    have hr := (List.cons.inj h).1
    apply IDBKey.type_value_injective
    unfold IDBKey.rank at hr
    omega
  cases u with
  | min =>
    cases v with
    | min => simp [UserKey.isEqual]
    | max => simp [UserKey.isEqual,UserKey.word,IDBKey.rank,KeyType.value]
    | key k => exact ⟨fun h => absurd (hf h).symm k.type_ne_min,False.elim⟩
  | max =>
    cases v with
    | min => simp [UserKey.isEqual,UserKey.word,IDBKey.rank,KeyType.value]
    | max => simp [UserKey.isEqual]
    | key k => exact ⟨fun h => absurd (hf h).symm k.type_ne_invalid,False.elim⟩
  | key k =>
    cases v with
    | min => exact ⟨fun h => absurd (hf h) k.type_ne_min,False.elim⟩
    | max => exact ⟨fun h => absurd (hf h) k.type_ne_invalid,False.elim⟩
    | key l =>
      simp only [UserKey.word,UserKey.isEqual,IDBKey.isEqual,decide_eq_true_eq]
      exact (IDBKey.compare_reports k.key l.key k.noNaN l.noNaN).zero_iff.symm

theorem stringWord_append_inj {s t : List UChar} {v w : List ℤ}
    (h : stringWord s++v = stringWord t++w) : s = t ∧ v = w := by
  have h' := (codePointCompare_reports s t).append_inj h
  exact ⟨stringWord_injective h'.1,h'.2⟩

theorem typeByte_eq_of_word_eq {t u : UInt8} {v w : List ℤ}
    (h : [(t.toNat : ℤ)]++v = [(u.toNat : ℤ)]++w) : t = u ∧ v = w := by
  have h' := (typeByte_reports t u).append_inj h
  constructor
  · apply UInt8.toNat_inj.mp
    have := (List.cons.inj h'.1).1
    omega
  · exact h'.2

theorem GlobalKey.word_injective {k l : GlobalKey} (h : k.word = l.word) : k = l := by
  obtain ⟨ht,hf⟩ := typeByte_eq_of_word_eq h
  induction k, l, ht using GlobalKey.pairs with
  | schemaVersion | maxDatabaseId | dataVersion => rfl
  | databaseFreeList n m => simpa [GlobalKey.fieldWord,Subtype.ext_iff] using hf
  | databaseName o n o' n' =>
    have h := stringWord_append_inj hf
    rw [Subtype.ext h.1,Subtype.ext (stringWord_injective h.2)]

theorem DatabaseKey.word_injective {k l : DatabaseKey} (h : k.word = l.word) : k = l := by
  obtain ⟨ht,hf⟩ := typeByte_eq_of_word_eq h
  induction k, l, ht using DatabaseKey.pairs with
  | metaData t => rfl
  | objectStoreMetaData o t o' t' | indexMetaData o i t o' i' t' =>
    simp only [DatabaseKey.fieldWord] at hf
    simp_all [Subtype.ext_iff,UInt8.toNat_inj]
  | objectStoreFreeList o o'
  | indexFreeList o i o' i' => simpa [DatabaseKey.fieldWord,Subtype.ext_iff] using hf
  | objectStoreNames n n' => rw [Subtype.ext (stringWord_injective hf)]
  | indexNames o n o' n' =>
    have h := List.cons.inj hf
    rw [Subtype.ext (stringWord_injective h.2),Subtype.ext (Int.natCast_inj.mp h.1)]

variable (j k : StoreKey)

theorem StoreKey.word_eq_iff_parts (indexKeys : Bool) : j.word indexKeys = k.word indexKeys ↔
      j.keyPrefix = k.keyPrefix ∧ j.restWord indexKeys = k.restWord indexKeys := by
  constructor
  · intro h
    have h' := (KeyPrefix.compare_reports j.keyPrefix k.keyPrefix).append_inj h
    exact ⟨KeyPrefix.eq_of_word_eq h'.1,h'.2⟩
  · intro h
    rw [StoreKey.word,StoreKey.word,h.1,h.2]

section
variable [WideShift]

theorem UserKey.word_append_eq_iff (u v : UserKey) (r s : List ℤ) :
    u.word++r = v.word++s ↔ u.isEqual v ∧ r = s := by
  have hr := (UserKey.compareEncoded_right u v [] []).reports
  constructor
  · intro h
    have h' := hr.append_inj h
    exact ⟨(UserKey.word_eq_iff u v).mp h'.1,h'.2⟩
  · intro h
    rw [(UserKey.word_eq_iff u v).mpr h.1,h.2]

theorem StoreKey.word_eq_iff : j.word false = k.word false ↔ j.SameFields k := by
  rw [word_eq_iff_parts]
  induction j, k using StoreKey.pairs with
  | ne j k hne =>
    refine iff_of_false (fun h => hne ?_) fun h => hne ?_
    · rw [← j.type_keyPrefix,← k.type_keyPrefix,h.1]
    · cases j <;> cases k <;> first | rfl | exact h.elim
  | globalMetaData j k =>
    constructor
    · intro h
      exact GlobalKey.word_injective h.2
    · intro h
      rw [show j = k from h]
      exact ⟨rfl,rfl⟩
  | databaseMetaData d j e k =>
    constructor
    · intro h
      exact ⟨by simpa [keyPrefix,Subtype.ext_iff] using h.1,DatabaseKey.word_injective h.2⟩
    · intro h
      rw [show d = e from h.1,show j = k from h.2]
      exact ⟨rfl,rfl⟩
  | objectStoreData d o u e p v | existsEntry d o u e p v =>
    simp [keyPrefix,restWord,SameFields,UserKey.word_eq_iff,Subtype.ext_iff,and_assoc]
  | indexData d o i u p m e q l v r n =>
    simp [keyPrefix,restWord,SameFields,UserKey.word_append_eq_iff,UserKey.word_eq_iff,
      Subtype.ext_iff,and_assoc]

/-- Where the comparison of index keys sees a difference, both see the same. -/
theorem compare_indexKeys (h : compare j.encode k.encode true ≠ 0) :
    (compare j.encode k.encode true).sign = (compare j.encode k.encode false).sign := by
  have hword : ∀ l : StoreKey, ∃ w, l.word false = l.word true++w := by
    intro l
    cases l with
    | indexData d o i u p n => exact ⟨p.word++[(n : ℤ)],by simp [StoreKey.word,StoreKey.restWord]⟩
    | _ => exact ⟨[],by simp [StoreKey.word,StoreKey.restWord]⟩
  obtain ⟨v,hv⟩ := hword j
  obtain ⟨w,hw⟩ := hword k
  have hf := compare_reports j k false
  rw [hv,hw] at hf
  exact ((compare_reports j k true).append_of_ne h v w).sign_eq hf

theorem compare_sign_swap (indexKeys : Bool) :
    (compare k.encode j.encode indexKeys).sign = -(compare j.encode k.encode indexKeys).sign := by
  rw [(compare_reports k j indexKeys).sign_eq (compare_reports j k indexKeys).symm,Int.sign_neg]

theorem compare_nonpos_trans (i j k : StoreKey) (indexKeys : Bool)
    (hij : compare i.encode j.encode indexKeys ≤ 0)
    (hjk : compare j.encode k.encode indexKeys ≤ 0) :
    compare i.encode k.encode indexKeys ≤ 0 := by
  rw [(compare_reports _ _ indexKeys).nonpos_iff] at hij hjk ⊢
  exact le_trans hij hjk

/-- A total order up to the equality of user keys, and for index keys a total
preorder coarser than it. -/
theorem compare_total_order :
    (∀ j k : StoreKey, (compare k.encode j.encode false).sign =
      -(compare j.encode k.encode false).sign) ∧
    (∀ i j k : StoreKey, compare i.encode j.encode false ≤ 0 →
      compare j.encode k.encode false ≤ 0 → compare i.encode k.encode false ≤ 0) ∧
    (∀ j k : StoreKey, compare j.encode k.encode false = 0 ↔ j.SameFields k) ∧
    (∀ j k : StoreKey, (compare k.encode j.encode true).sign =
      -(compare j.encode k.encode true).sign) ∧
    (∀ i j k : StoreKey, compare i.encode j.encode true ≤ 0 →
      compare j.encode k.encode true ≤ 0 → compare i.encode k.encode true ≤ 0) ∧
    (∀ j k : StoreKey, compare j.encode k.encode false ≤ 0 →
      compare j.encode k.encode true ≤ 0) := by
  constructor
  · intro j k
    exact compare_sign_swap j k false
  constructor
  · intro i j k
    exact compare_nonpos_trans i j k false
  constructor
  · intro j k
    rw [(compare_reports j k false).zero_iff,StoreKey.word_eq_iff]
  constructor
  · intro j k
    exact compare_sign_swap j k true
  constructor
  · intro i j k
    exact compare_nonpos_trans i j k true
  · intro j k h
    by_contra hp
    have hs := compare_indexKeys j k (by omega)
    rw [Int.sign_eq_one_of_pos (by omega)] at hs
    have := Int.pos_of_sign_eq_one hs.symm
    omega

end

def positiveZero : ValidKey := ⟨.number ⟨0⟩, rfl, trivial, rfl⟩

def negativeZero : ValidKey := ⟨.number ⟨0x8000000000000000⟩, rfl, trivial, rfl⟩

/-- A record of the first object store of the first database. -/
def firstRecord (k : ValidKey) : StoreKey :=
  .objectStoreData ⟨1, by decide, by decide⟩ ⟨1, by decide, by decide⟩ (.key k)

/-- The two zeros are different fields, written as different bytes, and compare equal. -/
theorem zeros_compare_equal :
    firstRecord positiveZero ≠ firstRecord negativeZero ∧
      (firstRecord positiveZero).encode ≠ (firstRecord negativeZero).encode ∧
      @compare droppedBits (firstRecord positiveZero).encode (firstRecord negativeZero).encode
        false = 0 := by
  have he : (firstRecord positiveZero).encode ≠ (firstRecord negativeZero).encode := by
    decide
  constructor
  · intro h
    exact he (by rw [h])
  constructor
  · exact he
  · exact (@compare_reports droppedBits _ _ false).zero_iff.mpr rfl

end QPlusWeb.IDB
