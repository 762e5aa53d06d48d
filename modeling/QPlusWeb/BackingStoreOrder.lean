import QPlusWeb.BackingStoreReaders

/-!
# The order of the backing store

Every key of the store has a word over the integers: the ids of its prefix,
its type byte, and its fields in the order in which they are compared. An index
entry is compared by its primary key before its sequence number, although it
is written the other way round, and the comparison of index keys leaves out
both. `compare` reports the first difference of the words, so it is the
lexicographic order seen through them.
-/
namespace QPlusWeb.IDB
open FirstDifference KeyPrefix

/-! ### Prefixes -/

theorem compareInts_reports (a b : ℤ) : Reports (compareInts a b) [a] [b] := by
  simp only [compareInts]
  apply Reports.singleton
  · split_ifs <;> omega
  · split_ifs <;> omega

def KeyPrefix.word (p : KeyPrefix) : List ℤ := [p.databaseId, p.objectStoreId, p.indexId]

theorem compareInts_eq_zero {a b : ℤ} : compareInts a b = 0 ↔ a = b := by
  rw [(compareInts_reports a b).zero_iff]
  simp

theorem KeyPrefix.compare_reports (p q : KeyPrefix) : Reports (p.compare q) p.word q.word := by
  have h := (compareInts_reports p.databaseId q.databaseId).then_append fun _ =>
    (compareInts_reports p.objectStoreId q.objectStoreId).then_append fun _ =>
      compareInts_reports p.indexId q.indexId
  have hl : p.indexId = q.indexId → compareInts p.indexId q.indexId = 0 := compareInts_eq_zero.mpr
  change Reports (p.compare q) ([p.databaseId]++([p.objectStoreId]++[p.indexId]))
    ([q.databaseId]++([q.objectStoreId]++[q.indexId]))
  convert h using 1
  simp only [compare,ne_eq,compareInts_eq_zero]
  split_ifs with h₁ h₂ h₃
  · exact (hl h₃).symm
  · rfl
  · rfl
  · rfl

theorem KeyPrefix.compare_self (p : KeyPrefix) : p.compare p = 0 :=
  (KeyPrefix.compare_reports p p).zero_iff.mpr rfl

theorem KeyPrefix.eq_of_word_eq {p q : KeyPrefix} (h : p.word = q.word) : p = q := by
  cases p
  cases q
  simpa [word] using h

/-! ### User keys -/

def UserKey.type : UserKey → KeyType
  | .min => .min
  | .max => .invalid
  | .key k => k.key.type

def UserKey.word : UserKey → List ℤ
  | .min => [IDBKey.rank .min]
  | .max => [IDBKey.rank .invalid]
  | .key k => k.key.word

theorem UserKey.encode_eq_cons (u : UserKey) : ∃ p, u.encode = typeByte u.type::p := by
  cases u with
  | min | max => exact ⟨[],rfl⟩
  | key k => exact encodeIDBKey_eq_cons k.key

theorem UserKey.word_eq_cons (u : UserKey) : ∃ w, u.word = IDBKey.rank u.type::w := by
  cases u with
  | min | max => exact ⟨[],rfl⟩
  | key k => exact IDBKey.word_eq_cons k.key

theorem ValidKey.type_ne_invalid (k : ValidKey) : k.key.type ≠ .invalid := by
  have h := k.isValid
  cases hk : k.key <;> simp_all [IDBKey.isValid,IDBKey.type]

theorem ValidKey.type_ne_min (k : ValidKey) : k.key.type ≠ .min := by
  cases hk : k.key <;> simp [IDBKey.type]

section
variable [WideShift]

theorem UserKey.compareEncoded_right_of_type_ne (u v : UserKey) (h : u.type ≠ v.type)
    (s t : Bytes) :
    (compareEncodedIDBKeysAt (u.encode++s) (v.encode++t)).Right u.word v.word s t := by
  obtain ⟨p,hp⟩ := u.encode_eq_cons
  obtain ⟨q,hq⟩ := v.encode_eq_cons
  obtain ⟨w,hw⟩ := u.word_eq_cons
  obtain ⟨x,hx⟩ := v.word_eq_cons
  rw [hp,hq,hw,hx]
  exact compareEncoded_right_of_typeByte_ne _ h _ _ w x s t

theorem UserKey.compareEncoded_right (u v : UserKey) (s t : Bytes) :
    (compareEncodedIDBKeysAt (u.encode++s) (v.encode++t)).Right u.word v.word s t := by
  cases u with
  | min =>
    cases v with
    | min => exact ⟨rfl,Reports.zero _,fun _ => ⟨rfl,rfl⟩⟩
    | max => exact UserKey.compareEncoded_right_of_type_ne .min .max (by decide) s t
    | key k => exact UserKey.compareEncoded_right_of_type_ne .min (.key k) k.type_ne_min.symm s t
  | max =>
    cases v with
    | min => exact UserKey.compareEncoded_right_of_type_ne .max .min (by decide) s t
    | max => exact ⟨rfl,Reports.zero _,fun _ => ⟨rfl,rfl⟩⟩
    | key k => exact UserKey.compareEncoded_right_of_type_ne .max (.key k) k.type_ne_invalid.symm s t
  | key k =>
    cases v with
    | min => exact UserKey.compareEncoded_right_of_type_ne (.key k) .min k.type_ne_min s t
    | max => exact UserKey.compareEncoded_right_of_type_ne (.key k) .max k.type_ne_invalid s t
    | key l => exact compareEncodedIDBKeysAt_right k.fits l.fits k.noNaN l.noNaN s t

end

/-! ### Metadata keys -/

def GlobalKey.typeByte : GlobalKey → UInt8
  | .schemaVersion => schemaVersionTypeByte
  | .maxDatabaseId => maxDatabaseIdTypeByte
  | .dataVersion => dataVersionTypeByte
  | .databaseFreeList _ => databaseFreeListTypeByte
  | .databaseName _ _ => databaseNameTypeByte

def GlobalKey.fieldWord : GlobalKey → List ℤ
  | .databaseFreeList databaseId => [(databaseId : ℤ)]
  | .databaseName origin name => stringWord origin ++ stringWord name
  | _ => []

def GlobalKey.word (k : GlobalKey) : List ℤ := [(k.typeByte.toNat : ℤ)] ++ k.fieldWord

def DatabaseKey.typeByte : DatabaseKey → UInt8
  | .metaData type => type.value
  | .objectStoreMetaData _ _ => objectStoreMetaDataTypeByte
  | .indexMetaData _ _ _ => indexMetaDataTypeByte
  | .objectStoreFreeList _ => objectStoreFreeListTypeByte
  | .indexFreeList _ _ => indexFreeListTypeByte
  | .objectStoreNames _ => objectStoreNamesTypeByte
  | .indexNames _ _ => indexNamesKeyTypeByte

def DatabaseKey.fieldWord : DatabaseKey → List ℤ
  | .metaData _ => []
  | .objectStoreMetaData objectStoreId metaDataType =>
    [(objectStoreId : ℤ)] ++ [(metaDataType.toNat : ℤ)]
  | .indexMetaData objectStoreId indexId metaDataType =>
    [(objectStoreId : ℤ)] ++ ([(indexId : ℤ)] ++ [(metaDataType.toNat : ℤ)])
  | .objectStoreFreeList objectStoreId => [(objectStoreId : ℤ)]
  | .indexFreeList objectStoreId indexId => [(objectStoreId : ℤ)] ++ [(indexId : ℤ)]
  | .objectStoreNames objectStoreName => stringWord objectStoreName
  | .indexNames objectStoreId indexName => [(objectStoreId : ℤ)] ++ stringWord indexName

def DatabaseKey.word (k : DatabaseKey) : List ℤ := [(k.typeByte.toNat : ℤ)] ++ k.fieldWord

/-- Keys with one type byte are of one class. -/
theorem GlobalKey.pairs {P : ∀ k l : GlobalKey, k.typeByte = l.typeByte → Prop}
    (schemaVersion : P .schemaVersion .schemaVersion rfl)
    (maxDatabaseId : P .maxDatabaseId .maxDatabaseId rfl)
    (dataVersion : P .dataVersion .dataVersion rfl)
    (databaseFreeList : ∀ n m, P (.databaseFreeList n) (.databaseFreeList m) rfl)
    (databaseName : ∀ o n o' n', P (.databaseName o n) (.databaseName o' n') rfl)
    (k l : GlobalKey) (h : k.typeByte = l.typeByte) : P k l h := by
  cases k <;> cases l <;> first
    | exact absurd h (by simp only [GlobalKey.typeByte]; decide)
    | apply_assumption

theorem DatabaseMetaDataType.value_injective {t u : DatabaseMetaDataType}
    (h : t.value = u.value) : t = u := by
  cases t <;> cases u <;> first | rfl | exact absurd h (by decide)

theorem DatabaseKey.pairs {P : ∀ k l : DatabaseKey, k.typeByte = l.typeByte → Prop}
    (metaData : ∀ t, P (.metaData t) (.metaData t) rfl) (objectStoreMetaData : ∀ o t o' t',
      P (.objectStoreMetaData o t) (.objectStoreMetaData o' t') rfl)
    (indexMetaData : ∀ o i t o' i' t', P (.indexMetaData o i t) (.indexMetaData o' i' t') rfl)
    (objectStoreFreeList : ∀ o o', P (.objectStoreFreeList o) (.objectStoreFreeList o') rfl)
    (indexFreeList : ∀ o i o' i', P (.indexFreeList o i) (.indexFreeList o' i') rfl)
    (objectStoreNames : ∀ n n', P (.objectStoreNames n) (.objectStoreNames n') rfl)
    (indexNames : ∀ o n o' n', P (.indexNames o n) (.indexNames o' n') rfl)
    (k l : DatabaseKey) (h : k.typeByte = l.typeByte) : P k l h := by
  cases k with
  | metaData t =>
    cases l with
    | metaData u =>
      obtain rfl := DatabaseMetaDataType.value_injective h
      exact metaData t
    | _ => exact absurd h (by simp only [DatabaseKey.typeByte]; cases t <;> decide)
  | _ =>
    cases l with
    | metaData u => exact absurd h (by simp only [DatabaseKey.typeByte]; cases u <;> decide)
    | _ => first
      | apply_assumption
      | exact absurd h (by simp only [DatabaseKey.typeByte]; decide)

theorem typeByte_reports (a b : UInt8) :
    Reports ((a.toNat : ℤ)-b.toNat) [(a.toNat : ℤ)] [(b.toNat : ℤ)] := by
  apply Reports.singleton
  · omega
  · omega

theorem ObjectStoreMetaDataKey.compare_reports (a b : ObjectStoreMetaDataKey) :
    Reports (a.compare b) ([a.objectStoreId]++[(a.metaDataType.toNat : ℤ)])
      ([b.objectStoreId]++[(b.metaDataType.toNat : ℤ)]) := by
  apply (compareInts_reports a.objectStoreId b.objectStoreId).then_append
  intro _
  apply Reports.singleton
  · split_ifs <;> omega
  · split_ifs <;> omega

theorem IndexMetaDataKey.compare_reports (a b : IndexMetaDataKey) :
    Reports (a.compare b) ([a.objectStoreId]++([a.indexId]++[(a.metaDataType.toNat : ℤ)]))
      ([b.objectStoreId]++([b.indexId]++[(b.metaDataType.toNat : ℤ)])) := by
  apply (compareInts_reports a.objectStoreId b.objectStoreId).then_append
  intro _
  apply (compareInts_reports a.indexId b.indexId).then_append
  intro _
  exact typeByte_reports a.metaDataType b.metaDataType

theorem compareParsed_reports {α : Type} {decode : Reader α} {a b p q : Bytes} {x y : α}
    {compare : α → α → ℤ} {r s : List ℤ} (ha : decode a = some (x,p)) (hb : decode b = some (y,q))
    (h : Reports (compare x y) r s) : Reports (resultIfOk (compareParsed decode compare a b)) r s :=
      by
  simpa [compareParsed,ha,hb,resultIfOk] using h

/-- `if (int x = typeByteA - typeByteB) return x;` and then the fields. -/
theorem typeByte_then_reports {t u : UInt8} {x : ℤ × Bool} {r s : List ℤ}
    (hne : (t.toNat : ℤ)-u.toNat ≠ 0 → x = ((t.toNat : ℤ)-u.toNat,true))
    (heq : t = u → Reports (resultIfOk x) r s) :
    Reports (resultIfOk x) ([(t.toNat : ℤ)]++r) ([(u.toNat : ℤ)]++s) := by
  have ht := typeByte_reports t u
  by_cases hx : (t.toNat : ℤ)-u.toNat = 0
  · rw [ht.zero_iff.mp hx]
    exact (heq (UInt8.toNat_inj.mp (by omega))).prepend _
  · rw [hne hx]
    exact ht.append_of_ne hx r s

section
variable [WideShift]

set_option maxRecDepth 2000 in
/-- Keys of one type are parsed and compared by their fields. -/
theorem compareGlobalMetaData_fields (k l : GlobalKey) (h : k.typeByte = l.typeByte) (p q : Bytes) :
    Reports (resultIfOk (compareGlobalMetaData k.encode l.encode (k.typeByte::p)
      (l.typeByte::q))) k.fieldWord l.fieldWord := by
  induction k, l, h using GlobalKey.pairs with
  | schemaVersion | maxDatabaseId | dataVersion => exact Reports.zero _
  | databaseFreeList n m =>
    exact compareParsed_reports (DatabaseFreeListKey.decode_encode n)
      (DatabaseFreeListKey.decode_encode m) (compareInts_reports n m)
  | databaseName o n o' n' =>
    apply compareParsed_reports (DatabaseNameKey.decode_encode o n)
      (DatabaseNameKey.decode_encode o' n')
    exact (codePointCompare_reports o o').then_append fun _ => codePointCompare_reports n n'

set_option maxRecDepth 2000 in
theorem compareDatabaseMetaData_fields (d : DatabaseId) (k l : DatabaseKey)
    (h : k.typeByte = l.typeByte) (p q : Bytes) :
    Reports (resultIfOk (compareDatabaseMetaData (k.encode d) (l.encode d) (k.typeByte::p)
      (l.typeByte::q))) k.fieldWord l.fieldWord := by
  induction k, l, h using DatabaseKey.pairs with
  | metaData t => cases t <;> exact Reports.zero _
  | objectStoreMetaData o t o' t' =>
    exact compareParsed_reports (ObjectStoreMetaDataKey.decode_encode d o t)
      (ObjectStoreMetaDataKey.decode_encode d o' t') (ObjectStoreMetaDataKey.compare_reports _ _)
  | indexMetaData o i t o' i' t' =>
    exact compareParsed_reports (IndexMetaDataKey.decode_encode d o i t)
      (IndexMetaDataKey.decode_encode d o' i' t') (IndexMetaDataKey.compare_reports _ _)
  | objectStoreFreeList o o' =>
    exact compareParsed_reports (ObjectStoreFreeListKey.decode_encode d o)
      (ObjectStoreFreeListKey.decode_encode d o') (compareInts_reports o o')
  | indexFreeList o i o' i' =>
    apply compareParsed_reports (IndexFreeListKey.decode_encode d o i)
      (IndexFreeListKey.decode_encode d o' i')
    exact (compareInts_reports o o').then_append fun _ => compareInts_reports i i'
  | objectStoreNames n n' =>
    exact compareParsed_reports (ObjectStoreNamesKey.decode_encode d n)
      (ObjectStoreNamesKey.decode_encode d n') (codePointCompare_reports n n')
  | indexNames o n o' n' =>
    apply compareParsed_reports (IndexNamesKey.decode_encode d o n)
      (IndexNamesKey.decode_encode d o' n')
    exact (compareInts_reports o o').then_append fun _ => codePointCompare_reports n n'

theorem compareGlobalMetaData_reports (k l : GlobalKey) (p q : Bytes) :
    Reports (resultIfOk (compareGlobalMetaData k.encode l.encode (k.typeByte::p)
      (l.typeByte::q))) k.word l.word :=
  typeByte_then_reports (fun hx => by simp [compareGlobalMetaData,if_pos hx])
    fun h => compareGlobalMetaData_fields k l h p q

theorem compareDatabaseMetaData_reports (d : DatabaseId) (k l : DatabaseKey) (p q : Bytes) :
    Reports (resultIfOk (compareDatabaseMetaData (k.encode d) (l.encode d) (k.typeByte::p)
      (l.typeByte::q))) k.word l.word :=
  typeByte_then_reports (fun hx => by simp [compareDatabaseMetaData,if_pos hx])
    fun h => compareDatabaseMetaData_fields d k l h p q

end

/-! ### Data keys -/

theorem UserKey.encode_ne_nil (u : UserKey) : u.encode ≠ [] := by
  obtain ⟨p,hp⟩ := u.encode_eq_cons
  simp [hp]

theorem compareAtLimits_of_ne_nil {p q : Bytes} (hp : p ≠ []) (hq : q ≠ []) (r : ℤ × Bool) :
    compareAtLimits p q r = r := by
  simp [compareAtLimits,hp,hq]

section
variable [WideShift]

theorem UserKey.compareEncodedIDBKeys_reports (u v : UserKey) :
    Reports (resultIfOk (compareEncodedIDBKeys u.encode v.encode)) u.word v.word := by
  have h := UserKey.compareEncoded_right u v [] []
  rw [List.append_nil,List.append_nil] at h
  simp only [compareEncodedIDBKeys,resultIfOk,h.ok,if_true]
  exact h.reports

theorem decodeSequenceNumber_encodeVarInt (n : VarInt) (s : Bytes) :
    decodeSequenceNumber (encodeVarInt n++s) = some ((n : ℤ),s) := by
  have h := decodeVarInt_encodeVarInt n.2 s
  cases he : encodeVarInt n++s with
  | nil => simp [encodeVarInt_ne_nil] at he
  | cons c p => rwa [he] at h

/-- Primary keys first, then sequence numbers. -/
theorem compareEntries_reports (u v : UserKey) (m n : VarInt) :
    Reports (resultIfOk (compareEntries (encodeVarInt m++u.encode) (encodeVarInt n++v.encode)))
      (u.word++[(m : ℤ)]) (v.word++[(n : ℤ)]) := by
  have h := UserKey.compareEncoded_right u v [] []
  rw [List.append_nil,List.append_nil] at h
  have ht := h.reports.then_append fun _ => compareInts_reports m n
  simp only [compareEntries,decodeSequenceNumber_encodeVarInt,u.encode_ne_nil,v.encode_ne_nil,
    false_and,if_false,h.ok,Bool.true_eq_false,false_or]
  by_cases hx : (compareEncodedIDBKeysAt u.encode v.encode).result ≠ 0
  · rw [if_pos hx] at ht ⊢
    exact ht
  · rw [if_neg hx] at ht ⊢
    exact ht

end

/-! ### All keys -/

def StoreKey.keyPrefix : StoreKey → KeyPrefix
  | .globalMetaData _ => ⟨0, 0, 0⟩
  | .databaseMetaData databaseId _ => ⟨databaseId, 0, 0⟩
  | .objectStoreData databaseId objectStoreId _ =>
    ⟨databaseId, objectStoreId, objectStoreDataIndexId⟩
  | .existsEntry databaseId objectStoreId _ =>
    ⟨databaseId, objectStoreId, existsEntryIndexId⟩
  | .indexData databaseId objectStoreId indexId _ _ _ => ⟨databaseId, objectStoreId, indexId⟩

def StoreKey.kind : StoreKey → KeyPrefix.Kind
  | .globalMetaData _ => .globalMetaData
  | .databaseMetaData _ _ => .databaseMetaData
  | .objectStoreData _ _ _ => .objectStoreData
  | .existsEntry _ _ _ => .existsEntry
  | .indexData _ _ _ _ _ _ => .indexData

/-- What follows the prefix; index keys are compared without their duplicates. -/
def StoreKey.restWord (indexKeys : Bool) : StoreKey → List ℤ
  | .globalMetaData k => k.word
  | .databaseMetaData _ k => k.word
  | .objectStoreData _ _ userKey => userKey.word
  | .existsEntry _ _ userKey => userKey.word
  | .indexData _ _ _ userKey primaryKey sequenceNumber =>
    userKey.word ++ if indexKeys then [] else primaryKey.word ++ [(sequenceNumber : ℤ)]

def StoreKey.word (indexKeys : Bool) (k : StoreKey) : List ℤ :=
  k.keyPrefix.word ++ k.restWord indexKeys

theorem StoreKey.type_keyPrefix (k : StoreKey) : k.keyPrefix.type = k.kind := by
  have hidx : ∀ i : IndexId, minimumIndexId ≤ i := fun i => i.2.1
  have hdb : ∀ d : DatabaseId, (d : ℤ) ≠ 0 := fun d => d.2.1.ne'
  have ho : ∀ o : ObjectStoreId, (o : ℤ) ≠ 0 := fun o => o.2.1.ne'
  cases k with
  | globalMetaData k => rfl
  | databaseMetaData d k =>
    change type ⟨d,0,0⟩ = .databaseMetaData
    rw [type,if_neg (hdb d),if_pos rfl]
  | objectStoreData d o u =>
    change type ⟨d,o,objectStoreDataIndexId⟩ = .objectStoreData
    rw [type,if_neg (hdb d),if_neg (ho o),if_pos rfl]
  | existsEntry d o u =>
    change type ⟨d,o,existsEntryIndexId⟩ = .existsEntry
    have h : existsEntryIndexId ≠ objectStoreDataIndexId := by decide
    rw [type,if_neg (hdb d),if_neg (ho o),if_neg h,if_pos rfl]
  | indexData d o i u p n =>
    have hi := hidx i
    have h₁ : (i : ℤ) ≠ objectStoreDataIndexId := by
      unfold objectStoreDataIndexId
      unfold minimumIndexId at hi
      omega
    have h₂ : (i : ℤ) ≠ existsEntryIndexId := by
      unfold existsEntryIndexId
      unfold minimumIndexId at hi
      omega
    change type ⟨d,o,i⟩ = .indexData
    rw [type,if_neg (hdb d),if_neg (ho o),if_neg h₁,if_neg h₂,if_pos hi]

/-- Two keys are of different kinds, or both go by the same constructor. -/
theorem StoreKey.pairs {P : StoreKey → StoreKey → Prop} (ne : ∀ j k, j.kind ≠ k.kind → P j k)
    (globalMetaData : ∀ j k, P (.globalMetaData j) (.globalMetaData k))
    (databaseMetaData : ∀ d j e k, P (.databaseMetaData d j) (.databaseMetaData e k))
    (objectStoreData : ∀ d o u e p v, P (.objectStoreData d o u) (.objectStoreData e p v))
    (existsEntry : ∀ d o u e p v, P (.existsEntry d o u) (.existsEntry e p v))
    (indexData : ∀ d o i u p m e q j v r n, P (.indexData d o i u p m) (.indexData e q j v r n))
    (j k : StoreKey) : P j k := by
  cases j <;> cases k <;> first
    | exact globalMetaData ..
    | exact databaseMetaData ..
    | exact objectStoreData ..
    | exact existsEntry ..
    | exact indexData ..
    | exact ne _ _ nofun

section
variable [WideShift] {x : KeyPrefix}

/-- Metadata keys go on behind the prefix with their type byte. -/
theorem GlobalKey.decode_encode (k : GlobalKey) :
    ∃ p, decode k.encode = some (⟨0,0,0⟩,k.typeByte::p) := by
  have hd := decode_encodeInternal (d := 0) (o := 0) (i := 0) (by omega) (by omega) (by omega)
  cases k <;> exact ⟨_,hd _⟩

theorem DatabaseKey.decode_encode (d : DatabaseId) (k : DatabaseKey) :
    ∃ p, decode (k.encode d) = some (⟨d,0,0⟩,k.typeByte::p) := by
  have hd := decode_encodeInternal (o := 0) (i := 0) (DatabaseId.lt d) (by omega) (by omega)
  cases k <;> exact ⟨_,hd _⟩

section
variable (d : DatabaseId) (o : ObjectStoreId)

theorem ObjectStoreDataKey.decode_encode (p : Bytes) : decode (ObjectStoreDataKey.encode d o p) =
      some (⟨d,o,objectStoreDataIndexId⟩,p) :=
  decode_encodeInternal (i := 1) (DatabaseId.lt d) (ObjectStoreId.lt o) (by omega) p

theorem ExistsEntryKey.decode_encode (p : Bytes) : decode (ExistsEntryKey.encode d o p) =
      some (⟨d,o,existsEntryIndexId⟩,p) :=
  decode_encodeInternal (i := 2) (DatabaseId.lt d) (ObjectStoreId.lt o) (by omega) p

theorem IndexDataKey.decode_encode (i : IndexId) (p q : Bytes) (n : ℕ) :
    decode (IndexDataKey.encode d o i p q n) = some (⟨d,o,i⟩,p++(encodeVarInt n++q)) :=
  decode_encodeInternal (DatabaseId.lt d) (ObjectStoreId.lt o) (IndexId.lt i) _

end

theorem StoreKey.decode_encode (k : StoreKey) : ∃ p, decode k.encode = some (k.keyPrefix,p) := by
  cases k with
  | globalMetaData k =>
    obtain ⟨p,hp⟩ := k.decode_encode
    exact ⟨_,hp⟩
  | databaseMetaData d k =>
    obtain ⟨p,hp⟩ := k.decode_encode d
    exact ⟨_,hp⟩
  | objectStoreData d o u => exact ⟨_,ObjectStoreDataKey.decode_encode d o _⟩
  | existsEntry d o u => exact ⟨_,ExistsEntryKey.decode_encode d o _⟩
  | indexData d o i u p n => exact ⟨_,IndexDataKey.decode_encode d o i _ _ n⟩

/-- Keys with different prefixes are ordered by them. -/
theorem compare_of_keyPrefix_ne {j k : StoreKey} (h : j.keyPrefix.compare k.keyPrefix ≠ 0)
    (indexKeys : Bool) :
    compare j.encode k.encode indexKeys = j.keyPrefix.compare k.keyPrefix := by
  obtain ⟨p,hp⟩ := j.decode_encode
  obtain ⟨q,hq⟩ := k.decode_encode
  simp [compare,compareChecked,hp,hq,if_pos h,resultIfOk]

theorem compareChecked_of_keyPrefix_eq {a b p q : Bytes}
    (ha : decode a = some (x,p)) (hb : decode b = some (x,q))
    (indexKeys : Bool) :
    compareChecked a b indexKeys = compareByType a b p q indexKeys x.type := by
  simp only [compareChecked,ha,hb]
  rw [if_neg (by simp [compare_self])]

/-- Index entries: user keys, then what tells duplicates apart. -/
theorem compareIndexDataKeys_reports {a b : Bytes} (u v p q : UserKey)
    (m n : VarInt) (ha : decode a = some (x,u.encode++(encodeVarInt m++p.encode)))
    (hb : decode b = some (x,v.encode++(encodeVarInt n++q.encode)))
    (indexKeys : Bool) :
    Reports (resultIfOk (compareIndexDataKeys a b indexKeys))
      (u.word++if indexKeys then [] else p.word++[(m : ℤ)])
      (v.word++if indexKeys then [] else q.word++[(n : ℤ)]) := by
  have h := UserKey.compareEncoded_right u v (encodeVarInt m++p.encode) (encodeVarInt n++q.encode)
  simp only [compareIndexDataKeys,ha,hb,h.ok,Bool.true_eq_false,false_or]
  by_cases hx : (compareEncodedIDBKeysAt (u.encode++(encodeVarInt m++p.encode))
      (v.encode++(encodeVarInt n++q.encode))).result = 0
  · have hw : u.word = v.word := h.reports.zero_iff.mp hx
    rw [if_neg (by simp [hx]),hw,(h.pointers hx).1,(h.pointers hx).2]
    apply Reports.prepend
    cases indexKeys with
    | true => exact Reports.zero _
    | false => exact compareEntries_reports p q m n
  · rw [if_pos hx]
    exact h.reports.append_of_ne hx _ _

theorem compareUserKeys_reports {a b : Bytes} (u v : UserKey)
    (ha : decode a = some (x,u.encode)) (hb : decode b = some (x,v.encode)) :
    Reports (resultIfOk (compareAtLimits u.encode v.encode (compareUserKeys a b)))
      u.word v.word := by
  rw [compareAtLimits_of_ne_nil u.encode_ne_nil v.encode_ne_nil]
  simp only [compareUserKeys,ha,hb]
  exact UserKey.compareEncodedIDBKeys_reports u v

/-- Keys that share a prefix are of one kind and are compared behind it. -/
theorem compare_rest_reports (j k : StoreKey) (h : j.keyPrefix = k.keyPrefix) (indexKeys : Bool) :
    Reports (compare j.encode k.encode indexKeys) (j.restWord indexKeys)
      (k.restWord indexKeys) := by
  have ht := j.type_keyPrefix
  unfold compare
  induction j, k using StoreKey.pairs with
  | ne j k hne =>
    rw [← j.type_keyPrefix,← k.type_keyPrefix,h] at hne
    exact absurd rfl hne
  | globalMetaData j k =>
    obtain ⟨p,hp⟩ := j.decode_encode
    obtain ⟨q,hq⟩ := k.decode_encode
    rw [StoreKey.encode,StoreKey.encode,compareChecked_of_keyPrefix_eq hp hq]
    exact compareGlobalMetaData_reports j k p q
  | databaseMetaData d j e k =>
    obtain rfl : d = e := by simpa [StoreKey.keyPrefix,Subtype.ext_iff] using h
    obtain ⟨p,hp⟩ := j.decode_encode d
    obtain ⟨q,hq⟩ := k.decode_encode d
    rw [StoreKey.encode,StoreKey.encode,compareChecked_of_keyPrefix_eq hp hq]
    rw [show type ⟨d,0,0⟩ = .databaseMetaData from ht]
    exact compareDatabaseMetaData_reports d j k p q
  | objectStoreData d o u e o' v =>
    have hp := ObjectStoreDataKey.decode_encode d o u.encode
    have hq := ObjectStoreDataKey.decode_encode e o' v.encode
    rw [show (⟨e,o',objectStoreDataIndexId⟩ : KeyPrefix) = _ from h.symm] at hq
    rw [StoreKey.encode,StoreKey.encode,compareChecked_of_keyPrefix_eq hp hq]
    rw [show type ⟨d,o,_⟩ = .objectStoreData from ht]
    exact compareUserKeys_reports u v hp hq
  | existsEntry d o u e o' v =>
    have hp := ExistsEntryKey.decode_encode d o u.encode
    have hq := ExistsEntryKey.decode_encode e o' v.encode
    rw [show (⟨e,o',existsEntryIndexId⟩ : KeyPrefix) = _ from h.symm] at hq
    rw [StoreKey.encode,StoreKey.encode,compareChecked_of_keyPrefix_eq hp hq]
    rw [show type ⟨d,o,_⟩ = .existsEntry from ht]
    exact compareUserKeys_reports u v hp hq
  | indexData d o i u p m e o' i' v q n =>
    have hp := IndexDataKey.decode_encode d o i u.encode p.encode m
    have hq := IndexDataKey.decode_encode e o' i' v.encode q.encode n
    rw [show (⟨e,o',i'⟩ : KeyPrefix) = _ from h.symm] at hq
    rw [StoreKey.encode,StoreKey.encode,compareChecked_of_keyPrefix_eq hp hq]
    rw [show type ⟨d,o,i⟩ = .indexData from ht,compareByType,
      compareAtLimits_of_ne_nil (by simp [u.encode_ne_nil]) (by simp [v.encode_ne_nil])]
    exact compareIndexDataKeys_reports u v p q m n hp hq indexKeys

/-- `compare` reports the first difference of the words. -/
theorem compare_reports (j k : StoreKey) (indexKeys : Bool) :
    Reports (compare j.encode k.encode indexKeys) (j.word indexKeys) (k.word indexKeys) := by
  have hc := KeyPrefix.compare_reports j.keyPrefix k.keyPrefix
  by_cases h : j.keyPrefix.compare k.keyPrefix = 0
  · have he := eq_of_word_eq (hc.zero_iff.mp h)
    rw [StoreKey.word,StoreKey.word,← he]
    exact (compare_rest_reports j k he indexKeys).prepend _
  · rw [compare_of_keyPrefix_ne h]
    exact hc.append_of_ne h _ _

end

end QPlusWeb.IDB
