import QPlusWeb.IDBKeyOrder

/-!
# The keys of the backing store

All records of an IndexedDB backing store live in one LevelDB under keys that
start with a prefix of three ids. Below the prefix there is a type byte and
some fields, or a user key, or for index entries a user key, a sequence number
and a primary key. Every key class keeps its own `encode`; those that `compare`
parses also keep `decode` and `compare`, and the data keys are compared in
place.

Ids, strings and user keys that the callers may pass are types of their own, so
a `StoreKey` is always a key that can be written. Accessors and the `decode`
functions of the data keys are not modelled: `compare` does not use them.
-/
namespace QPlusWeb.IDB

/-- Eight rounds cover every 64-bit value. -/
def encodeIntLoop : ℕ → ℕ → Bytes
  | 0, _ => []
  | i + 1, n =>
    if n / 256 ≠ 0 then UInt8.ofNat (n % 256) :: encodeIntLoop i (n / 256)
    else [UInt8.ofNat (n % 256)]

def encodeInt (n : ℕ) : Bytes := encodeIntLoop 8 n

/-- With its `int64_t` difference as the source has it; ids are not negative. -/
def compareInts (a b : ℤ) : ℤ :=
  let diff := a - b
  if diff < 0 then -1 else if 0 < diff then 1 else 0

structure KeyPrefix where
  databaseId : ℤ
  objectStoreId : ℤ
  indexId : ℤ
  deriving DecidableEq, Repr

namespace KeyPrefix

inductive Kind where
  | globalMetaData | databaseMetaData | objectStoreData | existsEntry | indexData | invalidType
  deriving DecidableEq, Repr

def minimumIndexId : ℤ := 30
def objectStoreDataIndexId : ℤ := 1
def existsEntryIndexId : ℤ := 2

def maxDatabaseId : ℤ := 2 ^ 63 - 1
def maxObjectStoreId : ℤ := 2 ^ 63 - 1
def maxIndexId : ℤ := 2 ^ 31 - 1

def isValidDatabaseId (databaseId : ℤ) : Prop := 0 < databaseId ∧ databaseId < maxDatabaseId

def isValidObjectStoreId (objectStoreId : ℤ) : Prop :=
  0 < objectStoreId ∧ objectStoreId < maxObjectStoreId

def isValidIndexId (indexId : ℤ) : Prop := minimumIndexId ≤ indexId ∧ indexId < maxIndexId

def encodeInternal (databaseId objectStoreId indexId : ℕ) : Bytes :=
  let databaseIdString := encodeInt databaseId
  let objectStoreIdString := encodeInt objectStoreId
  let indexIdString := encodeInt indexId
  let firstByte := UInt8.ofNat ((databaseIdString.length - 1) <<< 5 |||
    (objectStoreIdString.length - 1) <<< 2 ||| (indexIdString.length - 1))
  firstByte :: (databaseIdString ++ (objectStoreIdString ++ indexIdString))

def encode (p : KeyPrefix) : Bytes :=
  encodeInternal p.databaseId.toNat p.objectStoreId.toNat p.indexId.toNat

def encodeEmpty : Bytes := [0, 0, 0, 0]

def compare (p other : KeyPrefix) : ℤ :=
  if p.databaseId ≠ other.databaseId then compareInts p.databaseId other.databaseId
  else if p.objectStoreId ≠ other.objectStoreId then
    compareInts p.objectStoreId other.objectStoreId
  else if p.indexId ≠ other.indexId then compareInts p.indexId other.indexId
  else 0

def type (p : KeyPrefix) : Kind :=
  if p.databaseId = 0 then .globalMetaData
  else if p.objectStoreId = 0 then .databaseMetaData
  else if p.indexId = objectStoreDataIndexId then .objectStoreData
  else if p.indexId = existsEntryIndexId then .existsEntry
  else if minimumIndexId ≤ p.indexId then .indexData
  else .invalidType

end KeyPrefix

/-! ### Values the callers may pass -/

abbrev DatabaseId := {n : ℕ // KeyPrefix.isValidDatabaseId n}

abbrev ObjectStoreId := {n : ℕ // KeyPrefix.isValidObjectStoreId n}

abbrev IndexId := {n : ℕ // KeyPrefix.isValidIndexId n}

/-- A number written with `encodeVarInt`: any `int64_t` that is not negative. -/
abbrev VarInt := {n : ℕ // n < 2 ^ 63}

abbrev Text := {s : List UChar // s.length < 2 ^ 32}

structure ValidKey where
  key : IDBKey
  isValid : key.isValid = true
  fits : key.Fits
  noNaN : key.NoNaN

/-- The encoded user keys of the callers: a key, or one end of the range. -/
inductive UserKey where
  | min
  | max
  | key (k : ValidKey)

def UserKey.encode : UserKey → Bytes
  | .min => minIDBKey
  | .max => maxIDBKey
  | .key k => encodeIDBKey k.key

/-! ### The key classes -/

def schemaVersionTypeByte : UInt8 := 0
def maxDatabaseIdTypeByte : UInt8 := 1
def dataVersionTypeByte : UInt8 := 2
def maxSimpleGlobalMetaDataTypeByte : UInt8 := 3
def databaseFreeListTypeByte : UInt8 := 100
def databaseNameTypeByte : UInt8 := 201

def objectStoreMetaDataTypeByte : UInt8 := 50
def indexMetaDataTypeByte : UInt8 := 100
def objectStoreFreeListTypeByte : UInt8 := 150
def indexFreeListTypeByte : UInt8 := 151
def objectStoreNamesTypeByte : UInt8 := 200
def indexNamesKeyTypeByte : UInt8 := 201

def SchemaVersionKey.encode : Bytes := KeyPrefix.encodeEmpty ++ encodeByte schemaVersionTypeByte

def MaxDatabaseIdKey.encode : Bytes := KeyPrefix.encodeEmpty ++ encodeByte maxDatabaseIdTypeByte

def DataVersionKey.encode : Bytes := KeyPrefix.encodeEmpty ++ encodeByte dataVersionTypeByte

structure DatabaseFreeListKey where
  databaseId : ℤ
  deriving DecidableEq, Repr

structure DatabaseNameKey where
  origin : List UChar
  databaseName : List UChar
  deriving DecidableEq, Repr

structure ObjectStoreMetaDataKey where
  objectStoreId : ℤ
  metaDataType : UInt8
  deriving DecidableEq, Repr

structure IndexMetaDataKey where
  objectStoreId : ℤ
  indexId : ℤ
  metaDataType : UInt8
  deriving DecidableEq, Repr

structure ObjectStoreFreeListKey where
  objectStoreId : ℤ
  deriving DecidableEq, Repr

structure IndexFreeListKey where
  objectStoreId : ℤ
  indexId : ℤ
  deriving DecidableEq, Repr

structure ObjectStoreNamesKey where
  objectStoreName : List UChar
  deriving DecidableEq, Repr

structure IndexNamesKey where
  objectStoreId : ℤ
  indexName : List UChar
  deriving DecidableEq, Repr

/-- `MaxSimpleMetaDataType` is the enumerator behind the last one in use. -/
inductive DatabaseMetaDataType where
  | originName | databaseName | userVersion | maxObjectStoreId | userIntVersion
  | maxSimpleMetaDataType
  deriving DecidableEq, Repr

def DatabaseMetaDataType.value : DatabaseMetaDataType → UInt8
  | .originName => 0
  | .databaseName => 1
  | .userVersion => 2
  | .maxObjectStoreId => 3
  | .userIntVersion => 4
  | .maxSimpleMetaDataType => 5

def DatabaseFreeListKey.encode (databaseId : ℕ) : Bytes :=
  KeyPrefix.encodeEmpty ++ (encodeByte databaseFreeListTypeByte ++ encodeVarInt databaseId)

def DatabaseNameKey.encode (origin databaseName : List UChar) : Bytes :=
  KeyPrefix.encodeEmpty ++ (encodeByte databaseNameTypeByte ++
    (encodeStringWithLength origin ++ encodeStringWithLength databaseName))

def DatabaseMetaDataKey.encode (databaseId : ℕ) (metaDataType : DatabaseMetaDataType) : Bytes :=
  KeyPrefix.encode ⟨databaseId, 0, 0⟩ ++ encodeByte metaDataType.value

def ObjectStoreMetaDataKey.encode (databaseId objectStoreId : ℕ) (metaDataType : UInt8) : Bytes :=
  KeyPrefix.encode ⟨databaseId, 0, 0⟩ ++ (encodeByte objectStoreMetaDataTypeByte ++
    (encodeVarInt objectStoreId ++ encodeByte metaDataType))

variable (databaseId objectStoreId indexId : ℕ)

def IndexMetaDataKey.encode (metaDataType : UInt8) : Bytes :=
  KeyPrefix.encode ⟨databaseId, 0, 0⟩ ++ (encodeByte indexMetaDataTypeByte ++
    (encodeVarInt objectStoreId ++ (encodeVarInt indexId ++ encodeByte metaDataType)))

def ObjectStoreFreeListKey.encode (databaseId objectStoreId : ℕ) : Bytes :=
  KeyPrefix.encode ⟨databaseId, 0, 0⟩ ++ (encodeByte objectStoreFreeListTypeByte ++
    encodeVarInt objectStoreId)

def IndexFreeListKey.encode : Bytes :=
  KeyPrefix.encode ⟨databaseId, 0, 0⟩ ++ (encodeByte indexFreeListTypeByte ++
    (encodeVarInt objectStoreId ++ encodeVarInt indexId))

def ObjectStoreNamesKey.encode (databaseId : ℕ) (objectStoreName : List UChar) : Bytes :=
  KeyPrefix.encode ⟨databaseId, 0, 0⟩ ++ (encodeByte objectStoreNamesTypeByte ++
    encodeStringWithLength objectStoreName)

def IndexNamesKey.encode (databaseId objectStoreId : ℕ) (indexName : List UChar) : Bytes :=
  KeyPrefix.encode ⟨databaseId, 0, 0⟩ ++ (encodeByte indexNamesKeyTypeByte ++
    (encodeVarInt objectStoreId ++ encodeStringWithLength indexName))

def ObjectStoreDataKey.encode (databaseId objectStoreId : ℕ) (encodedUserKey : Bytes) : Bytes :=
  KeyPrefix.encode ⟨databaseId, objectStoreId, KeyPrefix.objectStoreDataIndexId⟩ ++ encodedUserKey

def ExistsEntryKey.encode (databaseId objectStoreId : ℕ) (encodedKey : Bytes) : Bytes :=
  KeyPrefix.encode ⟨databaseId, objectStoreId, KeyPrefix.existsEntryIndexId⟩ ++ encodedKey

def IndexDataKey.encode (encodedUserKey encodedPrimaryKey : Bytes) (sequenceNumber : ℕ) : Bytes :=
  KeyPrefix.encode ⟨databaseId, objectStoreId, indexId⟩ ++ (encodedUserKey ++
    (encodeVarInt sequenceNumber ++ encodedPrimaryKey))

def DatabaseFreeListKey.compare (key other : DatabaseFreeListKey) : ℤ :=
  compareInts key.databaseId other.databaseId

def DatabaseNameKey.compare (key other : DatabaseNameKey) : ℤ :=
  let x := codePointCompare key.origin other.origin
  if x ≠ 0 then x else codePointCompare key.databaseName other.databaseName

def ObjectStoreMetaDataKey.compare (key other : ObjectStoreMetaDataKey) : ℤ :=
  let x := compareInts key.objectStoreId other.objectStoreId
  if x ≠ 0 then x
  else
    let result : ℤ := (key.metaDataType.toNat : ℤ) - other.metaDataType.toNat
    if result < 0 then -1 else if 0 < result then 1 else result

def IndexMetaDataKey.compare (key other : IndexMetaDataKey) : ℤ :=
  let x := compareInts key.objectStoreId other.objectStoreId
  if x ≠ 0 then x
  else
    let y := compareInts key.indexId other.indexId
    if y ≠ 0 then y else (key.metaDataType.toNat : ℤ) - other.metaDataType.toNat

def ObjectStoreFreeListKey.compare (key other : ObjectStoreFreeListKey) : ℤ :=
  compareInts key.objectStoreId other.objectStoreId

def IndexFreeListKey.compare (key other : IndexFreeListKey) : ℤ :=
  let x := compareInts key.objectStoreId other.objectStoreId
  if x ≠ 0 then x else compareInts key.indexId other.indexId

def ObjectStoreNamesKey.compare (key other : ObjectStoreNamesKey) : ℤ :=
  codePointCompare key.objectStoreName other.objectStoreName

def IndexNamesKey.compare (key other : IndexNamesKey) : ℤ :=
  let x := compareInts key.objectStoreId other.objectStoreId
  if x ≠ 0 then x else codePointCompare key.indexName other.indexName

section Readers
variable [WideShift]

def decodeIntLoop : ℕ → ℕ → Bytes → ℕ
  | ret, _, [] => ret
  | ret, shift, c :: p => decodeIntLoop (ret ||| shiftLeft64 c.toNat shift) (shift + 8) p

def decodeInt (p : Bytes) : ℤ := toInt64 (decodeIntLoop 0 0 p)

def KeyPrefix.decode : Reader KeyPrefix
  | [] => none
  | firstByte :: start =>
    let databaseIdBytes := (firstByte.toNat >>> 5) % 8 + 1
    let objectStoreIdBytes := (firstByte.toNat >>> 2) % 8 + 1
    let indexIdBytes := firstByte.toNat % 4 + 1
    if start.length < databaseIdBytes + objectStoreIdBytes + indexIdBytes then none
    else
      let afterDatabaseId := start.drop databaseIdBytes
      let afterObjectStoreId := afterDatabaseId.drop objectStoreIdBytes
      some (⟨decodeInt (start.take databaseIdBytes),
        decodeInt (afterDatabaseId.take objectStoreIdBytes),
        decodeInt (afterObjectStoreId.take indexIdBytes)⟩,
        afterObjectStoreId.drop indexIdBytes)

variable (start : Bytes)

/-- How every reader of a metadata key starts: the prefix and the type byte,
which is only asserted. -/
def decodeTypeByte : Option Bytes := do
  let (_, p) ← KeyPrefix.decode start
  let (_, p) ← decodeByte p
  return p

/-- `if (p == limit) return 0;` -/
def notAtLimit : Bytes → Option Bytes
  | [] => none
  | c :: p => some (c :: p)

def DatabaseFreeListKey.decode : Option (DatabaseFreeListKey × Bytes) := do
  let p ← decodeTypeByte start
  let p ← notAtLimit p
  let (databaseId, p) ← decodeVarInt p
  return (⟨databaseId⟩, p)

def DatabaseNameKey.decode : Option (DatabaseNameKey × Bytes) := do
  let p ← decodeTypeByte start
  let p ← notAtLimit p
  let (origin, p) ← decodeStringWithLength p
  let (databaseName, p) ← decodeStringWithLength p
  return (⟨origin, databaseName⟩, p)

def ObjectStoreMetaDataKey.decode : Option (ObjectStoreMetaDataKey × Bytes) := do
  let p ← decodeTypeByte start
  let p ← notAtLimit p
  let (objectStoreId, p) ← decodeVarInt p
  let (metaDataType, p) ← decodeByte p
  return (⟨objectStoreId, metaDataType⟩, p)

def IndexMetaDataKey.decode : Option (IndexMetaDataKey × Bytes) := do
  let p ← decodeTypeByte start
  let p ← notAtLimit p
  let (objectStoreId, p) ← decodeVarInt p
  let (indexId, p) ← decodeVarInt p
  let (metaDataType, p) ← decodeByte p
  return (⟨objectStoreId, indexId, metaDataType⟩, p)

def ObjectStoreFreeListKey.decode : Option (ObjectStoreFreeListKey × Bytes) := do
  let p ← decodeTypeByte start
  let p ← notAtLimit p
  let (objectStoreId, p) ← decodeVarInt p
  return (⟨objectStoreId⟩, p)

def IndexFreeListKey.decode : Option (IndexFreeListKey × Bytes) := do
  let p ← decodeTypeByte start
  let p ← notAtLimit p
  let (objectStoreId, p) ← decodeVarInt p
  let (indexId, p) ← decodeVarInt p
  return (⟨objectStoreId, indexId⟩, p)

/-- Alone in not testing for the limit behind the type byte. -/
def ObjectStoreNamesKey.decode : Option (ObjectStoreNamesKey × Bytes) := do
  let p ← decodeTypeByte start
  let (objectStoreName, p) ← decodeStringWithLength p
  return (⟨objectStoreName⟩, p)

def IndexNamesKey.decode : Option (IndexNamesKey × Bytes) := do
  let p ← decodeTypeByte start
  let p ← notAtLimit p
  let (objectStoreId, p) ← decodeVarInt p
  let (indexName, p) ← decodeStringWithLength p
  return (⟨objectStoreId, indexName⟩, p)

/-! ### The comparator -/

/-- The template `compare<KeyType>`: parse both sides, compare the fields. -/
def compareParsed {α : Type} (decode : Reader α) (compare : α → α → ℤ) (a b : Bytes) :
    ℤ × Bool :=
  match decode a, decode b with
  | some (keyA, _), some (keyB, _) => (compare keyA keyB, true)
  | _, _ => (0, false)

variable (a b : Bytes)

/-- `compare<ObjectStoreDataKey>` and `compare<ExistsEntryKey>`: the user keys
behind the prefixes. A prefix that does not parse is excluded by assertion. -/
def compareUserKeys : ℤ × Bool :=
  match KeyPrefix.decode a, KeyPrefix.decode b with
  | some (_, ptrA), some (_, ptrB) => compareEncodedIDBKeys ptrA ptrB
  | _, _ => (0, false)

def compareObjectStoreDataKeys : ℤ × Bool := compareUserKeys a b

def compareExistsEntryKeys : ℤ × Bool := compareUserKeys a b

/-- The optional sequence number: `-1` and no movement at the limit. -/
def decodeSequenceNumber : Bytes → Option (ℤ × Bytes)
  | [] => some (-1, [])
  | c :: p => decodeVarInt (c :: p)

/-- What `compare<IndexDataKey>` does behind two equal user keys. -/
def compareEntries (ptrA ptrB : Bytes) : ℤ × Bool :=
  match decodeSequenceNumber ptrA, decodeSequenceNumber ptrB with
  | some (sequenceNumberA, ptrA), some (sequenceNumberB, ptrB) =>
    if ptrA = [] ∧ ptrB = [] then (0, true)
    else if ptrA = [] then (-1, true)
    else if ptrB = [] then (1, true)
    else
      let r := compareEncodedIDBKeysAt ptrA ptrB
      if r.ok = false ∨ r.result ≠ 0 then (r.result, r.ok)
      else (compareInts sequenceNumberA sequenceNumberB, r.ok)
  | _, _ => (0, true)

def compareIndexDataKeys (ignoreDuplicates : Bool) : ℤ × Bool :=
  match KeyPrefix.decode a, KeyPrefix.decode b with
  | some (_, ptrA), some (_, ptrB) =>
    let r := compareEncodedIDBKeysAt ptrA ptrB
    if r.ok = false ∨ r.result ≠ 0 then (r.result, r.ok)
    else if ignoreDuplicates then (0, r.ok)
    else compareEntries r.ptrA r.ptrB
  | _, _ => (0, false)

/-- The branch for `KeyPrefix::GlobalMetaData`; a type byte without a class of
its own runs into `ASSERT_NOT_REACHED`. -/
def compareGlobalMetaData (a b ptrA ptrB : Bytes) : ℤ × Bool :=
  match ptrA, ptrB with
  | typeByteA :: _, typeByteB :: _ =>
    let x : ℤ := (typeByteA.toNat : ℤ) - typeByteB.toNat
    if x ≠ 0 then (x, true)
    else if typeByteA < maxSimpleGlobalMetaDataTypeByte then (0, true)
    else if typeByteA = databaseFreeListTypeByte then
      compareParsed DatabaseFreeListKey.decode DatabaseFreeListKey.compare a b
    else if typeByteA = databaseNameTypeByte then
      compareParsed DatabaseNameKey.decode DatabaseNameKey.compare a b
    else (0, false)
  | _, _ => (0, false)

def compareDatabaseMetaData (a b ptrA ptrB : Bytes) : ℤ × Bool :=
  match ptrA, ptrB with
  | typeByteA :: _, typeByteB :: _ =>
    let x : ℤ := (typeByteA.toNat : ℤ) - typeByteB.toNat
    if x ≠ 0 then (x, true)
    else if typeByteA < DatabaseMetaDataType.maxSimpleMetaDataType.value then (0, true)
    else if typeByteA = objectStoreMetaDataTypeByte then
      compareParsed ObjectStoreMetaDataKey.decode ObjectStoreMetaDataKey.compare a b
    else if typeByteA = indexMetaDataTypeByte then
      compareParsed IndexMetaDataKey.decode IndexMetaDataKey.compare a b
    else if typeByteA = objectStoreFreeListTypeByte then
      compareParsed ObjectStoreFreeListKey.decode ObjectStoreFreeListKey.compare a b
    else if typeByteA = indexFreeListTypeByte then
      compareParsed IndexFreeListKey.decode IndexFreeListKey.compare a b
    else if typeByteA = objectStoreNamesTypeByte then
      compareParsed ObjectStoreNamesKey.decode ObjectStoreNamesKey.compare a b
    else if typeByteA = indexNamesKeyTypeByte then
      compareParsed IndexNamesKey.decode IndexNamesKey.compare a b
    else (0, false)
  | _, _ => (0, false)

/-- The tests in front of the data keys: a key that ends with its prefix
comes first. -/
def compareAtLimits (ptrA ptrB : Bytes) (r : ℤ × Bool) : ℤ × Bool :=
  if ptrA = [] ∧ ptrB = [] then (0, true)
  else if ptrA = [] then (-1, true)
  else if ptrB = [] then (1, true)
  else r

/-- The branches behind two equal prefixes. -/
def compareByType (a b ptrA ptrB : Bytes) (indexKeys : Bool) : KeyPrefix.Kind → ℤ × Bool
  | .globalMetaData => compareGlobalMetaData a b ptrA ptrB
  | .databaseMetaData => compareDatabaseMetaData a b ptrA ptrB
  | .objectStoreData => compareAtLimits ptrA ptrB (compareObjectStoreDataKeys a b)
  | .existsEntry => compareAtLimits ptrA ptrB (compareExistsEntryKeys a b)
  | .indexData => compareAtLimits ptrA ptrB (compareIndexDataKeys a b indexKeys)
  | .invalidType => (0, false)

def compareChecked (indexKeys : Bool) : ℤ × Bool :=
  match KeyPrefix.decode a, KeyPrefix.decode b with
  | some (keyPrefixA, ptrA), some (keyPrefixB, ptrB) =>
    let x := keyPrefixA.compare keyPrefixB
    if x ≠ 0 then (x, true) else compareByType a b ptrA ptrB indexKeys keyPrefixA.type
  | _, _ => (0, false)

/-- `if (!ok) return 0; return result;` -/
def resultIfOk (r : ℤ × Bool) : ℤ := if r.2 then r.1 else 0

/-- `IDBLevelDBCoding::compare`. -/
def compare (indexKeys : Bool) : ℤ := resultIfOk (compareChecked a b indexKeys)

end Readers

/-! ### All keys -/

inductive GlobalKey where
  | schemaVersion
  | maxDatabaseId
  | dataVersion
  | databaseFreeList (databaseId : VarInt)
  | databaseName (origin databaseName : Text)

inductive DatabaseKey where
  | metaData (type : DatabaseMetaDataType)
  | objectStoreMetaData (objectStoreId : VarInt) (metaDataType : UInt8)
  | indexMetaData (objectStoreId indexId : VarInt) (metaDataType : UInt8)
  | objectStoreFreeList (objectStoreId : VarInt)
  | indexFreeList (objectStoreId indexId : VarInt)
  | objectStoreNames (objectStoreName : Text)
  | indexNames (objectStoreId : VarInt) (indexName : Text)

/-- One constructor for each kind of prefix. -/
inductive StoreKey where
  | globalMetaData (k : GlobalKey)
  | databaseMetaData (databaseId : DatabaseId) (k : DatabaseKey)
  | objectStoreData (databaseId : DatabaseId) (objectStoreId : ObjectStoreId) (userKey : UserKey)
  | existsEntry (databaseId : DatabaseId) (objectStoreId : ObjectStoreId) (userKey : UserKey)
  | indexData (databaseId : DatabaseId) (objectStoreId : ObjectStoreId) (indexId : IndexId)
      (userKey primaryKey : UserKey) (sequenceNumber : VarInt)

def GlobalKey.encode : GlobalKey → Bytes
  | .schemaVersion => SchemaVersionKey.encode
  | .maxDatabaseId => MaxDatabaseIdKey.encode
  | .dataVersion => DataVersionKey.encode
  | .databaseFreeList databaseId => DatabaseFreeListKey.encode databaseId
  | .databaseName origin name => DatabaseNameKey.encode origin name

def DatabaseKey.encode (databaseId : ℕ) : DatabaseKey → Bytes
  | .metaData type => DatabaseMetaDataKey.encode databaseId type
  | .objectStoreMetaData objectStoreId metaDataType =>
    ObjectStoreMetaDataKey.encode databaseId objectStoreId metaDataType
  | .indexMetaData objectStoreId indexId metaDataType =>
    IndexMetaDataKey.encode databaseId objectStoreId indexId metaDataType
  | .objectStoreFreeList objectStoreId => ObjectStoreFreeListKey.encode databaseId objectStoreId
  | .indexFreeList objectStoreId indexId =>
    IndexFreeListKey.encode databaseId objectStoreId indexId
  | .objectStoreNames objectStoreName => ObjectStoreNamesKey.encode databaseId objectStoreName
  | .indexNames objectStoreId indexName => IndexNamesKey.encode databaseId objectStoreId indexName

def StoreKey.encode : StoreKey → Bytes
  | .globalMetaData k => k.encode
  | .databaseMetaData databaseId k => k.encode databaseId
  | .objectStoreData databaseId objectStoreId userKey =>
    ObjectStoreDataKey.encode databaseId objectStoreId userKey.encode
  | .existsEntry databaseId objectStoreId userKey =>
    ExistsEntryKey.encode databaseId objectStoreId userKey.encode
  | .indexData databaseId objectStoreId indexId userKey primaryKey sequenceNumber =>
    IndexDataKey.encode databaseId objectStoreId indexId userKey.encode primaryKey.encode
      sequenceNumber

end QPlusWeb.IDB
