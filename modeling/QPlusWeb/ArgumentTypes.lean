import QPlusWeb.ObjectLayout
import Mathlib.Data.Multiset.Basic

/-!
# Types of message arguments

The types that messages between processes are built from: numbers, strings, byte arrays, pairs,
vectors and hash maps, nested to any depth.  A string is the same as another one if it has the same
characters, whatever the width in which they are stored.
-/

namespace QPlusWeb.IPC

open ObjectLayout List

/-! ### Numbers -/

/-- The arithmetic types. -/
inductive Arithmetic where
  | bool | uint8 | uint16 | uint32 | uint64 | int32 | int64 | float | double
  deriving DecidableEq

namespace Arithmetic

/-- A floating-point number is given by its bits. -/
@[reducible] def Object : Arithmetic → Type
  | bool => Bool
  | uint8 => UInt8
  | uint16 => UInt16
  | uint32 => UInt32
  | uint64 => UInt64
  | int32 => Int32
  | int64 => Int64
  | float => UInt32
  | double => UInt64

instance (s : Arithmetic) : DecidableEq s.Object := by
  cases s <;> exact inferInstance

/-- `sizeof`, which is also the alignment. -/
def size : Arithmetic → ℕ
  | bool | uint8 => 1
  | uint16 => 2
  | uint32 | int32 | float => 4
  | uint64 | int64 | double => 8

def number : (s : Arithmetic) → s.Object → ℕ
  | bool, b => b.toNat
  | uint8, n => n.toNat
  | uint16, n => n.toNat
  | uint32, n => n.toNat
  | uint64, n => n.toNat
  | int32, n => n.toUInt32.toNat
  | int64, n => n.toUInt64.toNat
  | float, n => n.toNat
  | double, n => n.toNat

def ofNumber : (s : Arithmetic) → ℕ → s.Object
  | bool, n => decide (n ≠ 0)
  | uint8, n => .ofNat n
  | uint16, n => .ofNat n
  | uint32, n => .ofNat n
  | uint64, n => .ofNat n
  | int32, n => (UInt32.ofNat n).toInt32
  | int64, n => (UInt64.ofNat n).toInt64
  | float, n => .ofNat n
  | double, n => .ofNat n

variable (s : Arithmetic)

/-- The bytes of an object in memory. -/
def bytes (object : s.Object) : List UInt8 :=
  littleEndianBytes s.size (s.number object)

def ofBytes (bytes : List UInt8) : s.Object := s.ofNumber (littleEndian bytes)

section
variable (s : Arithmetic) (object : s.Object)

theorem number_lt : s.number object < 256^s.size := by
  cases s with
  | bool =>
    cases object
    · decide
    · decide
  | uint8 => exact UInt8.toNat_lt object
  | uint16 => exact UInt16.toNat_lt object
  | uint32 => exact UInt32.toNat_lt object
  | uint64 => exact UInt64.toNat_lt object
  | int32 => exact UInt32.toNat_lt _
  | int64 => exact UInt64.toNat_lt _
  | float => exact UInt32.toNat_lt object
  | double => exact UInt64.toNat_lt object

theorem ofNumber_number : s.ofNumber (s.number object) = object := by
  cases s with
  | bool => cases object <;> rfl
  | uint8 => exact UInt8.ofNat_toNat
  | uint16 => exact UInt16.ofNat_toNat
  | uint32 => exact UInt32.ofNat_toNat
  | uint64 => exact UInt64.ofNat_toNat
  | int32 =>
    rw [ofNumber,number,UInt32.ofNat_toNat]
    rfl
  | int64 =>
    rw [ofNumber,number,UInt64.ofNat_toNat]
    rfl
  | float => exact UInt32.ofNat_toNat
  | double => exact UInt64.ofNat_toNat

theorem size_eq_two_pow : ∃ k ≤ 3, s.size = 2^k := by
  cases s with
  | bool | uint8 => exact ⟨0,by decide⟩
  | uint16 => exact ⟨1,by decide⟩
  | uint32 | int32 | float => exact ⟨2,by decide⟩
  | uint64 | int64 | double => exact ⟨3,by decide⟩

theorem size_pos : 0 < s.size := by
  cases s <;> decide

@[simp] theorem length_bytes : (s.bytes object).length = s.size := length_littleEndianBytes ..

theorem ofBytes_bytes : s.ofBytes (s.bytes object) = object := by
  rw [ofBytes,bytes,littleEndian_littleEndianBytes (s.number_lt object),ofNumber_number]

end

/-- The bytes of the objects of an array. -/
def arrayBytes (array : List s.Object) : List UInt8 :=
  (array.map s.bytes).flatten

def ofArrayBytes (n : ℕ) (bytes : List UInt8) : List s.Object :=
  (elements s.size n bytes).map s.ofBytes

theorem length_of_mem_map_bytes {s : Arithmetic} (array : List s.Object) :
    ∀ object ∈ array.map s.bytes, object.length = s.size := by
  intro object ho
  obtain ⟨n,-,rfl⟩ := mem_map.mp ho
  exact s.length_bytes n

@[simp] theorem length_arrayBytes (array : List s.Object) :
    (s.arrayBytes array).length = array.length*s.size := by
  rw [arrayBytes,length_flatten_of_forall (length_of_mem_map_bytes array),length_map]

theorem ofArrayBytes_arrayBytes (array : List s.Object) :
    s.ofArrayBytes array.length (s.arrayBytes array) = array := by
  have he := elements_flatten_append (length_of_mem_map_bytes array) []
  rw [length_map,append_nil] at he
  rw [ofArrayBytes,arrayBytes,he,map_map]
  exact (map_congr_left fun n _ => s.ofBytes_bytes n).trans (map_id _)

end Arithmetic

/-! ### Strings -/

/-- The characters of a string, in one of the two widths. -/
inductive StringImpl where
  | characters8 (characters : List UInt8)
  | characters16 (characters : List UInt16)

namespace StringImpl

def characters : StringImpl → List UInt16
  | characters8 characters => characters.map UInt8.toUInt16
  | characters16 characters => characters

/-- A string without characters is always the shared one, which has 8-bit characters. -/
def ofCharacters16 (characters : List UInt16) : StringImpl :=
  if characters = [] then .characters8 [] else .characters16 characters

theorem characters_ofCharacters16 (characters : List UInt16) :
    (ofCharacters16 characters).characters = characters := by
  unfold ofCharacters16
  split
  next h =>
    subst h
    rfl
  next => rfl

end StringImpl

/-- The table of atomic strings: it may hold a string with the same characters already. -/
structure AtomTable where
  add : StringImpl → StringImpl
  characters_add : ∀ string, (add string).characters = string.characters

/-! ### Types -/

inductive ArgumentType where
  | arithmetic (s : Arithmetic)
  | cString
  | string
  | atomicString
  | dataReference
  | pair (first second : ArgumentType)
  | vector (element : ArgumentType)
  | hashMap (key mapped : ArgumentType)

namespace ArgumentType

/-- A null string is `none`.  A hash map is the list of its entries. -/
@[reducible] def Object : ArgumentType → Type
  | arithmetic s => s.Object
  | cString => Option (List UInt8)
  | string => Option StringImpl
  | atomicString => Option StringImpl
  | dataReference => List UInt8
  | pair first second => first.Object × second.Object
  | vector element => List element.Object
  | hashMap key mapped => List (key.Object × mapped.Object)

/-- An object of the type, such as a variable holds before it is assigned to. -/
def default : (t : ArgumentType) → t.Object
  | arithmetic s => s.ofNumber 0
  | cString => none
  | string => none
  | atomicString => none
  | dataReference => []
  | pair first second => (first.default, second.default)
  | vector _ => []
  | hashMap _ _ => []

/-- What `==` compares: characters of strings and, in any order, entries of hash maps. -/
@[reducible] def Value : ArgumentType → Type
  | arithmetic s => s.Object
  | cString => Option (List UInt8)
  | string => Option (List UInt16)
  | atomicString => Option (List UInt16)
  | dataReference => List UInt8
  | pair first second => first.Value × second.Value
  | vector element => List element.Value
  | hashMap key mapped => Multiset (key.Value × mapped.Value)

def decEqValue : (t : ArgumentType) → DecidableEq t.Value
  | arithmetic s => inferInstanceAs (DecidableEq s.Object)
  | cString => inferInstanceAs (DecidableEq (Option (List UInt8)))
  | string => inferInstanceAs (DecidableEq (Option (List UInt16)))
  | atomicString => inferInstanceAs (DecidableEq (Option (List UInt16)))
  | dataReference => inferInstanceAs (DecidableEq (List UInt8))
  | pair first second =>
    haveI := first.decEqValue
    haveI := second.decEqValue
    inferInstanceAs (DecidableEq (first.Value × second.Value))
  | vector element =>
    haveI := element.decEqValue
    inferInstanceAs (DecidableEq (List element.Value))
  | hashMap key mapped =>
    haveI := key.decEqValue
    haveI := mapped.decEqValue
    inferInstanceAs (DecidableEq (Multiset (key.Value × mapped.Value)))

instance (t : ArgumentType) : DecidableEq t.Value := t.decEqValue

def value : (t : ArgumentType) → t.Object → t.Value
  | arithmetic _, object => object
  | cString, object => object
  | string, object => object.map StringImpl.characters
  | atomicString, object => object.map StringImpl.characters
  | dataReference, object => object
  | pair first second, object => (first.value object.1, second.value object.2)
  | vector element, object => object.map element.value
  | hashMap key mapped, object =>
    Multiset.ofList (object.map fun entry => (key.value entry.1, mapped.value entry.2))

/-- Strings have fewer than `2 ^ 32 - 1` characters, sizes are 64-bit numbers, and the keys of a hash
map are different. -/
def Valid : (t : ArgumentType) → t.Object → Prop
  | arithmetic _, _ => True
  | cString, object => ∀ bytes ∈ object, bytes.length < 2 ^ 32 - 1
  | string, object => ∀ s ∈ object, s.characters.length < 2 ^ 32 - 1
  | atomicString, object => ∀ s ∈ object, s.characters.length < 2 ^ 32 - 1
  | dataReference, object => object.length < 2 ^ 64
  | pair first second, object => first.Valid object.1 ∧ second.Valid object.2
  | vector element, object => object.length < 2 ^ 64 ∧ ∀ x ∈ object, element.Valid x
  | hashMap key mapped, object =>
    object.length < 2 ^ 64 ∧ (∀ entry ∈ object, key.Valid entry.1 ∧ mapped.Valid entry.2) ∧
      (object.map fun entry => key.value entry.1).Nodup

end ArgumentType

/-- An object with its type. -/
abbrev Argument := Σ t : ArgumentType, t.Object

def Argument.value (argument : Argument) : Σ t : ArgumentType, t.Value :=
  ⟨argument.1, argument.1.value argument.2⟩

end QPlusWeb.IPC
