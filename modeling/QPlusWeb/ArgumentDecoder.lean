import QPlusWeb.ArgumentTypes

/-!
# Decoding of message arguments

`ArgumentDecoder` reads objects from a copy of a buffer that another process has filled, so that its
bytes may be anything.  The position is an address and is aligned as such; a decoder that has failed
has a position behind the end of its buffer.

An access outside the buffer and a size that does not fit into 64 bits are faults of the program, not
failures of a decoder.
-/

namespace QPlusWeb.IPC

open ObjectLayout

/-- What a program must not do. -/
inductive Fault where
  | readsOutsideBuffer
  | productWraps
  deriving DecidableEq

/-- `buffer` is the address of the first of the `bytes`, `bufferPos` the address of the next one. -/
structure ArgumentDecoder where
  buffer : ℕ
  bytes : List UInt8
  bufferPos : ℕ
  deriving DecidableEq

/-- What a decode function returns, and the decoder and the destination after that. -/
structure Outcome (α : Type) where
  returned : Bool
  decoder : ArgumentDecoder
  destination : α

namespace ArgumentDecoder

def create (buffer : ℕ) (bytes : List UInt8) : ArgumentDecoder := ⟨buffer, bytes, buffer⟩

variable (d : ArgumentDecoder)

def bufferEnd : ℕ := d.buffer + d.bytes.length

def isInvalid : Bool := decide (d.bufferPos > d.bufferEnd)

def markInvalid : ArgumentDecoder :=
  { d with bufferPos := (d.bufferEnd + 1) % 2 ^ 64 }

def alignedBufferIsLargeEnoughToContain (alignedPosition bufferEnd size : ℕ) : Bool :=
  decide (bufferEnd ≥ alignedPosition) && decide (bufferEnd - alignedPosition ≥ size)

/-- Whether the buffer is large enough, and the decoder. -/
def alignBufferPosition (alignment size : ℕ) : Bool × ArgumentDecoder :=
  let alignedPosition := roundUpAddress d.bufferPos alignment
  if alignedBufferIsLargeEnoughToContain alignedPosition d.bufferEnd size then
    (true, { d with bufferPos := alignedPosition })
  else (false, d.markInvalid)

/-- The product of a number of elements and the size of one. -/
def sizeOfElements (numElements size : ℕ) : Except Fault ℕ :=
  if numElements * size < 2 ^ 64 then .ok (numElements * size) else .error .productWraps

variable (s : Arithmetic)

/-- `bufferIsLargeEnoughToContain<T>` -/
def bufferIsLargeEnoughToContain (numElements : ℕ) : Except Fault Bool := do
  if numElements > (2 ^ 64 - 1) / s.size then return false
  let size ← sizeOfElements numElements s.size
  return alignedBufferIsLargeEnoughToContain (roundUpAddress d.bufferPos s.size) d.bufferEnd size

/-- The bytes at the position, which moves behind them. -/
def readBytes (size : ℕ) : Except Fault (List UInt8 × ArgumentDecoder) :=
  if d.buffer ≤ d.bufferPos ∧ d.bufferPos + size ≤ d.bufferEnd then
    .ok ((d.bytes.drop (d.bufferPos - d.buffer)).take size,
      { d with bufferPos := d.bufferPos + size })
  else .error .readsOutsideBuffer

def decodeFixedLengthData (size alignment : ℕ) (d : ArgumentDecoder) (data : List UInt8) :
    Except Fault (Outcome (List UInt8)) := do
  let aligned := d.alignBufferPosition alignment size
  if aligned.1 then
    let read ← aligned.2.readBytes size
    return ⟨true, read.2, read.1⟩
  else return ⟨false, aligned.2, data⟩

def decodeArithmetic (d : ArgumentDecoder) (result : s.Object) :
    Except Fault (Outcome s.Object) := do
  let aligned := d.alignBufferPosition s.size s.size
  if aligned.1 then
    let read ← aligned.2.readBytes s.size
    return ⟨true, read.2, s.ofBytes read.1⟩
  else return ⟨false, aligned.2, result⟩

/-- Decodes a variable and goes on, unless that fails: `if (!decoder.decode(variable)) return false`. -/
def decodeThen {α β : Type} (decode : ArgumentDecoder → α → Except Fault (Outcome α)) (initial : α)
    (d : ArgumentDecoder) (destination : β)
    (next : α → ArgumentDecoder → Except Fault (Outcome β)) : Except Fault (Outcome β) := do
  let outcome ← decode d initial
  if outcome.returned then next outcome.destination outcome.decoder
  else return ⟨false, outcome.decoder, destination⟩

/-- Goes on if the elements fit: `if (!decoder.bufferIsLargeEnoughToContain<T>(n))` marks the decoder
as invalid and returns false. -/
def ifLargeEnough {α : Type} (numElements : ℕ) (d : ArgumentDecoder)
    (destination : α) (next : Except Fault (Outcome α)) : Except Fault (Outcome α) := do
  if ← d.bufferIsLargeEnoughToContain s numElements then next
  else return ⟨false, d.markInvalid, destination⟩

def decodeVariableLengthByteArray (dataReference : List UInt8) :
    Except Fault (Outcome (List UInt8)) :=
  decodeThen (decodeArithmetic .uint64) 0 d dataReference fun size d => do
    let aligned := d.alignBufferPosition 1 size.toNat
    if aligned.1 then
      let data ← aligned.2.readBytes size.toNat
      return ⟨true, data.2, data.1⟩
    else return ⟨false, aligned.2, dataReference⟩

def decodeCString (result : Option (List UInt8)) : Except Fault (Outcome (Option (List UInt8))) :=
  decodeThen (decodeArithmetic .uint32) 0 d result fun length d =>
    if length.toNat = 2 ^ 32 - 1 then return ⟨true, d, none⟩
    else
      ifLargeEnough .uint8 length.toNat d result <|
        decodeThen (decodeFixedLengthData length.toNat 1) [] d result fun buffer d =>
          return ⟨true, d, some buffer⟩

/-- The characters have the type `s`. -/
def decodeStringText (create : List s.Object → StringImpl) (length : ℕ)
    (d : ArgumentDecoder) (result : Option StringImpl) :
    Except Fault (Outcome (Option StringImpl)) :=
  ifLargeEnough s length d result do
    let size ← sizeOfElements length s.size
    decodeThen (decodeFixedLengthData size s.size) [] d result fun buffer d =>
      return ⟨true, d, some (create (s.ofArrayBytes length buffer))⟩

/-- The flag and the characters, behind the length. -/
def decodeCharacters (length : ℕ) (d : ArgumentDecoder) (result : Option StringImpl) :
    Except Fault (Outcome (Option StringImpl)) :=
  decodeThen (decodeArithmetic .bool) false d result fun is8Bit d =>
    if is8Bit then decodeStringText .uint8 .characters8 length d result
    else decodeStringText .uint16 .ofCharacters16 length d result

def decodeString (result : Option StringImpl) : Except Fault (Outcome (Option StringImpl)) :=
  decodeThen (decodeArithmetic .uint32) 0 d result fun length d =>
    if length.toNat = 2 ^ 32 - 1 then return ⟨true, d, none⟩
    else decodeCharacters length.toNat d result

def decodeAtomicString (atoms : AtomTable) (d : ArgumentDecoder) (atomicString : Option StringImpl) :
    Except Fault (Outcome (Option StringImpl)) :=
  decodeThen decodeString none d atomicString fun string d =>
    return ⟨true, d, string.map atoms.add⟩

def decodePair {α β : Type} (decodeFirst : ArgumentDecoder → α → Except Fault (Outcome α))
    (decodeSecond : ArgumentDecoder → β → Except Fault (Outcome β)) (first : α) (second : β)
    (d : ArgumentDecoder) (pair : α × β) : Except Fault (Outcome (α × β)) :=
  decodeThen decodeFirst first d pair fun first d =>
    decodeThen decodeSecond second d pair fun second d =>
      return ⟨true, d, (first, second)⟩

/-- The loop over the elements of a vector. -/
def decodeElements {α : Type} (decode : ArgumentDecoder → α → Except Fault (Outcome α))
    (initial : α) :
    ℕ → List α → ArgumentDecoder → List α → Except Fault (Outcome (List α))
  | 0, tmp, d, _ => return ⟨true, d, tmp⟩
  | n + 1, tmp, d, vector =>
    decodeThen decode initial d vector fun element d =>
      decodeElements decode initial n (tmp ++ [element]) d vector

/-- The elements of an arithmetic type. -/
def decodeArray (size : ℕ) (d : ArgumentDecoder) (vector : List s.Object) :
    Except Fault (Outcome (List s.Object)) :=
  ifLargeEnough s size d vector do
    let length ← sizeOfElements size s.size
    -- what this returns is not looked at
    let temp ← decodeFixedLengthData length s.size d []
    return ⟨true, temp.decoder, s.ofArrayBytes size temp.destination⟩

/-- The elements of a vector. -/
def decodeVectorElements : (element : ArgumentType) →
    (ArgumentDecoder → element.Object → Except Fault (Outcome element.Object)) →
      ℕ → ArgumentDecoder → List element.Object → Except Fault (Outcome (List element.Object))
  | .arithmetic s, _, size, d, vector => decodeArray s size d vector
  | element, decode, size, d, vector => decodeElements decode element.default size [] d vector

/-- The loop over the entries of a hash map; a key must not be there already. -/
def decodeEntries (key mapped : ArgumentType)
    (decodeKey : ArgumentDecoder → key.Object → Except Fault (Outcome key.Object))
    (decodeMapped : ArgumentDecoder → mapped.Object → Except Fault (Outcome mapped.Object)) :
    ℕ → List (key.Object × mapped.Object) → ArgumentDecoder → List (key.Object × mapped.Object) →
      Except Fault (Outcome (List (key.Object × mapped.Object)))
  | 0, tempHashMap, d, _ => return ⟨true, d, tempHashMap⟩
  | n + 1, tempHashMap, d, hashMap =>
    decodeThen decodeKey key.default d hashMap fun k d =>
      decodeThen decodeMapped mapped.default d hashMap fun value d =>
        if key.value k ∈ tempHashMap.map fun entry => key.value entry.1 then
          return ⟨false, d.markInvalid, hashMap⟩
        else
          decodeEntries key mapped decodeKey decodeMapped n (tempHashMap ++ [(k, value)]) d hashMap

/-- `ArgumentCoder<T>::decode` -/
def decode (atoms : AtomTable) : (t : ArgumentType) → ArgumentDecoder → t.Object →
    Except Fault (Outcome t.Object)
  | .arithmetic s, d, object => decodeArithmetic s d object
  | .cString, d, object => decodeCString d object
  | .string, d, object => decodeString d object
  | .atomicString, d, object => decodeAtomicString atoms d object
  | .dataReference, d, object => decodeVariableLengthByteArray d object
  | .pair first second, d, object =>
    decodePair (decode atoms first) (decode atoms second) first.default second.default d object
  | .vector element, d, object =>
    decodeThen (decodeArithmetic .uint64) 0 d object fun size d =>
      decodeVectorElements element (decode atoms element) size.toNat d object
  | .hashMap key mapped, d, object =>
    decodeThen (decodeArithmetic .uint64) 0 d object fun hashMapSize d =>
      decodeEntries key mapped (decode atoms key) (decode atoms mapped) hashMapSize.toNat [] d
        object

/-- The requests one after another, each with its destination; what each of them returns. -/
def decodeAll (atoms : AtomTable) : List Argument → ArgumentDecoder →
    Except Fault (List (Outcome Argument) × ArgumentDecoder)
  | [], d => return ([], d)
  | request :: requests, d => do
    let outcome ← decode atoms request.1 d request.2
    let rest ← decodeAll atoms requests outcome.decoder
    return (⟨outcome.returned, outcome.decoder, request.1, outcome.destination⟩ :: rest.1, rest.2)

theorem alignedBufferIsLargeEnoughToContain_iff {alignedPosition bufferEnd size : ℕ} :
    alignedBufferIsLargeEnoughToContain alignedPosition bufferEnd size ↔
      alignedPosition+size ≤ bufferEnd := by
  rw [alignedBufferIsLargeEnoughToContain,Bool.and_eq_true,decide_eq_true_iff,decide_eq_true_iff]
  omega

end ArgumentDecoder

end QPlusWeb.IPC
