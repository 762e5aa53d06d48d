import QPlusWeb.ArgumentTypes

/-!
# Encoding of message arguments

`ArgumentEncoder` appends the bytes of an object to its buffer.  Every object is aligned to its width
relative to the start of the buffer; the bytes that are skipped for that are not written.
-/

namespace QPlusWeb.IPC

open ObjectLayout List

/-- `buffer` has the first `bufferSize` bytes of the memory of the encoder, and `memory` what its
bytes are before they are written. -/
structure ArgumentEncoder where
  buffer : List UInt8
  bufferCapacity : ℕ
  memory : ℕ → UInt8

namespace ArgumentEncoder

def create (memory : ℕ → UInt8) : ArgumentEncoder := ⟨[], 512, memory⟩

variable (e : ArgumentEncoder)

def bufferSize : ℕ := e.buffer.length

/-- The loop of `grow`; the required capacity bounds its steps. -/
def doubleCapacity (required : ℕ) : ℕ → ℕ → ℕ
  | 0, newCapacity => newCapacity
  | n + 1, newCapacity =>
    if newCapacity < required then doubleCapacity required n (newCapacity * 2) else newCapacity

/-- Appends `size` bytes that are still to be written. -/
def grow (alignment size : ℕ) : ArgumentEncoder :=
  let alignedSize := roundUp e.bufferSize alignment
  let required := alignedSize + size
  { e with
    buffer := e.buffer ++ (List.range (required - e.bufferSize)).map fun i =>
      e.memory (e.bufferSize + i)
    bufferCapacity :=
      if required > e.bufferCapacity then
        doubleCapacity required required (roundUp (e.bufferCapacity * 2) 4096)
      else e.bufferCapacity }

/-- Writes the last bytes of the buffer. -/
def copyToBuffer (data : List UInt8) : ArgumentEncoder :=
  { e with buffer := e.buffer.take (e.bufferSize - data.length) ++ data }

def encodeFixedLengthData (data : List UInt8) (alignment : ℕ) (e : ArgumentEncoder) :
    ArgumentEncoder :=
  (e.grow alignment data.length).copyToBuffer data

def encodeArithmetic (s : Arithmetic) (n : s.Object) (e : ArgumentEncoder) : ArgumentEncoder :=
  (e.grow s.size s.size).copyToBuffer (s.bytes n)

def encodeVariableLengthByteArray (data : List UInt8) (e : ArgumentEncoder) : ArgumentEncoder :=
  encodeFixedLengthData data 1 (encodeArithmetic .uint64 (.ofNat data.length) e)

def encodeCString (string : Option (List UInt8)) (e : ArgumentEncoder) : ArgumentEncoder :=
  match string with
  | none => encodeArithmetic .uint32 (.ofNat (2 ^ 32 - 1)) e
  | some bytes =>
    encodeFixedLengthData bytes 1 (encodeArithmetic .uint32 (.ofNat bytes.length) e)

def encodeString (string : Option StringImpl) (e : ArgumentEncoder) : ArgumentEncoder :=
  match string with
  | none => encodeArithmetic .uint32 (.ofNat (2 ^ 32 - 1)) e
  | some (.characters8 characters) =>
    let e := encodeArithmetic .uint32 (.ofNat characters.length) e
    let e := encodeArithmetic .bool true e
    encodeFixedLengthData (Arithmetic.uint8.arrayBytes characters) Arithmetic.uint8.size e
  | some (.characters16 characters) =>
    let e := encodeArithmetic .uint32 (.ofNat characters.length) e
    let e := encodeArithmetic .bool false e
    encodeFixedLengthData (Arithmetic.uint16.arrayBytes characters) Arithmetic.uint16.size e

/-- The elements of a vector; those of an arithmetic type are copied at once. -/
def encodeElements : (element : ArgumentType) →
    (element.Object → ArgumentEncoder → ArgumentEncoder) → List element.Object →
      ArgumentEncoder → ArgumentEncoder
  | .arithmetic s, _, vector, e => encodeFixedLengthData (s.arrayBytes vector) s.size e
  | _, encode, vector, e => vector.foldl (fun e x => encode x e) e

/-- `ArgumentCoder<T>::encode` -/
def encode : (t : ArgumentType) → t.Object → ArgumentEncoder → ArgumentEncoder
  | .arithmetic s, object, e => encodeArithmetic s object e
  | .cString, object, e => encodeCString object e
  | .string, object, e => encodeString object e
  | .atomicString, object, e => encodeString object e
  | .dataReference, object, e => encodeVariableLengthByteArray object e
  | .pair first second, object, e => encode second object.2 (encode first object.1 e)
  | .vector element, object, e =>
    let e := encodeArithmetic .uint64 (.ofNat object.length) e
    encodeElements element (encode element) object e
  | .hashMap key mapped, object, e =>
    let e := encodeArithmetic .uint64 (.ofNat object.length) e
    object.foldl (fun e entry => encode mapped entry.2 (encode key entry.1 e)) e

/-- The arguments of a message one after another. -/
def encodeAll (arguments : List Argument) (e : ArgumentEncoder) : ArgumentEncoder :=
  arguments.foldl (fun e argument => encode argument.1 argument.2 e) e

/-! ### The buffer -/

variable {e : ArgumentEncoder} {data : List UInt8} {alignment : ℕ}

theorem encodeArithmetic_eq (s : Arithmetic) (n : s.Object) :
    encodeArithmetic s n e = encodeFixedLengthData (s.bytes n) s.size e := by
  rw [encodeArithmetic,encodeFixedLengthData,s.length_bytes]

/-- The bytes that are skipped and the data are appended. -/
theorem buffer_encodeFixedLengthData (ha : 0 < alignment) (data : List UInt8)
    (e : ArgumentEncoder) :
    ∃ padding : List UInt8, padding.length = roundUp e.bufferSize alignment-e.bufferSize ∧
      (encodeFixedLengthData data alignment e).buffer = e.buffer++padding++data := by
  have hle : e.bufferSize ≤ roundUp e.bufferSize alignment := le_roundUp ha
  refine ⟨(List.range (roundUp e.bufferSize alignment-e.bufferSize)).map fun i =>
    e.memory (e.bufferSize+i),by simp,?_⟩
  have hl : e.buffer.length = e.bufferSize := rfl
  have hs : (e.grow alignment data.length).bufferSize-data.length =
      roundUp e.bufferSize alignment := by
    rw [bufferSize,grow,length_append,length_map,length_range,hl]
    omega
  have hm : min (roundUp e.bufferSize alignment-e.buffer.length)
      (roundUp e.bufferSize alignment+data.length-e.bufferSize) =
        roundUp e.bufferSize alignment-e.bufferSize := by omega
  rw [encodeFixedLengthData,copyToBuffer,hs]
  simp only [grow]
  rw [take_append,take_of_length_le hle,← map_take,take_range,hm]

theorem bufferSize_encodeFixedLengthData (ha : 0 < alignment) (data : List UInt8)
    (e : ArgumentEncoder) :
    (encodeFixedLengthData data alignment e).bufferSize =
      roundUp e.bufferSize alignment+data.length := by
  obtain ⟨padding,hp,hb⟩ := buffer_encodeFixedLengthData ha data e
  have hle : e.bufferSize ≤ roundUp e.bufferSize alignment := le_roundUp ha
  have hl : e.buffer.length = e.bufferSize := rfl
  rw [bufferSize,hb,length_append,length_append,hp,hl]
  omega

end ArgumentEncoder

end QPlusWeb.IPC
