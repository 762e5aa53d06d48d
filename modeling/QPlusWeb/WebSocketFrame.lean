import QPlusWeb.NetworkBytes
import Mathlib.Data.FinEnum

/-!
# Frames of a web socket

The parser and the serializer of `WebSocketFrame`.  The buffer of the parser is a list of bytes and
is returned with the changes that unmasking makes in place; the pointers `payload` and `frameEnd`
are the bytes they point to and an offset.  Lengths are numbers of `size_t`, with 64 bits.
-/

namespace QPlusWeb.WebSockets

open NetworkBytes List UInt8 Nat

/-! ### Constants of the frame format -/

def finalBit : UInt8 := 0x80
def compressBit : UInt8 := 0x40
def reserved2Bit : UInt8 := 0x20
def reserved3Bit : UInt8 := 0x10
def opCodeMask : UInt8 := 0xF
def maskBit : UInt8 := 0x80
def payloadLengthMask : UInt8 := 0x7F
def maxPayloadLengthWithoutExtendedLengthField : ℕ := 125
def payloadLengthWithTwoByteExtendedLengthField : ℕ := 126
def payloadLengthWithEightByteExtendedLengthField : ℕ := 127
def maskingKeyWidthInBytes : ℕ := 4
def maxPayloadLength : ℕ := 0x7FFFFFFFFFFFFFFF

/-- Values of the enumeration; the parser also returns codes without a name. -/
abbrev OpCode := UInt8

/-- A frame; `payload` has `payloadLength` bytes. -/
structure WebSocketFrame where
  opCode : OpCode
  final : Bool
  compress : Bool
  reserved2 : Bool
  reserved3 : Bool
  masked : Bool
  payload : List UInt8
  deriving DecidableEq, Repr

inductive ParseFrameResult where
  | frameOK (frame : WebSocketFrame) (frameEnd : ℕ)
  | frameIncomplete
  | frameError (errorString : String)
  deriving DecidableEq, Repr

/-! ### The parser -/

/-- The loop over the bytes of an extended length, on `uint64_t`. -/
def readLength (bytes : List UInt8) : ℕ :=
  bytes.foldl (fun payloadLength64 b => (payloadLength64 <<< 8) % 2 ^ 64 ||| b.toNat) 0

def minimalLengthError : String := "The minimal number of bytes MUST be used to encode the length"

/-- The payload length and the number of bytes of its extended field; `rest` is the buffer behind
the first two bytes. -/
def parsePayloadLength (secondByte : UInt8) (rest : List UInt8) :
    Except ParseFrameResult (ℕ × ℕ) :=
  let payloadLength64 := (secondByte &&& payloadLengthMask).toNat
  if payloadLength64 > maxPayloadLengthWithoutExtendedLengthField then
    let extendedPayloadLengthSize :=
      if payloadLength64 = payloadLengthWithTwoByteExtendedLengthField then 2 else 8
    if rest.length < extendedPayloadLengthSize then .error .frameIncomplete
    else
      let payloadLength64 := readLength (rest.take extendedPayloadLengthSize)
      if extendedPayloadLengthSize = 2 ∧
          payloadLength64 ≤ maxPayloadLengthWithoutExtendedLengthField then
        .error (.frameError minimalLengthError)
      else if extendedPayloadLengthSize = 8 ∧ payloadLength64 ≤ 0xFFFF then
        .error (.frameError minimalLengthError)
      else .ok (payloadLength64, extendedPayloadLengthSize)
  else .ok (payloadLength64, 0)

variable (masked : Bool)

/-- The loop that unmasks or masks the payload behind the key at `p`. -/
def unmaskPayload (p : ℕ) (data : List UInt8) (payloadLength : ℕ) : List UInt8 :=
  if masked then
    maskInPlace maskingKeyWidthInBytes p (p + maskingKeyWidthInBytes) data payloadLength
  else data

/-- The result, and the buffer with the payload unmasked. -/
def parseFrame (data : List UInt8) : ParseFrameResult × List UInt8 :=
  match data with
  | firstByte :: secondByte :: rest =>
    let masked := decide (secondByte &&& maskBit ≠ 0)
    match parsePayloadLength secondByte rest with
    | .error result => (result, data)
    | .ok (payloadLength64, extendedPayloadLengthSize) =>
      let p := 2 + extendedPayloadLengthSize
      let maskingKeyLength := if masked then maskingKeyWidthInBytes else 0
      if payloadLength64 > maxPayloadLength ∨
          (payloadLength64 + maskingKeyLength) % 2 ^ 64 > 2 ^ 64 - 1 then
        (.frameError ("WebSocket frame length too large: " ++ toString payloadLength64 ++
          " bytes"), data)
      else if data.length - p < maskingKeyLength + payloadLength64 then (.frameIncomplete, data)
      else
        let data := unmaskPayload masked p data payloadLength64
        (.frameOK
          { opCode := firstByte &&& opCodeMask
            final := decide (firstByte &&& finalBit ≠ 0)
            compress := decide (firstByte &&& compressBit ≠ 0)
            reserved2 := decide (firstByte &&& reserved2Bit ≠ 0)
            reserved3 := decide (firstByte &&& reserved3Bit ≠ 0)
            masked
            payload := (data.drop (p + maskingKeyLength)).take payloadLength64 }
          (p + maskingKeyLength + payloadLength64), data)
  | _ => (.frameIncomplete, data)

/-! ### The serializer -/

/-- The random bytes of a masked frame. -/
structure MaskingKey where
  bytes : List UInt8
  length_eq : bytes.length = maskingKeyWidthInBytes

variable (frame : WebSocketFrame)

/-- Appends the key and the payload and masks the payload; the placeholder of the key is
overwritten before it is read. -/
def appendFramePayload (key : MaskingKey) (frameData : List UInt8) : List UInt8 :=
  let maskingKeyStart := frameData.length
  let frameData := if frame.masked then frameData ++ key.bytes else frameData
  unmaskPayload frame.masked maskingKeyStart (frameData ++ frame.payload) frame.payload.length

/-- The loop that fills in a length of eight bytes from the end. -/
def fillLength : ℕ → ℕ → List UInt8
  | 0, _ => []
  | i + 1, remaining => fillLength i (remaining >>> 8) ++ [ofNat (remaining &&& 0xFF)]

def makeFrameData (key : MaskingKey) : List UInt8 :=
  let payloadLength := frame.payload.length
  let first := (if frame.final then finalBit else 0) ||| (if frame.compress then compressBit else 0)
    ||| frame.opCode
  let second := if frame.masked then maskBit else 0
  let frameData :=
    if payloadLength ≤ maxPayloadLengthWithoutExtendedLengthField then
      [first, second ||| ofNat payloadLength]
    else if payloadLength ≤ 0xFFFF then
      [first, second ||| ofNat payloadLengthWithTwoByteExtendedLengthField,
        ofNat ((payloadLength &&& 0xFF00) >>> 8), ofNat (payloadLength &&& 0xFF)]
    else
      [first, second ||| ofNat payloadLengthWithEightByteExtendedLengthField] ++
        fillLength 8 payloadLength
  appendFramePayload frame key frameData

/-! ### Lengths -/

/-- The length in the second byte. -/
def lengthByte (n : ℕ) : UInt8 :=
  if n ≤ 125 then ofNat n else if n ≤ 0xFFFF then 126 else 127

/-- The extended length field. -/
def extendedLength (n : ℕ) : List UInt8 :=
  if n ≤ 125 then [] else if n ≤ 0xFFFF then bigEndianBytes 2 n else bigEndianBytes 8 n

section Lengths
variable {n size : ℕ} {b : UInt8} {rest bytes : List UInt8}

theorem ofNat_and_byte (n : ℕ) : ofNat (n &&& 0xFF) = ofNat n := by
  apply UInt8.toNat_inj.mp
  have hand : n &&& 0xFF = n % 2^8 := and_two_pow_sub_one_eq_mod n 8
  rw [hand,toNat_ofNat',toNat_ofNat',mod_mod]

theorem fillLength_eq (i n : ℕ) : fillLength i n = bigEndianBytes i n := by
  induction i generalizing n with
  | zero => rfl
  | succ i ih => rw [fillLength,bigEndianBytes,ih,ofNat_and_byte,shiftRight_eq_div_pow]

theorem twoBytes_eq (n : ℕ) :
    [ofNat ((n &&& 0xFF00) >>> 8),ofNat (n &&& 0xFF)] = bigEndianBytes 2 n := by
  have hh : (n &&& 0xFF00) >>> 8 = (n / 256) &&& 0xFF := by
    rw [shiftRight_and_distrib,shiftRight_eq_div_pow]
    rfl
  rw [hh,ofNat_and_byte,ofNat_and_byte]
  rfl

theorem readLength_eq (h : bytes.length ≤ 8) : readLength bytes = bigEndian bytes := by
  induction bytes using List.reverseRecOn with
  | nil => rfl
  | append_singleton bytes b ih =>
    rw [length_append,length_singleton] at h
    have hlt : bigEndian bytes < 256^7 :=
      (bigEndian_lt bytes).trans_le (Nat.pow_le_pow_right (by decide) (by omega))
    have hstep : readLength (bytes++[b]) = (readLength bytes <<< 8) % 2^64 ||| b.toNat := by
      rw [readLength,foldl_append]
      rfl
    rw [hstep,ih (by omega),bigEndian_concat,mod_eq_of_lt (by rw [shiftLeft_eq]; omega),
      ← shiftLeft_add_eq_or_of_lt b.toNat_lt,shiftLeft_eq]

theorem length_extendedLength (n : ℕ) :
    (extendedLength n).length = if n ≤ 125 then 0 else if n ≤ 0xFFFF then 2 else 8 := by
  unfold extendedLength
  split_ifs <;> simp

theorem toNat_lengthByte (n : ℕ) :
    (lengthByte n).toNat = if n ≤ 125 then n else if n ≤ 0xFFFF then 126 else 127 := by
  unfold lengthByte
  split_ifs with hshort
  · rw [toNat_ofNat',mod_eq_of_lt (by omega)]
  · rfl
  · rfl

theorem readLength_extendedLength (h : n < 2^64) (hl : 125 < n) :
    readLength (extendedLength n) = n := by
  rw [readLength_eq (by rw [length_extendedLength]; split_ifs <;> omega),extendedLength,
    if_neg (by omega)]
  split_ifs
  · exact bigEndian_bigEndianBytes (by omega)
  · exact bigEndian_bigEndianBytes (by omega)

theorem parsePayloadLength_direct (hb : (b &&& payloadLengthMask).toNat ≤ 125) :
    parsePayloadLength b rest = .ok ((b &&& payloadLengthMask).toNat,0) :=
  if_neg (not_lt.mpr hb)

/-- An extended field of two or eight bytes is used for a length above a bound. -/
theorem parsePayloadLength_extended {bound : ℕ} (hb : (b &&& payloadLengthMask).toNat = 126 ∧
      size = 2 ∧ bound = 125 ∨ (b &&& payloadLengthMask).toNat = 127 ∧ size = 8 ∧ bound = 0xFFFF) :
    parsePayloadLength b rest =
      if rest.length < size then .error .frameIncomplete
      else if readLength (rest.take size) ≤ bound then .error (.frameError minimalLengthError)
      else .ok (readLength (rest.take size),size) := by
  obtain ⟨hb,rfl,rfl⟩ | ⟨hb,rfl,rfl⟩ := hb <;>
    simp [parsePayloadLength,hb,maxPayloadLengthWithoutExtendedLengthField,
      payloadLengthWithTwoByteExtendedLengthField]

/-- The size of the extended field depends on the second byte alone. -/
theorem parsePayloadLength_short (hb : b &&& payloadLengthMask = lengthByte n)
    (h : rest.length < (extendedLength n).length) :
    parsePayloadLength b rest = .error .frameIncomplete := by
  have hbyte := toNat_lengthByte n
  rw [← hb] at hbyte
  rw [length_extendedLength] at h
  split_ifs at h hbyte with hd ht
  · omega
  · rw [parsePayloadLength_extended (.inl ⟨hbyte,rfl,rfl⟩),if_pos h]
  · rw [parsePayloadLength_extended (.inr ⟨hbyte,rfl,rfl⟩),if_pos h]

theorem parsePayloadLength_encoded (rest : List UInt8)
    (hb : b &&& payloadLengthMask = lengthByte n) (h : n < 2^64) :
    parsePayloadLength b (extendedLength n++rest) = .ok (n,(extendedLength n).length) := by
  have hbyte := toNat_lengthByte n
  have hl := length_extendedLength n
  have hf : ¬(extendedLength n++rest).length < (extendedLength n).length := by simp
  have ht : (extendedLength n++rest).take (extendedLength n).length = extendedLength n := take_left
  rw [← hb] at hbyte
  split_ifs at hbyte hl with hd htwo
  · rw [parsePayloadLength_direct (by omega),hbyte,hl]
  · rw [parsePayloadLength_extended (.inl ⟨hbyte,hl,rfl⟩),if_neg hf,ht,
      readLength_extendedLength h (not_le.mp hd),if_neg hd]
  · rw [parsePayloadLength_extended (.inr ⟨hbyte,hl,rfl⟩),if_neg hf,ht,
      readLength_extendedLength h (not_le.mp hd),if_neg htwo]

theorem bigEndianBytes_readLength (hsize : size ≤ 8) (h : size ≤ rest.length) :
    bigEndianBytes size (readLength (rest.take size)) = rest.take size ∧
      readLength (rest.take size) < 256^size := by
  have hl : (rest.take size).length = size := length_take_of_le h
  have hb := bigEndianBytes_bigEndian (rest.take size)
  have hlt := bigEndian_lt (rest.take size)
  rw [readLength_eq (hl.trans_le hsize)]
  rw [hl] at hb hlt
  exact ⟨hb,hlt⟩

theorem and_payloadLengthMask_lt (b : UInt8) : (b &&& payloadLengthMask).toNat < 128 := by
  revert b
  decide +kernel

/-- An accepted length was encoded with the smallest number of bytes. -/
theorem parsePayloadLength_ok (h : parsePayloadLength b rest = .ok (n,size)) :
    b &&& payloadLengthMask = lengthByte n ∧ size ≤ rest.length ∧
      extendedLength n = rest.take size := by
  have hmask := and_payloadLengthMask_lt b
  rw [← UInt8.toNat_inj,toNat_lengthByte]
  rcases lt_trichotomy (b &&& payloadLengthMask).toNat 126 with hb | hb | hb
  · rw [parsePayloadLength_direct (by omega)] at h
    cases h
    rw [if_pos (by omega),extendedLength,if_pos (by omega)]
    exact ⟨rfl,Nat.zero_le _,rfl⟩
  · rw [parsePayloadLength_extended (.inl ⟨hb,rfl,rfl⟩)] at h
    split_ifs at h with hr hm
    cases h
    obtain ⟨hbs,hlt⟩ := bigEndianBytes_readLength (by decide) (not_lt.mp hr)
    rw [if_neg hm,if_pos (by omega),extendedLength,if_neg hm,if_pos (by omega)]
    exact ⟨hb,not_lt.mp hr,hbs⟩
  · rw [parsePayloadLength_extended (.inr ⟨by omega,rfl,rfl⟩)] at h
    split_ifs at h with hr hm
    cases h
    obtain ⟨hbs,-⟩ := bigEndianBytes_readLength (by decide) (not_lt.mp hr)
    rw [if_neg (by omega),if_neg hm,extendedLength,if_neg (by omega),if_neg hm]
    exact ⟨by omega,not_lt.mp hr,hbs⟩

theorem parsePayloadLength_error {result : ParseFrameResult} {frame : WebSocketFrame} {e : ℕ}
    (h : parsePayloadLength b rest = .error result) : result ≠ .frameOK frame e := by
  simp only [parsePayloadLength] at h
  split_ifs at h <;> cases h <;> exact ParseFrameResult.noConfusion

end Lengths

/-! ### Headers -/

theorem lengthByte_lt (n : ℕ) : lengthByte n < 128 := by
  have hl : (128 : UInt8).toNat = 128 := rfl
  rw [lt_iff_toNat_lt,toNat_lengthByte,hl]
  split_ifs <;> omega

/-- The second byte of a frame. -/
def secondByteOf (n : ℕ) : UInt8 := (if masked then maskBit else 0) ||| lengthByte n

variable (b : UInt8)

theorem secondByte_fields (h : b < 128) :
    ((if masked then maskBit else 0) ||| b) &&& payloadLengthMask = b ∧
      decide (((if masked then maskBit else 0) ||| b) &&& maskBit ≠ 0) = masked := by
  revert masked b
  decide +kernel

theorem secondByteOf_fields (n : ℕ) : secondByteOf masked n &&& payloadLengthMask = lengthByte n ∧
      decide (secondByteOf masked n &&& maskBit ≠ 0) = masked :=
  secondByte_fields masked (lengthByte n) (lengthByte_lt n)

theorem secondByte_eq :
    (if decide (b &&& maskBit ≠ 0) then maskBit else 0) ||| (b &&& payloadLengthMask) = b := by
  revert b
  decide +kernel

/-- The first byte of a frame. -/
def firstByteOf : UInt8 :=
  (if frame.final then finalBit else 0) ||| (if frame.compress then compressBit else 0) |||
    frame.opCode

/-- The fields of the first byte. -/
def frameOf (firstByte : UInt8) (masked : Bool) (payload : List UInt8) : WebSocketFrame where
  opCode := firstByte &&& opCodeMask
  final := decide (firstByte &&& finalBit ≠ 0)
  compress := decide (firstByte &&& compressBit ≠ 0)
  reserved2 := decide (firstByte &&& reserved2Bit ≠ 0)
  reserved3 := decide (firstByte &&& reserved3Bit ≠ 0)
  masked := masked
  payload := payload

/-- A frame that can be sent: an operation code of four bits, no reserved bits and a payload of less
than `2 ^ 63` bytes. -/
structure WebSocketFrame.Sendable (frame : WebSocketFrame) : Prop where
  opCode_and : frame.opCode &&& ~~~opCodeMask = 0
  reserved2_eq : frame.reserved2 = false
  reserved3_eq : frame.reserved3 = false
  length_lt : frame.payload.length < 2 ^ 63

theorem frameOf_firstByteOf (h : frame.Sendable) :
    frameOf (firstByteOf frame) frame.masked frame.payload = frame := by
  obtain ⟨opCode,final,compress,reserved2,reserved3,masked,payload⟩ := frame
  obtain ⟨hc,rfl,rfl,-⟩ := h
  have hf : ∀ opCode final compress, opCode &&& ~~~opCodeMask = 0 →
      frameOf (firstByteOf ⟨opCode,final,compress,false,false,false,[]⟩) false [] =
        ⟨opCode,final,compress,false,false,false,[]⟩ := by
    decide +kernel
  exact congrArg (fun frame => {frame with masked, payload}) (hf opCode final compress hc)

/-- The bits of the first byte that the serializer writes. -/
theorem firstByteOf_frameOf (masked : Bool) (payload : List UInt8) :
    firstByteOf (frameOf b masked payload) = b &&& ~~~(reserved2Bit ||| reserved3Bit) := by
  have hb : ∀ b, firstByteOf (frameOf b false []) = b &&& ~~~(reserved2Bit ||| reserved3Bit) := by
    decide +kernel
  exact hb b

theorem and_clear_of_reserved (h2 : decide (b &&& reserved2Bit ≠ 0) = false)
    (h3 : decide (b &&& reserved3Bit ≠ 0) = false) :
    b &&& ~~~(reserved2Bit ||| reserved3Bit) = b := by
  revert b
  decide +kernel

/-! ### Masked payloads -/

def maskingKeyLength : ℕ := if masked then maskingKeyWidthInBytes else 0

section
variable {masked : Bool} {p n : ℕ} {data rest : List UInt8}

@[simp] theorem length_unmaskPayload : (unmaskPayload masked p data n).length = data.length := by
  unfold unmaskPayload
  split
  · exact length_maskInPlace
  · rfl

theorem unmaskPayload_unmaskPayload :
    unmaskPayload masked p (unmaskPayload masked p data n) n = data := by
  unfold unmaskPayload
  split
  · exact maskInPlace_maskInPlace (by decide) le_rfl
  · rfl

theorem unmaskPayload_append (h : p+maskingKeyLength masked+n ≤ data.length) :
    unmaskPayload masked p (data++rest) n = unmaskPayload masked p data n++rest := by
  cases masked with
  | false => rfl
  | true => exact maskInPlace_append le_rfl (by decide) h

theorem unmaskPayload_cons :
    unmaskPayload masked (p+1) (b::data) n = b::unmaskPayload masked p data n := by
  unfold unmaskPayload
  split
  · exact maskInPlace_cons b data n
  · rfl

theorem unmaskPayload_append_left (header : List UInt8) :
    unmaskPayload masked header.length (header++data) n = header++unmaskPayload masked 0 data n := by
  induction header with
  | nil => rfl
  | cons b header ih => rw [length_cons,cons_append,unmaskPayload_cons,ih,cons_append]

theorem take_unmaskPayload : (unmaskPayload masked 0 data n).take (maskingKeyLength masked) =
    data.take (maskingKeyLength masked) := by
  unfold unmaskPayload maskingKeyLength
  split
  · exact take_maskInPlace le_rfl (by decide)
  · rfl

end

/-! ### Frames -/

section
variable {frame : WebSocketFrame} {key : MaskingKey} {n frameEnd size : ℕ} {b₁ b₂ : UInt8}
  {rest body data data' : List UInt8}

def headerOf (frame : WebSocketFrame) : List UInt8 :=
  firstByteOf frame :: secondByteOf frame.masked frame.payload.length ::
    extendedLength frame.payload.length

def keyBytes (frame : WebSocketFrame) (key : MaskingKey) : List UInt8 :=
  if frame.masked then key.bytes else []

theorem length_keyBytes (frame : WebSocketFrame) (key : MaskingKey) :
    (keyBytes frame key).length = maskingKeyLength frame.masked := by
  unfold keyBytes maskingKeyLength
  split
  · exact key.length_eq
  · rfl

theorem exists_keyBytes {bytes : List UInt8} (h : bytes.length = maskingKeyLength frame.masked) :
    ∃ key, keyBytes frame key = bytes := by
  unfold keyBytes
  cases hm : frame.masked with
  | false =>
    rw [hm] at h
    exact ⟨⟨[0,0,0,0],rfl⟩,(eq_nil_of_length_eq_zero h).symm⟩
  | true =>
    rw [hm] at h
    exact ⟨⟨bytes,h⟩,rfl⟩

theorem makeFrameData_eq (frame : WebSocketFrame) (key : MaskingKey) :
    makeFrameData frame key = headerOf frame++unmaskPayload frame.masked 0
      (keyBytes frame key++frame.payload) frame.payload.length := by
  have hk : ∀ l : List UInt8, (if frame.masked then l++key.bytes else l) =
      l++keyBytes frame key := by
    intro l
    unfold keyBytes
    split
    · rfl
    · rw [append_nil]
  have hh : makeFrameData frame key = appendFramePayload frame key (headerOf frame) := by
    unfold makeFrameData headerOf secondByteOf lengthByte extendedLength
    simp only [fillLength_eq,← twoBytes_eq,maxPayloadLengthWithoutExtendedLengthField]
    by_cases hd : frame.payload.length ≤ 125
    · simp only [if_pos hd]
      rfl
    · by_cases ht : frame.payload.length ≤ 0xFFFF
      · simp only [if_neg hd,if_pos ht]
        rfl
      · simp only [if_neg hd,if_neg ht]
        rfl
  rw [hh,appendFramePayload,hk,append_assoc,unmaskPayload_append_left]

theorem parseFrame_header (b₁ : UInt8) {extended tail : List UInt8}
    (hl : parsePayloadLength b₂ (extended++tail) = .ok (n,extended.length))
    (hn : n ≤ maxPayloadLength) :
    parseFrame (b₁::b₂::(extended++tail)) =
      let masked := decide (b₂ &&& maskBit ≠ 0)
      let data := unmaskPayload masked 0 tail n
      if tail.length < maskingKeyLength masked+n then
        (.frameIncomplete,b₁::b₂::(extended++tail))
      else
        (.frameOK (frameOf b₁ masked ((data.drop (maskingKeyLength masked)).take n))
          (2+extended.length+maskingKeyLength masked+n),b₁::b₂::(extended++data)) := by
  have hsmall : ¬(n > maxPayloadLength ∨
      (n+maskingKeyLength (decide (b₂ &&& maskBit ≠ 0))) % 2^64 > 2^64-1) := by
    omega
  have hp : 2+extended.length = (b₁::b₂::extended).length := Nat.add_comm _ _
  have hr : (b₁::b₂::(extended++tail)).length-(2+extended.length) = tail.length := by
    simp only [length_cons,length_append]
    omega
  unfold parseFrame
  simp only [hl]
  refine (if_neg hsmall).trans ?_
  rw [hr,hp,← cons_append,← cons_append,unmaskPayload_append_left,drop_length_add_append]
  rfl

section
variable (frame : WebSocketFrame)

theorem parseFrame_headerOf (h : frame.Sendable) (tail : List UInt8) :
    parseFrame (headerOf frame++tail) =
      let n := frame.payload.length
      let data := unmaskPayload frame.masked 0 tail n
      if tail.length < maskingKeyLength frame.masked+n then
        (.frameIncomplete,headerOf frame++tail)
      else
        (.frameOK (frameOf (firstByteOf frame) frame.masked
          ((data.drop (maskingKeyLength frame.masked)).take n))
          (2+(extendedLength n).length+maskingKeyLength frame.masked+n),headerOf frame++data) := by
  obtain ⟨hmask,hm⟩ := secondByteOf_fields frame.masked frame.payload.length
  have hp := parsePayloadLength_encoded tail hmask (h.length_lt.trans (by decide))
  have hh := parseFrame_header (firstByteOf frame) hp (le_of_lt_succ h.length_lt)
  rw [hm] at hh
  exact hh

theorem parseFrame_makeFrameData (h : frame.Sendable) (key : MaskingKey) (rest : List UInt8) :
    (parseFrame (makeFrameData frame key++rest)).1 =
      .frameOK frame (makeFrameData frame key).length := by
  have hl := length_keyBytes frame key
  have hu : unmaskPayload frame.masked 0 (unmaskPayload frame.masked 0
      (keyBytes frame key++frame.payload) frame.payload.length++rest) frame.payload.length =
      keyBytes frame key++(frame.payload++rest) := by
    rw [unmaskPayload_append (by simp [hl]),unmaskPayload_unmaskPayload,append_assoc]
  rw [makeFrameData_eq,append_assoc,parseFrame_headerOf frame h]
  simp only
  rw [if_neg (by simp [hl]),hu,drop_left' hl,take_left,frameOf_firstByteOf frame h]
  simp only [headerOf,length_append,length_cons,length_unmaskPayload,hl]
  congr 1
  omega

/-- A part of a frame is not accepted and not changed. -/
theorem parseFrame_of_part (h : frame.Sendable) (key : MaskingKey) (data : List UInt8)
    (hp : data <+: makeFrameData frame key)
    (hshort : data.length < (makeFrameData frame key).length) :
    parseFrame data = (.frameIncomplete,data) := by
  obtain ⟨hm,-⟩ := secondByteOf_fields frame.masked frame.payload.length
  rw [makeFrameData_eq] at hp hshort
  match data, hp, hshort with
  | [], _, _ => rfl
  | [_], _, _ => rfl
  | b₁::b₂::rest, hp, hshort =>
    rw [headerOf,cons_append,cons_append,cons_prefix_cons,cons_prefix_cons] at hp
    obtain ⟨rfl,rfl,hr⟩ := hp
    rcases lt_or_ge rest.length (extendedLength frame.payload.length).length with he | he
    · have hparse := parsePayloadLength_short hm he
      unfold parseFrame
      simp [hparse]
    · obtain ⟨tail,rfl⟩ := prefix_of_prefix_length_le (prefix_append _ _) hr he
      have ht : tail.length < maskingKeyLength frame.masked+frame.payload.length := by
        simp only [headerOf,length_append,length_cons,length_unmaskPayload,length_keyBytes] at hshort
        omega
      have hh := parseFrame_headerOf frame h tail
      simp only [if_pos ht] at hh
      exact hh

end

/-- What the parser has checked when it accepts a frame. -/
theorem parseFrame_ok (h : parseFrame data = (.frameOK frame frameEnd,data')) :
    ∃ b n tail, data = b::secondByteOf frame.masked n::(extendedLength n++tail) ∧
      maskingKeyLength frame.masked+n ≤ tail.length ∧
      frameEnd = 2+(extendedLength n).length+maskingKeyLength frame.masked+n ∧
      frame = frameOf b frame.masked (((unmaskPayload frame.masked 0 tail n).drop
          (maskingKeyLength frame.masked)).take n) := by
  match data with
  | [] => cases h
  | [_] => cases h
  | b₁::b₂::rest =>
    cases hp : parsePayloadLength b₂ rest with
    | error result =>
      have hr : (result,b₁::b₂::rest) = (.frameOK frame frameEnd,data') := by
        unfold parseFrame at h
        simpa only [hp] using h
      exact absurd (congrArg Prod.fst hr) (parsePayloadLength_error hp)
    | ok lengths =>
      obtain ⟨n,size⟩ := lengths
      by_cases hn : n ≤ maxPayloadLength
      · obtain ⟨hbyte,hsize,hext⟩ := parsePayloadLength_ok hp
        have hb : secondByteOf (decide (b₂ &&& maskBit ≠ 0)) n = b₂ := by
          rw [secondByteOf,← hbyte,secondByte_eq]
        have hl := congrArg List.length hext
        rw [length_take_of_le hsize] at hl
        subst hl
        rw [← take_append_drop _ rest,← hext] at h hp ⊢
        rw [parseFrame_header b₁ hp hn] at h
        simp only at h
        split at h
        next => cases h
        next hf =>
          cases h
          exact ⟨b₁,n,_,congrArg (b₁::·::_) hb.symm,not_lt.mp hf,rfl,rfl⟩
      · unfold parseFrame at h
        simp only [hp] at h
        rw [if_pos (.inl (not_le.mp hn))] at h
        cases h

/-- Masking the parsed payload again gives the bytes that were consumed. -/
theorem unmask_parsed {masked : Bool} (hf : maskingKeyLength masked+n ≤ data.length) :
    unmaskPayload masked 0 (data.take (maskingKeyLength masked) ++
      ((unmaskPayload masked 0 data n).drop (maskingKeyLength masked)).take n) n =
      data.take (maskingKeyLength masked+n) := by
  have hl := length_take_of_le hf
  have ht : (unmaskPayload masked 0 data n).take (maskingKeyLength masked+n) =
      unmaskPayload masked 0 (data.take (maskingKeyLength masked+n)) n := by
    nth_rewrite 1 [← take_append_drop (maskingKeyLength masked+n) data]
    rw [unmaskPayload_append (by simp [hl])]
    exact take_left' (by rw [length_unmaskPayload,hl])
  rw [← take_unmaskPayload (n := n),← take_add,ht,unmaskPayload_unmaskPayload]

/-- An accepted frame is serialized to the bytes that the parser has consumed, without the reserved
bits. -/
theorem makeFrameData_of_parseFrame (h : parseFrame data = (.frameOK frame frameEnd,data')) :
    frameEnd ≤ data.length ∧ ∃ key : MaskingKey, (frame.masked → key.bytes =
        (data.drop (frameEnd-frame.payload.length-maskingKeyWidthInBytes)).take
          maskingKeyWidthInBytes) ∧
      makeFrameData frame key =
        (data.take frameEnd).modifyHead (· &&& ~~~(reserved2Bit ||| reserved3Bit)) := by
  obtain ⟨b,n,tail,rfl,hfits,rfl,hf⟩ := parseFrame_ok h
  have hb : frame.payload = ((unmaskPayload frame.masked 0 tail n).drop
      (maskingKeyLength frame.masked)).take n := congrArg WebSocketFrame.payload hf
  have hpayload : frame.payload.length = n := by
    rw [hb,length_take_of_le]
    rw [length_drop,length_unmaskPayload]
    omega
  have hfst : firstByteOf frame = b &&& ~~~(reserved2Bit ||| reserved3Bit) := by
    rw [hf,firstByteOf_frameOf]
  obtain ⟨key,hk⟩ : ∃ key, keyBytes frame key = tail.take (maskingKeyLength frame.masked) :=
    exists_keyBytes (length_take_of_le (by omega))
  have hc := unmask_parsed hfits
  rw [← hk,← hb] at hc
  refine ⟨by simp only [length_cons,length_append]; omega,key,fun ht => ?_,?_⟩
  · have hw : maskingKeyLength frame.masked = maskingKeyWidthInBytes := by
      rw [ht]
      rfl
    have hstart : 2+(extendedLength n).length+maskingKeyLength frame.masked+n-frame.payload.length -
        maskingKeyWidthInBytes = (extendedLength n).length+2 := by
      omega
    rw [hstart,drop_succ_cons,drop_succ_cons,drop_left,← hw,← hk,keyBytes,if_pos ht]
  · -- The first byte stands in front of the key, so it is the only difference.
    have hend : 2+(extendedLength n).length+maskingKeyLength frame.masked+n =
        (extendedLength n).length+(maskingKeyLength frame.masked+n)+1+1 := by
      omega
    rw [makeFrameData_eq,hpayload,hc,headerOf,hfst,hpayload,hend,take_succ_cons,take_succ_cons,
      take_length_add_append]
    rfl

/-- With the reserved bits clear it is exactly these bytes. -/
theorem makeFrameData_of_reserved_clear
    (h : parseFrame data = (.frameOK frame frameEnd,data')) (hr2 : frame.reserved2 = false)
    (hr3 : frame.reserved3 = false) :
    (data.take frameEnd).modifyHead (· &&& ~~~(reserved2Bit ||| reserved3Bit)) =
      data.take frameEnd := by
  obtain ⟨b,n,tail,rfl,-,he,hframe⟩ := parseFrame_ok h
  rw [hframe] at hr2 hr3
  have hf := and_clear_of_reserved b hr2 hr3
  have hp : frameEnd = (frameEnd-1)+1 := by omega
  rw [hp,take_succ_cons,modifyHead_cons,hf]

end

/-- Parsing inverts serializing, with any bytes behind the frame; a part of a frame is incomplete;
and an accepted frame is serialized to the consumed bytes, with its key. -/
theorem parseFrame_round_trip :
    (∀ frame key rest, frame.Sendable →
      (parseFrame (makeFrameData frame key ++ rest)).1 =
        .frameOK frame (makeFrameData frame key).length) ∧
    (∀ frame key data, frame.Sendable → data <+: makeFrameData frame key →
      data ≠ makeFrameData frame key → parseFrame data = (.frameIncomplete, data)) ∧
    (∀ data data' frame frameEnd, parseFrame data = (.frameOK frame frameEnd, data') →
      frameEnd ≤ data.length ∧ ∃ key : MaskingKey,
        (frame.masked = true → key.bytes =
          (data.drop (frameEnd - frame.payload.length - maskingKeyWidthInBytes)).take
            maskingKeyWidthInBytes) ∧
        makeFrameData frame key =
          (data.take frameEnd).modifyHead (· &&& ~~~(reserved2Bit ||| reserved3Bit)) ∧
        (frame.reserved2 = false → frame.reserved3 = false →
          makeFrameData frame key = data.take frameEnd)) := by
  refine ⟨fun frame key rest h => ?_,fun frame key data h hp hne => ?_,
    fun data data' frame frameEnd h => ?_⟩
  · exact parseFrame_makeFrameData frame h key rest
  · have hshort : data.length < (makeFrameData frame key).length :=
      lt_of_le_of_ne hp.length_le fun heq => hne (hp.eq_of_length heq)
    exact parseFrame_of_part frame h key data hp hshort
  · obtain ⟨he,key,hk,hm⟩ := makeFrameData_of_parseFrame h
    refine ⟨he,key,hk,hm,fun hr2 hr3 => ?_⟩
    rw [hm,makeFrameData_of_reserved_clear h hr2 hr3]

section

/-- A masked text frame. -/
def helloFrame : WebSocketFrame := ⟨0x1, true, false, false, false, true, [72, 101, 108, 108, 111]⟩

def helloKey : MaskingKey := ⟨[0x37, 0xfa, 0x21, 0x3d], rfl⟩

theorem sendable_helloFrame : helloFrame.Sendable := ⟨by decide,rfl,rfl,by decide⟩

theorem parseFrame_helloFrame :
    (parseFrame (makeFrameData helloFrame helloKey ++ [0x81, 0])).1 = .frameOK helloFrame 11 ∧
      parseFrame (makeFrameData helloFrame helloKey).dropLast =
        (.frameIncomplete, (makeFrameData helloFrame helloKey).dropLast) :=
  ⟨parseFrame_round_trip.1 helloFrame helloKey _ sendable_helloFrame,
    parseFrame_round_trip.2.1 helloFrame helloKey _ sendable_helloFrame
      (List.dropLast_prefix _) (by decide)⟩

end

end QPlusWeb.WebSockets
