import QPlusWeb.UnicodeForms

/-!
# Conversion from UTF-8

`decodeUTF8Sequence` and `convertUTF8ToUTF16`.  A pointer into a string is the list of the bytes from
there to the end; a pointer into a null-terminated string is the memory from there on.
-/

namespace QPlusWeb.WTF.Unicode

def isASCII (c : UInt8) : Bool := c &&& ~~~0x7F = 0

def inlineUTF8SequenceLengthNonASCII (b0 : UInt8) : ℕ :=
  if b0 &&& 0xC0 ≠ 0xC0 then 0
  else if b0 &&& 0xE0 = 0xC0 then 2
  else if b0 &&& 0xF0 = 0xE0 then 3
  else if b0 &&& 0xF8 = 0xF0 then 4
  else 0

def inlineUTF8SequenceLength (b0 : UInt8) : ℕ :=
  if isASCII b0 then 1 else inlineUTF8SequenceLengthNonASCII b0

/-- The bytes are promoted to `int` before they are shifted. -/
def decodeUTF8Sequence (sequence : ℕ → UInt8) : ℤ :=
  let b0 := sequence 0
  let length := inlineUTF8SequenceLength b0
  if length = 0 then -1
  else
    let b1 := sequence 1
    if length = 1 then
      if b1 ≠ 0 then -1 else b0.toNat
    else if b1 &&& 0xC0 ≠ 0x80 then -1
    else
      let b2 := sequence 2
      if length = 2 then
        if b2 ≠ 0 then -1
        else
          let c := (b0 &&& 0x1F).toNat <<< 6 ||| (b1 &&& 0x3F).toNat
          if c < 0x80 then -1 else c
      else if b2 &&& 0xC0 ≠ 0x80 then -1
      else
        let b3 := sequence 3
        if length = 3 then
          if b3 ≠ 0 then -1
          else
            let c := (b0 &&& 0xF).toNat <<< 12 ||| (b1 &&& 0x3F).toNat <<< 6 ||| (b2 &&& 0x3F).toNat
            if c < 0x800 then -1
            else if c ≥ 0xD800 ∧ c ≤ 0xDFFF then -1
            else c
        else if b3 &&& 0xC0 ≠ 0x80 then -1
        else
          let b4 := sequence 4
          if length = 4 then
            if b4 ≠ 0 then -1
            else
              let c := (b0 &&& 0x7).toNat <<< 18 ||| (b1 &&& 0x3F).toNat <<< 12 |||
                (b2 &&& 0x3F).toNat <<< 6 ||| (b3 &&& 0x3F).toNat
              if c < 0x10000 ∨ c > 0x10FFFF then -1 else c
          else -1

/-- `source[i]` -/
def byteAt (source : List UInt8) (i : ℕ) : UInt8 := source.getD i 0

section
variable (source : List UInt8)

/-- `case 1` of the outer `switch`, and the test behind it. -/
def isLegalFirst : Bool :=
  !(byteAt source 0 ≥ 0x80 && byteAt source 0 < 0xC2) && !(byteAt source 0 > 0xF4)

/-- `case 2`, with the inner `switch` over the first byte. -/
def isLegalSecond : Bool :=
  let a := byteAt source 1
  !(a > 0xBF) &&
    (match byteAt source 0 with
    | 0xE0 => !(a < 0xA0)
    | 0xED => !(a > 0x9F)
    | 0xF0 => !(a < 0x90)
    | 0xF4 => !(a > 0x8F)
    | _ => !(a < 0x80)) &&
    isLegalFirst source

/-- `case 3` and `case 4`: a trailing byte, and then the case below. -/
def isTrailing (a : UInt8) : Bool := !(a < 0x80 || a > 0xBF)

def isLegalUTF8 (length : ℕ) : Bool :=
  match length with
  | 4 => isTrailing (byteAt source 3) && isTrailing (byteAt source 2) && isLegalSecond source
  | 3 => isTrailing (byteAt source 2) && isLegalSecond source
  | 2 => isLegalSecond source
  | 1 => isLegalFirst source
  | _ => false

end

def offsetsFromUTF8 : List UInt32 := [0, 0x3080, 0xE2080, 0x3C82080, 0xFA082080, 0x82082080]

/-- `character += *sequence++; character <<= 6;` once for each byte, without the last shift. -/
def readUTF8Sequence (sequence : List UInt8) (length : ℕ) : UInt32 :=
  let character := (sequence.take length).foldl
    (fun (character : UInt32) b => (character <<< 6) + b.toUInt32) 0
  character - offsetsFromUTF8.getD (length - 1) 0

inductive ConversionResult
  | conversionOK | sourceExhausted | targetExhausted | sourceIllegal
  deriving DecidableEq, Repr

def U_IS_BMP (c : UInt32) : Bool := c ≤ 0xFFFF

def U_IS_SURROGATE (c : UInt32) : Bool := c &&& 0xFFFFF800 = 0xD800

def U_IS_SUPPLEMENTARY (c : UInt32) : Bool := c - 0x10000 ≤ 0xFFFFF

def U16_LEAD (supplementary : UInt32) : UInt16 := ((supplementary >>> 10) + 0xD7C0).toUInt16

def U16_TRAIL (supplementary : UInt32) : UInt16 := ((supplementary &&& 0x3FF) ||| 0xDC00).toUInt16

def replacementCharacter : UInt16 := 0xFFFD

/-- The variables of the loop: what is left of the source, what has been written, and the units that
have been written, ored together. -/
structure ConversionState where
  source : List UInt8
  target : List UInt16
  orAllData : UInt16
  deriving DecidableEq, Repr

namespace ConversionState
variable (capacity : ℕ) (strict : Bool)

def write (s : ConversionState) (length : ℕ) (units : List UInt16) (orAllData : UInt16) :
    ConversionState :=
  ⟨s.source.drop length, s.target ++ units, orAllData⟩

/-- One round of the loop.  Where the source backs up its pointer, the state is the old one. -/
def convertSequence (s : ConversionState) : ConversionState ⊕ (ConversionResult × ConversionState) :=
  let utf8SequenceLength := inlineUTF8SequenceLength (byteAt s.source 0)
  if s.source.length < utf8SequenceLength then .inr (.sourceExhausted, s)
  else if !isLegalUTF8 s.source utf8SequenceLength then .inr (.sourceIllegal, s)
  else
    let character := readUTF8Sequence s.source utf8SequenceLength
    if s.target.length ≥ capacity then .inr (.targetExhausted, s)
    else if U_IS_BMP character then
      if U_IS_SURROGATE character then
        if strict then .inr (.sourceIllegal, s)
        else .inl (s.write utf8SequenceLength [replacementCharacter]
          (s.orAllData ||| replacementCharacter))
      else .inl (s.write utf8SequenceLength [character.toUInt16]
        (s.orAllData ||| character.toUInt16))
    else if U_IS_SUPPLEMENTARY character then
      if s.target.length + 1 ≥ capacity then .inr (.targetExhausted, s)
      else .inl (s.write utf8SequenceLength [U16_LEAD character, U16_TRAIL character] 0xFFFF)
    else if strict then .inr (.sourceIllegal, s)
    else .inl (s.write utf8SequenceLength [replacementCharacter]
      (s.orAllData ||| replacementCharacter))

theorem pos_of_isLegalUTF8 {source : List UInt8} {length : ℕ}
    (h : isLegalUTF8 source length) : 0 < length := by
  unfold isLegalUTF8 at h
  split at h
  all_goals first | exact Nat.succ_pos _ | cases h

/-- A round that goes on has taken at least one byte. -/
theorem convertSequence_length {s s' : ConversionState}
    (h : s.convertSequence capacity strict = .inl s') : s'.source.length < s.source.length := by
  unfold convertSequence at h
  dsimp only at h
  split at h
  · cases h
  · split at h
    · cases h
    next hl =>
      have hlen := pos_of_isLegalUTF8 (by simpa using hl)
      have hd : ∀ units data,
          (s.write (inlineUTF8SequenceLength (byteAt s.source 0)) units data).source.length <
            s.source.length := by
        intro units data
        simp only [write,List.length_drop]
        omega
      split_ifs at h <;> cases h <;> exact hd _ _

/-- `while (source < sourceEnd)` -/
def convertLoop (s : ConversionState) : ConversionResult × ConversionState :=
  if _hne : s.source = [] then (.conversionOK, s)
  else
    match _h : s.convertSequence capacity strict with
    | .inl s' => s'.convertLoop
    | .inr result => result
termination_by s.source.length
decreasing_by exact convertSequence_length capacity strict _h

theorem convertLoop_nil {s : ConversionState} (h : s.source = []) :
    s.convertLoop capacity strict = (.conversionOK,s) := by
  rw [convertLoop,dif_pos h]

theorem convertLoop_of_inl {s s' : ConversionState} (hne : s.source ≠ [])
    (h : s.convertSequence capacity strict = .inl s') :
    s.convertLoop capacity strict = s'.convertLoop capacity strict := by
  rw [convertLoop,dif_neg hne]
  split
  next h' =>
    rw [h] at h'
    cases h'
    rfl
  next h' =>
    rw [h] at h'
    cases h'

theorem convertLoop_of_inr {s : ConversionState} {final : ConversionResult × ConversionState}
    (hne : s.source ≠ []) (h : s.convertSequence capacity strict = .inr final) :
    s.convertLoop capacity strict = final := by
  rw [convertLoop, dif_neg hne]
  split
  next h' =>
    rw [h] at h'
    cases h'
  next h' =>
    rw [h] at h'
    cases h'
    rfl

end ConversionState

/-- What the caller finds afterwards: the result, the rest of the source, the units that have been
written, and the flag. -/
structure Conversion where
  result : ConversionResult
  source : List UInt8
  target : List UInt16
  sourceAllASCII : Bool
  deriving DecidableEq, Repr

def convertUTF8ToUTF16 (source : List UInt8) (capacity : ℕ) (strict : Bool) : Conversion :=
  let final := ConversionState.convertLoop capacity strict ⟨source, [], 0⟩
  ⟨final.1, final.2.source, final.2.target, final.2.orAllData &&& ~~~0x7F = 0⟩

end QPlusWeb.WTF.Unicode
