import QPlusWeb.JSONValues
import QPlusWeb.ProbeSequence

/-!
# JSON.stringify

The serializer keeps a stack of holders, one for each array or object that it is inside of.  A call of
`appendNextProperty` writes one element or member of the last holder and may put a new holder on the
stack.  Whether a separator is written is decided by the last character of the text, and a member
without a value is rolled back.

The values are trees of plain arrays and objects: there are no functions, boxed primitives or
replacers, and a `toJSON` property that cannot be called is a member like any other.
-/

namespace QPlusWeb.JSC

open ProbeSequence

inductive JSValue (ν : Type) where
  | undefined
  | null
  | bool (b : Bool)
  | number (x : ν)
  | string (s : UString)
  | array (elements : List (JSValue ν))
  | object (members : List (UString × JSValue ν))

def JSValue.isArray {ν : Type} : JSValue ν → Bool
  | .array _ => true
  | _ => false

/-- `isfinite` and `numberToStringECMAScript` -/
structure NumberFormat (ν : Type) where
  isFinite : ν → Bool
  numberToString : ν → UString

variable {ν α : Type}

def literal (text : String) : UString := text.toList.map ch

/-! ### Property names -/

def notAnIndex : UInt32 := 0xFFFFFFFF

/-- The loop of `toUInt32FromCharacters` over the characters after the first one. -/
def toUInt32FromDigits (value : UInt32) : UString → UInt32
  | [] => value
  | c :: rest =>
    let digit := c.toUInt32 - (ch '0').toUInt32
    let newValue := digit + value * 10
    if value > 0xFFFFFFFF / 10 then notAnIndex
    else if digit > 9 then notAnIndex
    else if newValue < value * 10 then notAnIndex
    else toUInt32FromDigits newValue rest

def asIndex : UString → UInt32
  | [] => notAnIndex
  | c :: rest =>
    let value := c.toUInt32 - (ch '0').toUInt32
    if value > 9 then notAnIndex
    else if value = 0 ∧ rest ≠ [] then notAnIndex
    else toUInt32FromDigits value rest

/-- The indices come first and in their order, the other keys in the order of insertion. -/
def getOwnPropertyNames (keys : List UString) : List UString :=
  (keys.filter fun k => asIndex k ≠ notAnIndex).mergeSort (fun j k => asIndex j ≤ asIndex k) ++
    keys.filter fun k => ¬ asIndex k ≠ notAnIndex

/-- `getOwnPropertySlot` -/
def getOwnProperty (members : List (UString × α)) (key : UString) : Option α :=
  (members.find? fun m => m.1 = key).map Prod.snd

/-! ### Strings -/

def hexDigits : UString := literal "0123456789abcdef"

def hexDigit (n : UInt16) : UInt16 := hexDigits.getD (n &&& 0xF).toNat 0

def escapeCharacter (c : UInt16) : UString :=
  if c > 0x1F ∧ c ≠ quotationMark ∧ c ≠ backslash then [c]
  else if c = 0x9 then [backslash, ch 't']
  else if c = 0xD then [backslash, ch 'r']
  else if c = 0xA then [backslash, ch 'n']
  else if c = 0xC then [backslash, ch 'f']
  else if c = 0x8 then [backslash, ch 'b']
  else if c = quotationMark then [backslash, quotationMark]
  else if c = backslash then [backslash, backslash]
  else [backslash, ch 'u', hexDigit (c >>> 12), hexDigit (c >>> 8), hexDigit (c >>> 4), hexDigit c]

/-- What `appendStringToStringBuilder` appends. -/
def escapeString (data : UString) : UString := data.flatMap escapeCharacter

/-- What `appendQuotedString` appends. -/
def quotedString (value : UString) : UString :=
  quotationMark :: (escapeString value ++ [quotationMark])

/-! ### The serializer -/

/-- `size` and `propertyNames` are set when the first property is written. -/
structure Holder (ν : Type) where
  object : JSValue ν
  index : ℕ := 0
  size : ℕ := 0
  propertyNames : List UString := []

/-- The last holder is the head of the stack. -/
structure Stringifier (ν : Type) where
  gap : UString
  repeatedGap : UString := []
  currentIndent : UString := []
  holderStack : List (Holder ν) := []
  builder : UString := []

inductive StringifyResult where
  | failed
  | succeeded
  | failedDueToUndefinedValue
  deriving DecidableEq

namespace Stringifier

variable (s : Stringifier ν)

def append (text : UString) : Stringifier ν :=
  { s with builder := s.builder ++ text }

def indent : Stringifier ν :=
  let newSize := s.currentIndent.length + s.gap.length
  let repeatedGap :=
    if newSize > s.repeatedGap.length then s.repeatedGap ++ s.gap else s.repeatedGap
  { s with repeatedGap := repeatedGap, currentIndent := repeatedGap.take newSize }

def unindent : Stringifier ν :=
  { s with currentIndent := s.repeatedGap.take (s.currentIndent.length - s.gap.length) }

def startNewLine : Stringifier ν :=
  if s.gap = [] then s else (s.append [0xA]).append s.currentIndent

variable (format : NumberFormat ν) (s : Stringifier ν)

/-- `appendStringifiedValue` up to the loop, which the outermost call enters when it has put a holder
on the empty stack. -/
def appendStringifiedValue (value : JSValue ν)
    (holderIsArray : Bool) : StringifyResult × Stringifier ν :=
  match value with
  | .undefined => (if holderIsArray then .failed else .failedDueToUndefinedValue, s)
  | .null => (.succeeded, s.append (literal "null"))
  | .bool b => (.succeeded, s.append (literal (if b then "true" else "false")))
  | .string value => (.succeeded, s.append (quotedString value))
  | .number x =>
    (.succeeded,
      s.append (if format.isFinite x then format.numberToString x else literal "null"))
  | .array _ | .object _ =>
    (.succeeded, { s with holderStack := { object := value } :: s.holderStack })

/-- The end of `appendNextProperty`. -/
def settle (rollBackPoint : ℕ) : StringifyResult × Stringifier ν → Stringifier ν
  | (.failed, s) => s.append (literal "null")
  | (.succeeded, s) => s
  | (.failedDueToUndefinedValue, s) => { s with builder := s.builder.take rollBackPoint }

/-- First time through, initialize. -/
def start (holder : Holder ν) : Stringifier ν × Holder ν :=
  match holder.object with
  | .array elements => ((s.append [ch '[']).indent, { holder with size := elements.length })
  | .object members =>
    let names := getOwnPropertyNames (members.map Prod.fst)
    ((s.append [0x7B]).indent, { holder with size := names.length, propertyNames := names })
  | _ => (s, holder)

/-- Last time through, finish up. -/
def finish (holder : Holder ν) : Stringifier ν :=
  let s := s.unindent
  let s := if holder.size ≠ 0 ∧ s.builder.getLast? ≠ some 0x7B then s.startNewLine else s
  s.append [if holder.object.isArray then ch ']' else 0x7D]

/-- A single element of an array. -/
def appendElement (elements : List (JSValue ν)) (index : ℕ) : Stringifier ν :=
  let value := elements.getD index .undefined
  let s := if index ≠ 0 then s.append [ch ','] else s
  settle 0 (s.startNewLine.appendStringifiedValue format value true)

/-- A single member of an object. -/
def appendMember (members : List (UString × JSValue ν)) (propertyName : UString) : Stringifier ν :=
  match getOwnProperty members propertyName with
  | none => s
  | some value =>
    let rollBackPoint := s.builder.length
    let s := if s.builder.getLast? ≠ some 0x7B then s.append [ch ','] else s
    let s := (s.startNewLine.append (quotedString propertyName)).append [ch ':']
    let s := if s.gap ≠ [] then s.append [ch ' '] else s
    settle rollBackPoint (s.appendStringifiedValue format value false)

/-- `appendNextProperty` after the initialization, with the holder that is the last one.  It says
whether there is more to do. -/
def appendProperty (holder : Holder ν) (stack : List (Holder ν)) : Bool × Stringifier ν :=
  if holder.index = holder.size then (false, s.finish holder)
  else
    let s := { s with holderStack := { holder with index := holder.index + 1 } :: stack }
    match holder.object with
    | .array elements => (true, s.appendElement format elements holder.index)
    | .object members =>
      (true, s.appendMember format members (holder.propertyNames.getD holder.index []))
    | _ => (true, s)

def appendNextProperty (holder : Holder ν) (stack : List (Holder ν)) : Bool × Stringifier ν :=
  let (s, holder) := if holder.index = 0 then s.start holder else (s, holder)
  s.appendProperty format holder stack

/-- One round of the loops of `appendStringifiedValue`. -/
def step : Stringifier ν ⊕ UString :=
  match s.holderStack with
  | [] => .inr s.builder
  | holder :: stack =>
    match s.appendNextProperty format holder stack with
    | (true, s) => .inl s
    | (false, s) => .inl { s with holderStack := stack }

end Stringifier

mutual
/-- The calls of `appendNextProperty` for a value. -/
def JSValue.rounds : JSValue ν → ℕ
  | .array elements => 1 + elementRounds elements
  | .object members => 1 + memberRounds members
  | _ => 0
def elementRounds : List (JSValue ν) → ℕ
  | [] => 0
  | value :: elements => 1 + value.rounds + elementRounds elements
def memberRounds : List (UString × JSValue ν) → ℕ
  | [] => 0
  | (_, value) :: members => 1 + value.rounds + memberRounds members
end

def maxGapLength : ℕ := 10

/-- The text of `JSON.stringify(value, null, space)`, or `undefined`. -/
def stringify (format : NumberFormat ν) (space : UString) (value : JSValue ν) :
    Option (Option UString) :=
  let s : Stringifier ν := { gap := space.take maxGapLength }
  match s.appendStringifiedValue format value false with
  | (.succeeded, s) => (loop (Stringifier.step format) (value.rounds + 1) s).map some
  | _ => some none

end QPlusWeb.JSC
