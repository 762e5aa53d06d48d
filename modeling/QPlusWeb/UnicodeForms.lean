import QPlusWeb.PrefixCodes
import Mathlib.Data.List.Forall2
import Mathlib.Tactic.NormNum

/-!
# Encoding forms of Unicode

The well-formed UTF-8 byte sequences, the characters that they stand for, and the UTF-16 code units of
a character.
-/

namespace QPlusWeb.UnicodeForms

open PrefixCodes

/-- The table of well-formed UTF-8 byte sequences: a range for each byte of a sequence. -/
def wellFormedSequences : List (List (ℕ × ℕ)) :=
  [ [(0x00, 0x7F)],
    [(0xC2, 0xDF), (0x80, 0xBF)],
    [(0xE0, 0xE0), (0xA0, 0xBF), (0x80, 0xBF)],
    [(0xE1, 0xEC), (0x80, 0xBF), (0x80, 0xBF)],
    [(0xED, 0xED), (0x80, 0x9F), (0x80, 0xBF)],
    [(0xEE, 0xEF), (0x80, 0xBF), (0x80, 0xBF)],
    [(0xF0, 0xF0), (0x90, 0xBF), (0x80, 0xBF), (0x80, 0xBF)],
    [(0xF1, 0xF3), (0x80, 0xBF), (0x80, 0xBF), (0x80, 0xBF)],
    [(0xF4, 0xF4), (0x80, 0x8F), (0x80, 0xBF), (0x80, 0xBF)] ]

def InRange (range : ℕ × ℕ) (b : UInt8) : Prop := range.1 ≤ b.toNat ∧ b.toNat ≤ range.2

/-- The bytes of one character. -/
def IsSequence (bytes : List UInt8) : Prop :=
  ∃ ranges ∈ wellFormedSequences, List.Forall₂ InRange ranges bytes

/-- The character of a sequence: the bits that the bytes carry, after each other. -/
def character : List UInt8 → ℕ
  | [b0] => b0.toNat
  | [b0, b1] => (b0.toNat - 0xC0) * 0x40 + (b1.toNat - 0x80)
  | [b0, b1, b2] =>
    (b0.toNat - 0xE0) * 0x1000 + (b1.toNat - 0x80) * 0x40 + (b2.toNat - 0x80)
  | [b0, b1, b2, b3] =>
    (b0.toNat - 0xF0) * 0x40000 + (b1.toNat - 0x80) * 0x1000 + (b2.toNat - 0x80) * 0x40 +
      (b3.toNat - 0x80)
  | _ => 0

theorem character_one (b0 : UInt8) : character [b0] = b0.toNat := rfl

theorem character_two (b0 b1 : UInt8) :
    character [b0,b1] = (b0.toNat-0xC0)*0x40+(b1.toNat-0x80) := rfl

theorem character_three (b0 b1 b2 : UInt8) : character [b0,b1,b2] =
    (b0.toNat-0xE0)*0x1000+(b1.toNat-0x80)*0x40+(b2.toNat-0x80) := rfl

theorem character_four (b0 b1 b2 b3 : UInt8) : character [b0,b1,b2,b3] =
    (b0.toNat-0xF0)*0x40000+(b1.toNat-0x80)*0x1000+(b2.toNat-0x80)*0x40 + (b3.toNat-0x80) := rfl

/-- The code units of a character: one, or a surrogate pair. -/
def utf16 (c : ℕ) : List UInt16 :=
  if c < 0x10000 then [UInt16.ofNat c]
  else [UInt16.ofNat (0xD800 + (c - 0x10000) / 0x400),
    UInt16.ofNat (0xDC00 + (c - 0x10000) % 0x400)]

/-- The UTF-16 form of a text that has been cut into sequences. -/
def utf16Form (sequences : List (List UInt8)) : List UInt16 :=
  sequences.flatMap fun bytes => utf16 (character bytes)

def IsTail (b : UInt8) : Prop := InRange (0x80, 0xBF) b

instance (range : ℕ × ℕ) (b : UInt8) : Decidable (InRange range b) :=
  inferInstanceAs (Decidable (_ ∧ _))

instance (b : UInt8) : Decidable (IsTail b) := inferInstanceAs (Decidable (InRange _ b))

section
variable {a b c d : UInt8} {rest : List UInt8}

theorem isSequence_nil : ¬IsSequence [] := by
  simp [IsSequence,wellFormedSequences]

theorem isSequence_one : IsSequence [a] ↔ a.toNat < 0x80 := by
  simp [IsSequence,wellFormedSequences,InRange,Nat.lt_succ_iff]

theorem isSequence_two : IsSequence [a,b] ↔ InRange (0xC2,0xDF) a ∧ IsTail b := by
  simp [IsSequence,wellFormedSequences,IsTail]

theorem isSequence_three : IsSequence [a,b,c] ↔
    InRange (0xE0,0xEF) a ∧ IsTail b ∧ (a.toNat = 0xE0 → 0xA0 ≤ b.toNat) ∧
      (a.toNat = 0xED → b.toNat ≤ 0x9F) ∧ IsTail c := by
  simp [IsSequence,wellFormedSequences,IsTail,InRange]
  omega

theorem isSequence_four : IsSequence [a,b,c,d] ↔
    InRange (0xF0,0xF4) a ∧ IsTail b ∧ (a.toNat = 0xF0 → 0x90 ≤ b.toNat) ∧
      (a.toNat = 0xF4 → b.toNat ≤ 0x8F) ∧ IsTail c ∧ IsTail d := by
  simp [IsSequence,wellFormedSequences,IsTail,InRange]
  omega

/-- No row of the table has more than four ranges. -/
theorem length_le_four {bytes : List UInt8} (h : IsSequence bytes) : bytes.length ≤ 4 := by
  obtain ⟨ranges,hr,hb⟩ := h
  have ha : ∀ r ∈ wellFormedSequences, r.length ≤ 4 := by decide
  exact hb.length_eq ▸ ha ranges hr

/-- One case for each length, with the bounds of the bytes. -/
theorem IsSequence.cases {bytes : List UInt8} (h : IsSequence bytes) :
    (∃ a : UInt8, bytes = [a] ∧ a.toNat < 0x80) ∨
    (∃ a b : UInt8, bytes = [a,b] ∧ 0xC2 ≤ a.toNat ∧ a.toNat ≤ 0xDF ∧
      0x80 ≤ b.toNat ∧ b.toNat ≤ 0xBF) ∨
    (∃ a b c : UInt8, bytes = [a,b,c] ∧ 0xE0 ≤ a.toNat ∧ a.toNat ≤ 0xEF ∧ 0x80 ≤ b.toNat ∧
      b.toNat ≤ 0xBF ∧ (a.toNat = 0xE0 → 0xA0 ≤ b.toNat) ∧ (a.toNat = 0xED → b.toNat ≤ 0x9F) ∧
      0x80 ≤ c.toNat ∧ c.toNat ≤ 0xBF) ∨
    ∃ a b c d : UInt8, bytes = [a,b,c,d] ∧ 0xF0 ≤ a.toNat ∧ a.toNat ≤ 0xF4 ∧ 0x80 ≤ b.toNat ∧
      b.toNat ≤ 0xBF ∧ (a.toNat = 0xF0 → 0x90 ≤ b.toNat) ∧ (a.toNat = 0xF4 → b.toNat ≤ 0x8F) ∧
      0x80 ≤ c.toNat ∧ c.toNat ≤ 0xBF ∧ 0x80 ≤ d.toNat ∧ d.toNat ≤ 0xBF := by
  have hl := length_le_four h
  match bytes with
  | [] => exact absurd h isSequence_nil
  | [a] => simpa [isSequence_one] using h
  | [a,b] => simpa [isSequence_two,IsTail,InRange,and_assoc] using h
  | [a,b,c] => simpa [isSequence_three,IsTail,InRange,and_assoc] using h
  | [a,b,c,d] => simpa [isSequence_four,IsTail,InRange,and_assoc] using h
  | _::_::_::_::_::_ =>
    simp only [List.length_cons] at hl
    omega

/-- The number of bytes that a first byte announces. -/
def sequenceLength (a : UInt8) : ℕ :=
  if a.toNat < 0x80 then 1
  else if a.toNat < 0xE0 then 2
  else if a.toNat < 0xF0 then 3
  else 4

theorem length_of_isSequence {bytes : List UInt8} (h : IsSequence bytes) :
    bytes.length = sequenceLength (bytes.headD 0) := by
  obtain ⟨a,rfl,h⟩ | ⟨a,b,rfl,h⟩ | ⟨a,b,c,rfl,h⟩ | ⟨a,b,c,d,rfl,h⟩ := h.cases
  all_goals
    rw [List.headD_cons,sequenceLength]
    simp only [List.length_cons,List.length_nil]
    split_ifs <;> omega

end

/-- The first byte says where a sequence ends. -/
theorem prefixCode : PrefixCode IsSequence where
  ne_nil := by
    rintro _ h rfl
    exact isSequence_nil h
  eq_of_append := by
    intro v w s t hv hw h
    match v, w with
    | [], _ => exact absurd hv isSequence_nil
    | _, [] => exact absurd hw isSequence_nil
    | a::v, b::w =>
      obtain rfl : a = b := (List.cons.inj h).1
      have hl := (length_of_isSequence hv).trans (length_of_isSequence hw).symm
      exact List.append_inj_left h hl

end QPlusWeb.UnicodeForms
