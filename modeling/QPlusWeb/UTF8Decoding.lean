import QPlusWeb.UTF8Conversion
import Mathlib.Data.FinEnum
import Mathlib.Data.Nat.Bitwise

/-!
# Decoding is exact

The length, the legality test and the character of a sequence agree with the table of well-formed
sequences, so the loop converts as many sequences as are well formed and fit.
-/

namespace QPlusWeb.WTF.Unicode

open UnicodeForms PrefixCodes List UInt16 Nat

section
variable (b : UInt8)

theorem inlineUTF8SequenceLength_eq : inlineUTF8SequenceLength b =
    if b.toNat < 0x80 then 1 else if b.toNat < 0xC0 then 0 else if b.toNat < 0xE0 then 2
    else if b.toNat < 0xF0 then 3 else if b.toNat < 0xF8 then 4 else 0 := by
  revert b
  decide +kernel

theorem and_C0_eq_iff : b &&& 0xC0 = 0x80 ↔ IsTail b := by
  revert b
  decide +kernel

theorem isTrailing_iff : isTrailing b ↔ IsTail b := by
  simp only [isTrailing,IsTail,InRange,Bool.not_eq_true',Bool.or_eq_false_iff,
    decide_eq_false_iff_not,UInt8.not_lt,gt_iff_lt,UInt8.le_iff_toNat_le]
  exact Iff.rfl

end

section Legality
variable {a b c d : UInt8} {rest : List UInt8}

theorem isLegalFirst_iff : isLegalFirst (a::rest) ↔
    a.toNat < 0x80 ∨ 0xC2 ≤ a.toNat ∧ a.toNat ≤ 0xF4 := by
  revert a
  unfold isLegalFirst byteAt
  simp only [getD_cons_zero]
  decide +kernel

/-- The second byte as the inner `switch` tests it. -/
def SecondByte (a b : UInt8) : Prop :=
  b.toNat ≤ 0xBF ∧ (a.toNat = 0xE0 → 0xA0 ≤ b.toNat) ∧ (a.toNat = 0xED → b.toNat ≤ 0x9F) ∧
    (a.toNat = 0xF0 → 0x90 ≤ b.toNat) ∧ (a.toNat = 0xF4 → b.toNat ≤ 0x8F) ∧
    (a.toNat ≠ 0xED → a.toNat ≠ 0xF4 → 0x80 ≤ b.toNat)

theorem isLegalSecond_iff (ha : 0x80 ≤ a.toNat) : isLegalSecond (a::b::rest) ↔
    SecondByte a b ∧ 0xC2 ≤ a.toNat ∧ a.toNat ≤ 0xF4 := by
  have hf : isLegalFirst (a::b::rest) ↔ 0xC2 ≤ a.toNat ∧ a.toNat ≤ 0xF4 := by
    rw [isLegalFirst_iff]
    omega
  have h0 : byteAt (a::b::rest) 0 = a := rfl
  have h1 : byteAt (a::b::rest) 1 = b := rfl
  simp only [isLegalSecond,h0,h1,Bool.and_eq_true,hf,SecondByte]
  refine and_congr_left fun _ => ?_
  split
  case h_5 hE0 hED hF0 hF4 =>
    simp only [← UInt8.toNat_inj,UInt8.reduceToNat,imp_false] at hE0 hED hF0 hF4
    simp only [Bool.not_eq_true',decide_eq_false_iff_not,UInt8.not_lt,gt_iff_lt,
      UInt8.le_iff_toNat_le,UInt8.reduceToNat]
    omega
  all_goals
    simp only [Bool.not_eq_true',decide_eq_false_iff_not,UInt8.not_lt,gt_iff_lt,
      UInt8.le_iff_toNat_le,UInt8.reduceToNat,true_imp_iff]
    omega

/-- The legality test has no lower bound for the second byte after `0xED` and `0xF4`. -/
def Accidental : List UInt8 → Prop
  | [a, b, c] => a.toNat = 0xED ∧ b.toNat < 0x80 ∧ IsTail c
  | [a, b, c, d] => a.toNat = 0xF4 ∧ b.toNat < 0x80 ∧ IsTail c ∧ IsTail d
  | _ => False

theorem isLegalUTF8_one_iff (ha : a.toNat < 0x80) :
    isLegalUTF8 (a::rest) 1 ↔ IsSequence [a] ∨ Accidental [a] := by
  simp only [isLegalUTF8,isLegalFirst_iff,isSequence_one,Accidental]
  omega

theorem isLegalUTF8_two_iff (ha : 0xC0 ≤ a.toNat) (ha' : a.toNat < 0xE0) :
    isLegalUTF8 (a::b::rest) 2 ↔ IsSequence [a,b] ∨ Accidental [a,b] := by
  simp only [isLegalUTF8,isLegalSecond_iff (show 0x80 ≤ a.toNat by omega),isSequence_two,
    Accidental,SecondByte,IsTail,InRange,or_false]
  omega

theorem isLegalUTF8_three_iff (ha : 0xE0 ≤ a.toNat) (ha' : a.toNat < 0xF0) :
    isLegalUTF8 (a::b::c::rest) 3 ↔ IsSequence [a,b,c] ∨ Accidental [a,b,c] := by
  have h2 : byteAt (a::b::c::rest) 2 = c := rfl
  simp only [isLegalUTF8,h2,Bool.and_eq_true,isTrailing_iff]
  rw [isLegalSecond_iff (by omega),isSequence_three,Accidental]
  simp only [SecondByte,IsTail,InRange]
  omega

theorem isLegalUTF8_four_iff (ha : 0xF0 ≤ a.toNat) (ha' : a.toNat < 0xF8) :
    isLegalUTF8 (a::b::c::d::rest) 4 ↔ IsSequence [a,b,c,d] ∨ Accidental [a,b,c,d] := by
  have h2 : byteAt (a::b::c::d::rest) 2 = c := rfl
  have h3 : byteAt (a::b::c::d::rest) 3 = d := rfl
  simp only [isLegalUTF8,h2,h3,Bool.and_eq_true,isTrailing_iff]
  rw [isLegalSecond_iff (by omega),isSequence_four,Accidental]
  simp only [SecondByte,IsTail,InRange]
  omega

/-- The test on the bytes that a first byte announces. -/
theorem isLegalUTF8_iff {source : List UInt8} (hne : source ≠ [])
    (hl : inlineUTF8SequenceLength (byteAt source 0) ≤ source.length) :
    isLegalUTF8 source (inlineUTF8SequenceLength (byteAt source 0)) ↔
      IsSequence (source.take (inlineUTF8SequenceLength (byteAt source 0))) ∨
        Accidental (source.take (inlineUTF8SequenceLength (byteAt source 0))) := by
  match source with
  | [] => exact absurd rfl hne
  | a::rest =>
    have h0 : byteAt (a::rest) 0 = a := rfl
    rw [h0] at hl ⊢
    have hz : isLegalUTF8 (a::rest) 0 ↔
        IsSequence ((a::rest).take 0) ∨ Accidental ((a::rest).take 0) :=
      ⟨nofun,fun h => h.elim (fun h => absurd h isSequence_nil) False.elim⟩
    rw [inlineUTF8SequenceLength_eq] at hl ⊢
    split_ifs at hl ⊢
    · exact isLegalUTF8_one_iff ‹_›
    · exact hz
    · match rest, hl with
      | b::rest, _ => exact isLegalUTF8_two_iff (by omega) ‹_›
    · match rest, hl with
      | b::c::rest, _ => exact isLegalUTF8_three_iff (by omega) ‹_›
    · match rest, hl with
      | b::c::d::rest, _ => exact isLegalUTF8_four_iff (by omega) ‹_›
    · exact hz

end Legality

section
variable {a b c d : UInt8} {rest bytes : List UInt8}

theorem toNat_shift_add {x : UInt32} (h : x.toNat < 2^24) :
    ((x <<< 6)+b.toUInt32).toNat = x.toNat*0x40+b.toNat := by
  have hb := UInt8.toNat_lt b
  have hs : (6 : UInt32).toNat % 32 = 6 := rfl
  rw [UInt32.toNat_add,UInt32.toNat_shiftLeft,UInt8.toNat_toUInt32,hs,shiftLeft_eq]
  omega

/-- The bytes, each shifted by six bits against the next one. -/
def shifted (bytes : List UInt8) (n : ℕ) : ℕ := bytes.foldl (fun n b => n * 0x40 + b.toNat) n

/-- The loop over the bytes stays far below `2 ^ 32` for four bytes. -/
theorem toNat_foldl (bytes : List UInt8) (x : UInt32) (h : (x.toNat+5)*0x40^bytes.length ≤ 2^30) :
    (bytes.foldl (fun (character : UInt32) b => (character <<< 6)+b.toUInt32) x).toNat =
      shifted bytes x.toNat := by
  induction bytes generalizing x with
  | nil => rfl
  | cons b bytes ih =>
    have hb := UInt8.toNat_lt b
    have hp : 0 < 0x40^bytes.length := Nat.pow_pos (by decide)
    rw [length_cons,Nat.pow_succ',← Nat.mul_assoc] at h
    have hx : (x.toNat+5)*0x40 ≤ 2^30 := le_trans (Nat.le_mul_of_pos_right _ hp) h
    have hs := toNat_shift_add (b := b) (x := x) (by omega)
    rw [foldl_cons,shifted,foldl_cons,ih _ ?_,hs,shifted]
    refine le_trans (Nat.mul_le_mul_right _ ?_) h
    omega

theorem toNat_readUTF8Sequence_sub (hl : bytes.length ≤ 4) (rest : List UInt8) :
    (readUTF8Sequence (bytes++rest) bytes.length).toNat =
      (2^32-(offsetsFromUTF8.getD (bytes.length-1) 0).toNat+shifted bytes 0) % 2^32 := by
  have hb : ((0 : UInt32).toNat+5)*0x40^bytes.length ≤ 2^30 := by
    calc (0+5)*0x40^bytes.length ≤ (0+5)*0x40^4 :=
          Nat.mul_le_mul_left _ (Nat.pow_le_pow_right (by decide) hl)
      _ ≤ 2^30 := by decide
  rw [readUTF8Sequence,take_left,UInt32.toNat_sub,toNat_foldl bytes 0 hb]
  rfl

/-- The bytes minus the offset of the table are the bits that they carry. -/
theorem toNat_readUTF8Sequence (h : IsSequence bytes) (rest : List UInt8) :
    (readUTF8Sequence (bytes++rest) bytes.length).toNat = character bytes := by
  rw [toNat_readUTF8Sequence_sub (length_le_four h)]
  obtain ⟨a,rfl,h⟩ | ⟨a,b,rfl,h⟩ | ⟨a,b,c,rfl,h⟩ | ⟨a,b,c,d,rfl,h⟩ := h.cases
  all_goals
    simp only [shifted,foldl_cons,foldl_nil,character_one,character_two,character_three,
      character_four,offsetsFromUTF8,length_cons,length_nil,Nat.add_sub_cancel,getD_cons_zero,
      getD_cons_succ,UInt32.reduceToNat]
    omega

end

theorem and_shiftLeft_eq {m k : ℕ} (x : ℕ) : x &&& (2^m-1) <<< k = x / 2^k % 2^m*2^k := by
  rw [← Nat.and_two_pow_sub_one_eq_mod,← Nat.shiftRight_eq_div_pow,← shiftLeft_eq,
    shiftLeft_and_distrib]
  refine eq_of_testBit_eq fun i => ?_
  by_cases hi : k ≤ i
  · simp [hi]
  · simp [hi]

section
variable {c : UInt32} {bytes : List UInt8}

/-- The characters of sequences: no surrogates, and nothing beyond the last character. -/
theorem character_scalar (h : IsSequence bytes) :
    character bytes < 0xD800 ∨ 0xE000 ≤ character bytes ∧ character bytes ≤ 0x10FFFF := by
  obtain ⟨a,rfl,h⟩ | ⟨a,b,rfl,h⟩ | ⟨a,b,c,rfl,h⟩ | ⟨a,b,c,d,rfl,h⟩ := h.cases
  · rw [character_one]
    omega
  · rw [character_two]
    omega
  · rw [character_three]
    omega
  · rw [character_four]
    omega

theorem U_IS_BMP_iff : U_IS_BMP c ↔ c.toNat < 0x10000 := by
  simp only [U_IS_BMP,decide_eq_true_eq,UInt32.le_iff_toNat_le,UInt32.reduceToNat]
  omega

theorem U_IS_SURROGATE_eq_false (h : c.toNat < 0xD800 ∨ 0xE000 ≤ c.toNat) :
    U_IS_SURROGATE c = false := by
  rw [U_IS_SURROGATE,decide_eq_false_iff_not]
  intro hm
  have hn : c.toNat &&& 0xFFFFF800 = 0xD800 := by
    rw [← UInt32.toNat_inj,UInt32.toNat_and] at hm
    exact hm
  -- the mask keeps the bits from the eleventh on
  have hh := and_shiftLeft_eq (m := 21) (k := 11) c.toNat
  have hlt := UInt32.toNat_lt c
  have hmask' : (2^21-1) <<< 11 = 0xFFFFF800 := rfl
  rw [hmask',hn] at hh
  omega

theorem U_IS_SUPPLEMENTARY_eq_true (h : 0x10000 ≤ c.toNat) (h' : c.toNat ≤ 0x10FFFF) :
    U_IS_SUPPLEMENTARY c := by
  have hle : (0x10000 : UInt32) ≤ c := UInt32.le_iff_toNat_le.mpr h
  rw [U_IS_SUPPLEMENTARY,decide_eq_true_eq,UInt32.le_iff_toNat_le,UInt32.toNat_sub_of_le _ _ hle]
  simp only [UInt32.reduceToNat]
  omega

theorem utf16_of_bmp (h : c.toNat < 0x10000) : utf16 c.toNat = [c.toUInt16] := by
  rw [utf16,if_pos h]
  rfl

theorem utf16_of_supplementary (h : 0x10000 ≤ c.toNat) (h' : c.toNat ≤ 0x10FFFF) :
    utf16 c.toNat = [U16_LEAD c,U16_TRAIL c] := by
  have hl : U16_LEAD c = ofNat (0xD800+(c.toNat-0x10000) / 0x400) := by
    rw [← UInt16.toNat_inj,U16_LEAD,UInt32.toNat_toUInt16,UInt32.toNat_add,
      UInt32.toNat_shiftRight,toNat_ofNat',Nat.shiftRight_eq_div_pow]
    simp only [UInt32.reduceToNat,Nat.reduceMod,Nat.reducePow]
    omega
  have ht : U16_TRAIL c = ofNat (0xDC00+(c.toNat-0x10000) % 0x400) := by
    have hm : c.toNat &&& 0x3FF = c.toNat % 0x400 := Nat.and_two_pow_sub_one_eq_mod c.toNat 10
    have hor : c.toNat % 0x400 ||| 0xDC00 = 0xDC00+c.toNat % 0x400 := by
      rw [lor_comm]
      exact (shiftLeft_add_eq_or_of_lt (a := 0x37) (i := 10) (mod_lt _ (by decide))).symm
    rw [← UInt16.toNat_inj,U16_TRAIL,UInt32.toNat_toUInt16,UInt32.toNat_or,UInt32.toNat_and,
      toNat_ofNat']
    simp only [UInt32.reduceToNat]
    rw [hm,hor]
    omega
  rw [utf16,if_neg (by omega),hl,ht]

/-- What `!(orAllData & ~0x7f)` says. -/
theorem and_not_7F_eq_zero_iff (x : UInt16) : x &&& ~~~0x7F = 0 ↔ x.toNat < 0x80 := by
  have hlt := toNat_lt x
  have hh := and_shiftLeft_eq (m := 9) (k := 7) x.toNat
  have hm : (2^9-1) <<< 7 = (~~~0x7F : UInt16).toNat := rfl
  rw [hm] at hh
  rw [← UInt16.toNat_inj,UInt16.toNat_and,hh]
  simp only [reduceToNat]
  omega

end

end QPlusWeb.WTF.Unicode
