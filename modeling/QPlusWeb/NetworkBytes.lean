import Mathlib.Data.List.Induction
import Mathlib.Data.Int.Bitwise
import Mathlib.Tactic.Ring
import Mathlib.Tactic.Linarith

/-!
# Numbers in network byte order and masked bytes

A number of a fixed width is a list of bytes, the most significant one first.  A key is applied to a
part of a buffer by exclusive or, over and over, in place.
-/

namespace QPlusWeb.NetworkBytes
open List

/-! ### Numbers -/

variable (bytes : List UInt8)

/-- The number with the given bytes. -/
def bigEndian : ℕ := bytes.foldl (fun n b => n * 256 + b.toNat) 0

/-- The last `width` bytes of a number. -/
def bigEndianBytes : ℕ → ℕ → List UInt8
  | 0, _ => []
  | width + 1, n => bigEndianBytes width (n / 256) ++ [UInt8.ofNat n]

theorem bigEndian_concat (b : UInt8) : bigEndian (bytes++[b]) = bigEndian bytes*256+b.toNat := by
  rw [bigEndian,foldl_append]
  rfl

@[simp] theorem length_bigEndianBytes (width n : ℕ) : (bigEndianBytes width n).length = width := by
  induction width generalizing n with
  | zero => rfl
  | succ width ih => rw [bigEndianBytes,length_append,ih,length_singleton]

theorem bigEndian_bigEndianBytes {width n : ℕ} (h : n < 256^width) :
    bigEndian (bigEndianBytes width n) = n := by
  induction width generalizing n with
  | zero =>
    obtain rfl : n = 0 := by simpa using h
    rfl
  | succ width ih =>
    have hd : n / 256 < 256^width := by
      omega
    rw [bigEndianBytes,bigEndian_concat,ih hd,UInt8.toNat_ofNat']
    omega

theorem bigEndian_lt : bigEndian bytes < 256^bytes.length := by
  induction bytes using List.reverseRecOn with
  | nil => decide
  | append_singleton bytes b ih =>
    have hb := b.toNat_lt
    rw [bigEndian_concat,length_append,length_singleton,pow_succ]
    omega

theorem bigEndianBytes_bigEndian : bigEndianBytes bytes.length (bigEndian bytes) = bytes := by
  induction bytes using List.reverseRecOn with
  | nil => rfl
  | append_singleton bytes b ih =>
    have hb := b.toNat_lt
    have hd : (bigEndian bytes*256+b.toNat) / 256 = bigEndian bytes := by omega
    have hbyte : UInt8.ofNat (bigEndian bytes*256+b.toNat) = b := by
      apply UInt8.toNat_inj.mp
      rw [UInt8.toNat_ofNat']
      omega
    rw [bigEndian_concat,length_append,length_singleton,bigEndianBytes,hd,ih,hbyte]

/-! ### Masks -/

/-- Applies the key of `width` bytes at `keyStart` to the first `n` bytes from `start` on. -/
def maskInPlace (width keyStart start : ℕ) (data : List UInt8) : ℕ → List UInt8
  | 0 => data
  | i + 1 =>
    let data := maskInPlace width keyStart start data i
    data.set (start + i) (data.getD (start + i) 0 ^^^ data.getD (keyStart + i % width) 0)

section
variable {width keyStart start n : ℕ} {data rest : List UInt8}

@[simp] theorem length_maskInPlace : (maskInPlace width keyStart start data n).length =
    data.length := by
  induction n with
  | zero => rfl
  | succ n ih => rw [maskInPlace,length_set,ih]

/-- The key in front of the masked part is not changed. -/
theorem getElem?_maskInPlace (hw : 0 < width) (hk : keyStart+width ≤ start) (j : ℕ) :
    (maskInPlace width keyStart start data n)[j]? =
      if start ≤ j ∧ j < start+n then
        data[j]?.map (· ^^^ data.getD (keyStart+(j-start) % width) 0)
      else data[j]? := by
  induction n generalizing j with
  | zero => rw [maskInPlace,if_neg (by omega)]
  | succ n ih =>
    have hm := Nat.mod_lt n hw
    have hkeyByte : (maskInPlace width keyStart start data n).getD (keyStart+n % width) 0 =
        data.getD (keyStart+n % width) 0 := by
      rw [getD_eq_getElem?_getD,getD_eq_getElem?_getD,ih,if_neg (by omega)]
    have hb : (maskInPlace width keyStart start data n).getD (start+n) 0 =
        data.getD (start+n) 0 := by
      rw [getD_eq_getElem?_getD,getD_eq_getElem?_getD,ih,if_neg (by omega)]
    rw [maskInPlace,getElem?_set,hkeyByte,hb,length_maskInPlace]
    by_cases hj : start+n = j
    · subst hj
      have hin : start ≤ start+n ∧ start+n < start+(n+1) := by omega
      rw [if_pos rfl,if_pos hin,Nat.add_sub_cancel_left]
      by_cases hlt : start+n < data.length
      · rw [if_pos hlt,getElem?_eq_getElem hlt,getD_eq_getElem _ _ hlt,Option.map_some]
      · rw [if_neg hlt,getElem?_eq_none (not_lt.mp hlt),Option.map_none]
    · rw [if_neg hj,ih]
      by_cases hin : start ≤ j ∧ j < start+n
      · rw [if_pos hin,if_pos (by omega)]
      · rw [if_neg hin,if_neg (by omega)]

theorem maskInPlace_maskInPlace (hw : 0 < width) (hk : keyStart+width ≤ start) :
    maskInPlace width keyStart start (maskInPlace width keyStart start data n) n = data := by
  refine ext_getElem? fun j => ?_
  rw [getElem?_maskInPlace hw hk,getElem?_maskInPlace hw hk]
  by_cases hj : start ≤ j ∧ j < start+n
  · have hm := Nat.mod_lt (j-start) hw
    have hkeyByte : (maskInPlace width keyStart start data n).getD
        (keyStart+(j-start) % width) 0 = data.getD (keyStart+(j-start) % width) 0 := by
      rw [getD_eq_getElem?_getD,getD_eq_getElem?_getD,getElem?_maskInPlace hw hk,if_neg (by omega)]
    rw [if_pos hj,if_pos hj,hkeyByte,Option.map_map]
    have hc : ∀ b k : UInt8, b ^^^ k ^^^ k = b := fun b k => by
      rw [UInt8.xor_assoc,UInt8.xor_self,UInt8.xor_zero]
    cases data[j]? with
    | none => rfl
    | some b => exact congrArg some (hc b _)
  · rw [if_neg hj,if_neg hj]

theorem maskInPlace_append (hk : keyStart+width ≤ start) (hw : 0 < width)
    (he : start+n ≤ data.length) :
    maskInPlace width keyStart start (data++rest) n =
      maskInPlace width keyStart start data n++rest := by
  induction n with
  | zero => rfl
  | succ n ih =>
    have hm := Nat.mod_lt n hw
    rw [maskInPlace,maskInPlace,ih (by omega),getD_append _ _ _ _ (by simp; omega),
      getD_append _ _ _ _ (by simp; omega),set_append_left _ _ (by simp; omega)]

theorem maskInPlace_cons (b : UInt8) (data : List UInt8) (n : ℕ) :
    maskInPlace width (keyStart+1) (start+1) (b::data) n =
      b::maskInPlace width keyStart start data n := by
  induction n with
  | zero => rfl
  | succ n ih =>
    have hb : start+1+n = start+n+1 := by omega
    have hk : keyStart+1+n % width = keyStart+n % width+1 := by omega
    rw [maskInPlace,maskInPlace,ih,hb,hk,getD_cons_succ,getD_cons_succ,set_cons_succ]

theorem take_maskInPlace (hk : keyStart+width ≤ start) (hw : 0 < width) :
    (maskInPlace width keyStart start data n).take start = data.take start := by
  refine ext_getElem? fun j => ?_
  rw [getElem?_take,getElem?_take]
  by_cases hj : j < start
  · rw [if_pos hj,if_pos hj,getElem?_maskInPlace hw hk,if_neg (by omega)]
  · rw [if_neg hj,if_neg hj]

end

end QPlusWeb.NetworkBytes
