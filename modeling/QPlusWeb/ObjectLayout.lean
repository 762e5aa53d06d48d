import Mathlib.Data.Nat.Bitwise
import Mathlib.Tactic.Ring

/-!
# Objects in memory

The bytes of a number, the least significant one first, arrays of objects of one width, and addresses
rounded up to an alignment.
-/

namespace QPlusWeb.ObjectLayout
open List Nat

/-! ### Numbers -/

/-- The number with the given bytes. -/
def littleEndian : List UInt8 → ℕ
  | [] => 0
  | b :: bytes => b.toNat + 256 * littleEndian bytes

/-- The first `width` bytes of a number. -/
def littleEndianBytes : ℕ → ℕ → List UInt8
  | 0, _ => []
  | width + 1, n => UInt8.ofNat n :: littleEndianBytes width (n / 256)

@[simp] theorem length_littleEndianBytes (width n : ℕ) :
    (littleEndianBytes width n).length = width := by
  induction width generalizing n with
  | zero => rfl
  | succ width ih => rw [littleEndianBytes,length_cons,ih]

theorem littleEndian_littleEndianBytes {width n : ℕ} (h : n < 256^width) :
    littleEndian (littleEndianBytes width n) = n := by
  induction width generalizing n with
  | zero =>
    obtain rfl : n = 0 := by simpa using h
    rfl
  | succ width ih =>
    have hd : n / 256 < 256^width := by
      omega
    rw [littleEndianBytes,littleEndian,ih hd,UInt8.toNat_ofNat']
    omega

/-! ### Arrays -/

/-- The bytes of `n` objects of the same width. -/
def elements (width : ℕ) : ℕ → List UInt8 → List (List UInt8)
  | 0, _ => []
  | n + 1, bytes => bytes.take width :: elements width n (bytes.drop width)

theorem elements_flatten_append {width : ℕ} {objects : List (List UInt8)}
    (h : ∀ object ∈ objects, object.length = width) (rest : List UInt8) :
    elements width objects.length (objects.flatten++rest) = objects := by
  induction objects with
  | nil => rfl
  | cons object objects ih =>
    have hobj : object.length = width := h object mem_cons_self
    have ho := ih (forall_mem_cons.mp h).2
    rw [length_cons,elements,flatten_cons,append_assoc,take_left' hobj,drop_left' hobj,ho]

theorem length_flatten_of_forall {width : ℕ} {objects : List (List UInt8)}
    (h : ∀ object ∈ objects, object.length = width) :
    objects.flatten.length = objects.length*width := by
  rw [length_flatten,map_congr_left h,map_const',sum_replicate_nat]

/-! ### Alignment -/

def roundUp (value alignment : ℕ) : ℕ := (value + alignment - 1) / alignment * alignment

/-- Rounding up a 64-bit address by clearing its low bits. -/
def roundUpAddress (address alignment : ℕ) : ℕ :=
  let alignmentMask := alignment - 1
  (address + alignmentMask) % 2 ^ 64 &&& (2 ^ 64 - 1 - alignmentMask)

section
variable {value alignment base k : ℕ}

theorem le_roundUp (h : 0 < alignment) : value ≤ roundUp value alignment := by
  have hm := mod_lt (value+alignment-1) h
  have hd := div_add_mod' (value+alignment-1) alignment
  unfold roundUp
  omega

/-- An aligned base does not matter to rounding. -/
theorem roundUp_add (h : 0 < alignment) (hb : alignment ∣ base) :
    roundUp (base+value) alignment = base+roundUp value alignment := by
  obtain ⟨n,rfl⟩ := hb
  have hs : alignment*n+value+alignment-1 = alignment*n+(value+alignment-1) := by
    omega
  rw [roundUp,hs,mul_add_div h,add_mul,Nat.mul_comm n,roundUp]

theorem and_high_bits (h : value < 2^64) (hk : k ≤ 64) :
    value &&& (2^64-2^k) = value / 2^k*2^k := by
  have hm : 2^64-2^k = (2^(64-k)-1)*2^k := by
    rw [Nat.sub_mul,← pow_add,Nat.sub_add_cancel hk,one_mul]
  apply eq_of_testBit_eq
  intro i
  rw [hm,testBit_and,testBit_mul_two_pow,testBit_mul_two_pow,
    testBit_two_pow_sub_one,testBit_div_two_pow]
  by_cases hi : k ≤ i
  · rw [Nat.sub_add_cancel hi]
    by_cases hlt : i < 64
    · simp [hi,show i-k < 64-k by omega]
    · have hb : value.testBit i = false :=
        testBit_lt_two_pow (h.trans_le (Nat.pow_le_pow_right (by decide) (by omega)))
      simp [hb]
  · simp [hi]

theorem roundUpAddress_eq (hk : k ≤ 64) (h : value+2^k ≤ 2^64) :
    roundUpAddress value (2^k) = roundUp value (2^k) := by
  have hp : 0 < 2^k := Nat.two_pow_pos k
  have hlt : value+(2^k-1) < 2^64 := by omega
  have hm : 2^64-1-(2^k-1) = 2^64-2^k := by omega
  rw [roundUpAddress,mod_eq_of_lt hlt,hm,and_high_bits hlt hk,roundUp]
  congr 2
  omega

end

end QPlusWeb.ObjectLayout
