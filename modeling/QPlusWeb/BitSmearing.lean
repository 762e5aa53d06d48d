import Mathlib.Data.Nat.Size
import Mathlib.Tactic.Linarith

/-!
# Filling the bits below the highest one

Shifting a word and joining it with itself copies every bit to the places below it.  Doubling the
distance each time fills all places below the highest bit after a few steps.
-/

namespace QPlusWeb.BitSmearing
open Nat

/-- Every bit of `v` has been copied to the `n - 1` places below it. -/
def Smears (v n x : ℕ) : Prop := ∀ i, x.testBit i = true ↔ ∃ d < n, v.testBit (i + d) = true

theorem smears_one (v : ℕ) : Smears v 1 v := by
  intro i
  constructor
  · intro h
    exact ⟨0,Nat.zero_lt_one,h⟩
  · rintro ⟨d,hd,h⟩
    rwa [lt_one_iff.mp hd] at h

theorem Smears.double {v n x : ℕ} (h : Smears v n x) : Smears v (n+n) (x ||| x >>> n) := by
  intro i
  rw [testBit_or,testBit_shiftRight,Bool.or_eq_true,h i,h (n+i)]
  constructor
  · rintro (⟨d,hd,hb⟩ | ⟨d,hd,hb⟩)
    · exact ⟨d,by omega,hb⟩
    · refine ⟨n+d,by omega,?_⟩
      rwa [show i+(n+d) = n+i+d by omega]
  · rintro ⟨d,hd,hb⟩
    by_cases hl : d < n
    · exact .inl ⟨d,hl,hb⟩
    · refine .inr ⟨d-n,by omega,?_⟩
      rwa [show n+i+(d-n) = i+d by omega]

/-- All places below the highest bit have been filled. -/
theorem Smears.eq_two_pow_sub_one {v n x : ℕ} (h : Smears v n x) (hv : v < 2^n) :
    x = 2^v.size-1 := by
  refine eq_of_testBit_eq fun i => ?_
  rw [testBit_two_pow_sub_one,Bool.eq_iff_iff,h i,decide_eq_true_iff,lt_size]
  constructor
  · rintro ⟨d,-,hb⟩
    calc 2^i ≤ 2^(i+d) := Nat.pow_le_pow_right (by omega) (by omega)
      _ ≤ v := ge_two_pow_of_testBit hb
  · intro hle
    obtain ⟨j,hj,hb⟩ := exists_ge_and_testBit_of_ge_two_pow hle
    have hlt : j < n := by
      have hp : 2^j < 2^n := Nat.lt_of_le_of_lt (ge_two_pow_of_testBit hb) hv
      exact (Nat.pow_lt_pow_iff_right (by omega)).mp hp
    refine ⟨j-i,by omega,?_⟩
    rwa [show i+(j-i) = j by omega]

/-- The steps for a word of 32 bits. -/
def fillBelow (v : UInt32) : UInt32 :=
  let v := v ||| v >>> 1
  let v := v ||| v >>> 2
  let v := v ||| v >>> 4
  let v := v ||| v >>> 8
  v ||| v >>> 16

theorem toNat_fillBelow (v : UInt32) : (fillBelow v).toNat = 2^v.toNat.size-1 := by
  have hs : Smears v.toNat 32 (fillBelow v).toNat := by
    have h := (((((smears_one v.toNat).double).double).double).double).double
    simpa [fillBelow] using h
  exact hs.eq_two_pow_sub_one (UInt32.toNat_lt v)

/-- One more than the filled word is the next power of two, unless it is too large. -/
theorem fillBelow_sub_one_add_one {v : UInt32} (hpos : 0 < v.toNat) (hle : v.toNat ≤ 2^31) :
    ∃ m ≤ 31, (fillBelow (v-1)+1).toNat = 2^m ∧ v.toNat ≤ 2^m ∧ 2^m < 2*v.toNat := by
  have ho : (1 : UInt32) ≤ v := UInt32.le_iff_toNat_le.mpr hpos
  have hpred : (v-1).toNat = v.toNat-1 := UInt32.toNat_sub_of_le _ _ ho
  have hs : ((v-1).toNat).size ≤ 31 := size_le.mpr (by omega)
  have hpow : 2^((v-1).toNat).size ≤ 2^31 := Nat.pow_le_pow_right (by omega) hs
  have hpow0 := Nat.two_pow_pos ((v-1).toNat).size
  refine ⟨_,hs,?_,?_,?_⟩
  · rw [UInt32.toNat_add,toNat_fillBelow]
    simp only [UInt32.toNat_one]
    omega
  · have := lt_size_self (v-1).toNat
    omega
  · rcases Nat.eq_zero_or_pos (v-1).toNat with hz | hpos'
    · rw [hz,size_zero]
      omega
    · have hsizepos : 0 < ((v-1).toNat).size := Nat.size_pos.mpr hpos'
      have hh : 2^(((v-1).toNat).size-1) ≤ (v-1).toNat := lt_size.mp (by omega)
      have hd : 2^((v-1).toNat).size = 2*2^(((v-1).toNat).size-1) := by
        rw [← Nat.pow_succ']
        congr 1
        omega
      omega

end QPlusWeb.BitSmearing
