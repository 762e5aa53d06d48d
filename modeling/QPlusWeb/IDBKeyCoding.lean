import QPlusWeb.IDBKey
import Mathlib.Tactic.Ring
import Mathlib.Tactic.NormNum

/-!
# Encoded keys and their two readers

Keys are written as a type byte and a payload: variable-length integers in
base 128, strings in big-endian UTF-16 behind their length, doubles as the
eight bytes of the host, arrays behind their size. A pointer with its limit is
the list of bytes from the one to the other, and a null result is `none`.

The source shifts a 64-bit value by 7, 14, ... without a bound. A shift by 64
or more is undefined in C++, so its result is left to the instance
`WideShift`. The recursion of the readers carries fuel, one unit per nesting;
the number of bytes is enough, and more fuel changes nothing.
-/
namespace QPlusWeb.IDB
open List UInt8

/-- What `x << shift` yields when `shift` is not below the width. -/
class WideShift where
  shiftLeft : ℕ → ℕ → ℕ

abbrev Bytes := List UInt8

abbrev Reader (α : Type) := Bytes → Option (α × Bytes)

def encodeByte (c : UInt8) : Bytes := [c]

def decodeByte : Reader UInt8
  | [] => none
  | c :: p => some (c, p)

/-- The `do ... while (n)` loop; ten rounds cover every 64-bit value. -/
def encodeVarIntLoop : ℕ → ℕ → Bytes
  | 0, _ => []
  | i + 1, n =>
    if n / 128 ≠ 0 then ofNat (n % 128 + 128) :: encodeVarIntLoop i (n / 128)
    else [ofNat (n % 128)]

def encodeVarInt (n : ℕ) : Bytes := encodeVarIntLoop 10 n

variable (s : List UChar)

def encodeString : Bytes :=
  s.flatMap fun c => [ofNat (c.toNat / 256), ofNat (c.toNat % 256)]

def decodeString : Bytes → List UChar
  | hi :: lo :: p => UInt16.ofNat (hi.toNat * 256 + lo.toNat) :: decodeString p
  | _ => []

def encodeStringWithLength : Bytes := encodeVarInt s.length ++ encodeString s

theorem encodeString_length : (encodeString s).length = s.length*2 := by
  induction s with
  | nil => rfl
  | cons c s ih =>
    simp only [encodeString,flatMap_cons,length_append,length_cons] at ih ⊢
    simp
    omega

theorem decodeString_encodeString : decodeString (encodeString s) = s := by
  induction s with
  | nil => rfl
  | cons c s ih =>
    have hc : c.toNat < 65536 := c.toNat_lt
    have hu : UInt16.ofNat ((ofNat (c.toNat / 256)).toNat*256 +
        (ofNat (c.toNat % 256)).toNat) = c := by
      apply UInt16.toNat_inj.mp
      rw [UInt16.toNat_ofNat',toNat_ofNat',toNat_ofNat']
      omega
    simp only [encodeString,flatMap_cons,cons_append,nil_append,decodeString,hu] at ih ⊢
    rw [ih]

def encodeDouble (d : Double) : Bytes :=
  (List.range 8).map fun i => ofNat (d.bits.toNat / 256 ^ i)

def littleEndian : Bytes → ℕ
  | [] => 0
  | b :: p => b.toNat + 256 * littleEndian p

def decodeDouble (p : Bytes) : Option (Double × Bytes) :=
  if p.length < 8 then none
  else some (⟨UInt64.ofNat (littleEndian (p.take 8))⟩, p.drop 8)

theorem encodeDouble_length (d : Double) : (encodeDouble d).length = 8 := by
  simp [encodeDouble]

theorem littleEndian_encodeDouble (d : Double) : littleEndian (encodeDouble d) = d.bits.toNat := by
  have hd : d.bits.toNat < 2^64 := d.bits.toNat_lt
  simp only [encodeDouble,List.range,List.range.loop,map_cons,map_nil,littleEndian,toNat_ofNat']
  omega

theorem decodeDouble_encodeDouble (d : Double) (s : Bytes) :
    decodeDouble (encodeDouble d++s) = some (d,s) := by
  have hl := encodeDouble_length d
  unfold decodeDouble
  rw [if_neg (by simp [hl]),take_left' hl,drop_left' hl,littleEndian_encodeDouble]
  simp

def nullTypeByte : UInt8 := 0
def stringTypeByte : UInt8 := 1
def dateTypeByte : UInt8 := 2
def numberTypeByte : UInt8 := 3
def arrayTypeByte : UInt8 := 4
def minKeyTypeByte : UInt8 := 5

def maxIDBKey : Bytes := encodeByte nullTypeByte
def minIDBKey : Bytes := encodeByte minKeyTypeByte

mutual

def encodeIDBKey : IDBKey → Bytes
  | .invalid => encodeByte nullTypeByte
  | .array ks => encodeByte arrayTypeByte ++ (encodeVarInt ks.length ++ encodeIDBKeys ks)
  | .string s => encodeByte stringTypeByte ++ encodeStringWithLength s
  | .date d => encodeByte dateTypeByte ++ encodeDouble d
  | .number d => encodeByte numberTypeByte ++ encodeDouble d

def encodeIDBKeys : List IDBKey → Bytes
  | [] => []
  | k :: ks => encodeIDBKey k ++ encodeIDBKeys ks

end

/-- The digit `n % b` is read at `shift`, and what is left of `n` at `shift + k`. -/
theorem next_digit {b k i n found shift : ℕ} (hb : b = 2^k) (hi : n < b^(i+1))
    (hf : found < 2^shift) (hn : n*2^shift < 2^63) (hq : n / b ≠ 0) :
    n / b < b^i ∧ n / b*2^(shift+k) < 2^63 ∧ shift+k < 64 ∧
      found+2^shift*(n % b) < 2^(shift+k) ∧
      found+2^shift*(n % b)+2^(shift+k)*(n / b) = found+2^shift*n := by
  have hp : 2^(shift+k) = 2^shift*b := by rw [hb,Nat.pow_add]
  have hnext : n / b*2^(shift+k) < 2^63 := by
    rw [hp]
    calc n / b*(2^shift*b) = n / b*b*2^shift := by ring
      _ ≤ n*2^shift := Nat.mul_le_mul_right _ (Nat.div_mul_le_self n b)
      _ < 2^63 := hn
  refine ⟨Nat.div_lt_of_lt_mul (by rwa [Nat.pow_succ'] at hi),hnext,?_,?_,?_⟩
  · by_contra hge
    have h₁ : 2^63 ≤ 2^(shift+k) := Nat.pow_le_pow_right (by omega) (by omega)
    have h₂ := Nat.le_mul_of_pos_left (2^(shift+k)) (Nat.pos_of_ne_zero hq)
    omega
  · rw [hp]
    calc found+2^shift*(n % b) < 2^shift*(n % b+1) := by rw [Nat.mul_succ]; omega
      _ ≤ 2^shift*b := Nat.mul_le_mul_left _ (Nat.mod_lt n (hb ▸ Nat.two_pow_pos k))
  · rw [hp,Nat.add_assoc,Nat.mul_assoc,← Nat.mul_add,Nat.mod_add_div]

section Readers
variable [WideShift]

/-- A 64-bit left shift on bit patterns. -/
def shiftLeft64 (x shift : ℕ) : ℕ :=
  if shift < 64 then x * 2 ^ shift % 2 ^ 64 else WideShift.shiftLeft x shift % 2 ^ 64

/-- A 64-bit pattern read as a signed integer. -/
def toInt64 (n : ℕ) : ℤ := if n < 2 ^ 63 then (n : ℤ) else (n : ℤ) - 2 ^ 64

def decodeVarIntLoop : ℕ → ℕ → Reader ℕ
  | _, _, [] => none
  | foundInt, shift, c :: p =>
    let foundInt := foundInt ||| shiftLeft64 (c.toNat % 128) shift
    if 128 ≤ c.toNat then decodeVarIntLoop foundInt (shift + 7) p else some (foundInt, p)

def decodeVarInt (p : Bytes) : Option (ℤ × Bytes) :=
  (decodeVarIntLoop 0 0 p).map fun r => (toInt64 r.1, r.2)

/-- A length prefix: `if (!p || length < 0) return 0`. -/
def decodeLength (p : Bytes) : Option (ℕ × Bytes) :=
  (decodeVarInt p).bind fun r => if r.1 < 0 then none else some (r.1.toNat, r.2)

/-- `p + len * 2 > limit` is tested without overflow; a length from `2^62` on
ends in the crash of the allocation for the string, which is no result either. -/
def decodeStringWithLength (p : Bytes) : Option (List UChar × Bytes) :=
  (decodeLength p).bind fun r =>
    if r.2.length < r.1 * 2 then none
    else some (decodeString (r.2.take (r.1 * 2)), r.2.drop (r.1 * 2))

/-- `while (length--)` around a reader. -/
def readMany {α : Type} (read : Reader α) : ℕ → Reader (List α)
  | 0, p => some ([], p)
  | n + 1, p => (read p).bind fun r => (readMany read n r.2).map fun q => (r.1 :: q.1, q.2)

def decodeIDBKeyFuel : ℕ → Reader IDBKey
  | 0, _ => none
  | _, [] => none
  | fuel + 1, type :: p =>
    if type = nullTypeByte then some (.invalid, p)
    else if type = arrayTypeByte then
      (decodeLength p).bind fun r =>
        (readMany (decodeIDBKeyFuel fuel) r.1 r.2).map fun q => (.array q.1, q.2)
    else if type = stringTypeByte then
      (decodeStringWithLength p).map fun r => (.string r.1, r.2)
    else if type = dateTypeByte then (decodeDouble p).map fun r => (.date r.1, r.2)
    else if type = numberTypeByte then (decodeDouble p).map fun r => (.number r.1, r.2)
    else none

def decodeIDBKey (p : Bytes) : Option (IDBKey × Bytes) := decodeIDBKeyFuel (p.length + 1) p

/-- Skips one encoded key; unknown type bytes are one byte long here. -/
def skipIDBKeyFuel : ℕ → Reader Unit
  | 0, _ => none
  | _, [] => none
  | fuel + 1, type :: p =>
    if type = nullTypeByte ∨ type = minKeyTypeByte then some ((), p)
    else if type = arrayTypeByte then
      (decodeLength p).bind fun r =>
        (readMany (skipIDBKeyFuel fuel) r.1 r.2).map fun q => ((), q.2)
    else if type = stringTypeByte then
      (decodeLength p).bind fun r =>
        if r.2.length < r.1 * 2 then none else some ((), r.2.drop (r.1 * 2))
    else if type = dateTypeByte ∨ type = numberTypeByte then
      if p.length < 8 then none else some ((), p.drop 8)
    else some ((), p)

/-- The skipped bytes, copied out, and the bytes after them. -/
def extractEncodedIDBKey (start : Bytes) : Option (Bytes × Bytes) :=
  (skipIDBKeyFuel (start.length + 1) start).map fun r =>
    (start.take (start.length - r.2.length), r.2)

/-! ### What is written is read back -/

theorem shiftLeft64_of_lt {x shift : ℕ} (h : x*2^shift < 2^63) (hs : shift < 64) :
    shiftLeft64 x shift = 2^shift*x := by
  rw [shiftLeft64,if_pos hs,Nat.mod_eq_of_lt (by omega),Nat.mul_comm]

/-- Bits below the shift are disjoint from the shifted group. -/
theorem or_shiftLeft64 {found x shift : ℕ} (hf : found < 2^shift)
    (h : x*2^shift < 2^63) (hs : shift < 64) :
    found ||| shiftLeft64 x shift = found+2^shift*x := by
  rw [shiftLeft64_of_lt h hs,Nat.or_comm,← Nat.two_pow_add_eq_or_of_lt hf,Nat.add_comm]

/-- The loop invariant: `found` holds the groups read so far, below `2^shift`. -/
theorem decodeVarIntLoop_encode (i n found shift : ℕ) (s : Bytes) (hi : n < 128^i)
    (hf : found < 2^shift) (hn : n*2^shift < 2^63) (hs : shift < 64) (h0 : 0 < i) :
    decodeVarIntLoop found shift (encodeVarIntLoop i n++s) = some (found+2^shift*n,s) := by
  induction i generalizing n found shift with
  | zero => omega
  | succ i ih =>
    have hl : n % 128*2^shift < 2^63 :=
      lt_of_le_of_lt (Nat.mul_le_mul_right _ (Nat.mod_le n 128)) hn
    unfold encodeVarIntLoop
    by_cases hq : n / 128 ≠ 0
    · rw [if_pos hq]
      have hb : (ofNat (n % 128+128)).toNat = n % 128+128 := by
        rw [toNat_ofNat']
        omega
      obtain ⟨hr,hnext,hshift,hfound,hsum⟩ := next_digit (b := 128) (k := 7) rfl hi hf hn hq
      have hi' : 0 < i := Nat.pos_of_ne_zero fun hz => by
        subst hz
        omega
      simp only [cons_append,decodeVarIntLoop,hb]
      rw [if_pos (by omega),show (n % 128+128) % 128 = n % 128 by omega,
        or_shiftLeft64 hf hl hs,ih _ _ _ hr hfound hnext hshift hi',hsum]
    · rw [if_neg hq]
      have hsmall : n < 128 := by omega
      have hb : (ofNat (n % 128)).toNat = n := by
        rw [toNat_ofNat']
        omega
      simp only [cons_append,nil_append,decodeVarIntLoop,hb]
      rw [if_neg (by omega),Nat.mod_eq_of_lt hsmall,or_shiftLeft64 hf hn hs]

theorem decodeVarInt_encodeVarInt {n : ℕ} (hn : n < 2^63) (s : Bytes) :
    decodeVarInt (encodeVarInt n++s) = some ((n : ℤ),s) := by
  unfold decodeVarInt encodeVarInt
  have h10 : n < 128^10 := lt_trans hn (by norm_num)
  rw [decodeVarIntLoop_encode 10 n 0 0 s h10 (by norm_num) (by omega) (by omega) (by omega)]
  simp only [Option.map_some,Nat.zero_add,Nat.pow_zero,Nat.one_mul,toInt64,if_pos hn]

theorem decodeLength_encodeVarInt {n : ℕ} (hn : n < 2^63) (s : Bytes) :
    decodeLength (encodeVarInt n++s) = some (n,s) := by
  rw [decodeLength,decodeVarInt_encodeVarInt hn]
  simp

theorem decodeStringWithLength_encode {s : List UChar} (hs : s.length < 2^32) (t : Bytes) :
    decodeStringWithLength (encodeStringWithLength s++t) = some (s,t) := by
  have hl := encodeString_length s
  unfold decodeStringWithLength encodeStringWithLength
  rw [append_assoc,decodeLength_encodeVarInt (by omega)]
  simp only [Option.bind_some,length_append,hl]
  rw [if_neg (by omega),take_left' hl,drop_left' hl,decodeString_encodeString]

end Readers

end QPlusWeb.IDB
