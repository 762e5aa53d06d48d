import QPlusWeb.BackingStoreKeys

/-!
# Reading the keys of the backing store

The prefix of every key that can be written is read back with its three ids,
whatever follows it, and each parsed key class reads back its own fields.
-/
namespace QPlusWeb.IDB
open List

/-! ### Prefixes -/

theorem encodeIntLoop_length_pos (i n : ℕ) : 0 < (encodeIntLoop (i+1) n).length := by
  unfold encodeIntLoop
  split <;> simp

theorem encodeIntLoop_length_le (i k n : ℕ) (hk : 0 < k) (hn : n < 256^k) :
    (encodeIntLoop i n).length ≤ k := by
  induction i generalizing k n with
  | zero => simp [encodeIntLoop]
  | succ i ih =>
    unfold encodeIntLoop
    split
    next hq =>
      have hk' : 1 < k := by
        by_contra hle
        obtain rfl : k = 1 := by omega
        omega
      have hr : n / 256 < 256^(k-1) := by
        rw [Nat.div_lt_iff_lt_mul (by omega),← Nat.pow_succ]
        rwa [show (k-1).succ = k by omega]
      have := ih (k-1) (n / 256) (by omega) hr
      simp only [length_cons]
      omega
    next => simp only [length_singleton]; omega

theorem firstByte_sizes : ∀ a < 8, ∀ b < 8, ∀ c < 4,
    (UInt8.ofNat (a <<< 5 ||| b <<< 2 ||| c)).toNat >>> 5 % 8 = a ∧
      (UInt8.ofNat (a <<< 5 ||| b <<< 2 ||| c)).toNat >>> 2 % 8 = b ∧
      (UInt8.ofNat (a <<< 5 ||| b <<< 2 ||| c)).toNat % 4 = c := by
  decide

section
variable [WideShift]

/-- `ret` holds the bytes read so far, below `2^shift`. -/
theorem decodeIntLoop_encode (i n ret shift : ℕ) (hi : n < 256^i) (hr : ret < 2^shift)
    (hn : n*2^shift < 2^63) (hs : shift < 64) :
    decodeIntLoop ret shift (encodeIntLoop i n) = ret+2^shift*n := by
  induction i generalizing n ret shift with
  | zero =>
    obtain rfl : n = 0 := by simpa using hi
    rfl
  | succ i ih =>
    have hl : n % 256*2^shift < 2^63 :=
      lt_of_le_of_lt (Nat.mul_le_mul_right _ (Nat.mod_le n 256)) hn
    have hb : (UInt8.ofNat (n % 256)).toNat = n % 256 := by
      rw [UInt8.toNat_ofNat']
      omega
    unfold encodeIntLoop
    split
    next hq =>
      obtain ⟨hrest,hnext,hshift,hret,hsum⟩ := next_digit (b := 256) (k := 8) rfl hi hr hn hq
      simp only [decodeIntLoop,hb]
      rw [or_shiftLeft64 hr hl hs,ih _ _ _ hrest hret hnext hshift,hsum]
    next hq =>
      have hsmall : n % 256 = n := by omega
      simp only [decodeIntLoop,hb]
      rw [hsmall,or_shiftLeft64 hr hn hs]

theorem decodeInt_encodeInt {n : ℕ} (hn : n < 2^63) : decodeInt (encodeInt n) = n := by
  unfold decodeInt encodeInt
  have h8 : n < 256^8 := lt_trans hn (by norm_num)
  rw [decodeIntLoop_encode 8 n 0 0 h8 (by norm_num) (by omega) (by omega)]
  simp only [Nat.zero_add,Nat.pow_zero,Nat.one_mul,toInt64,if_pos hn]

theorem KeyPrefix.decode_encodeInternal {d o i : ℕ} (hd : d < 2^63) (ho : o < 2^63)
    (hi : i < 2^31) (s : Bytes) :
    KeyPrefix.decode (KeyPrefix.encodeInternal d o i++s) = some (⟨d,o,i⟩,s) := by
  have hd₁ : 0 < (encodeInt d).length := encodeIntLoop_length_pos 7 d
  have ho₁ : 0 < (encodeInt o).length := encodeIntLoop_length_pos 7 o
  have hi₁ : 0 < (encodeInt i).length := encodeIntLoop_length_pos 7 i
  have hd₂ : (encodeInt d).length ≤ 8 := encodeIntLoop_length_le 8 8 d (by omega) (by omega)
  have ho₂ : (encodeInt o).length ≤ 8 := encodeIntLoop_length_le 8 8 o (by omega) (by omega)
  have hi₂ : (encodeInt i).length ≤ 4 := encodeIntLoop_length_le 8 4 i (by omega) (by omega)
  obtain ⟨h₁,h₂,h₃⟩ := firstByte_sizes ((encodeInt d).length-1) (by omega)
    ((encodeInt o).length-1) (by omega) ((encodeInt i).length-1) (by omega)
  simp only [KeyPrefix.encodeInternal,cons_append,append_assoc,KeyPrefix.decode,
    h₁,h₂,h₃,Nat.sub_add_cancel hd₁,Nat.sub_add_cancel ho₁,Nat.sub_add_cancel hi₁,
    length_append]
  rw [if_neg (by omega),take_left' rfl,drop_left' rfl,take_left' rfl,
    drop_left' rfl,take_left' rfl,drop_left' rfl,decodeInt_encodeInt hd,
    decodeInt_encodeInt ho,decodeInt_encodeInt (by omega)]

end

/-! ### Reading the fields back -/

theorem encodeVarInt_ne_nil (n : ℕ) : encodeVarInt n ≠ [] := by
  unfold encodeVarInt encodeVarIntLoop
  split <;> simp

theorem notAtLimit_of_ne_nil {p : Bytes} (h : p ≠ []) : notAtLimit p = some p := by
  cases p with
  | nil => exact absurd rfl h
  | cons c p => rfl

@[simp] theorem notAtLimit_encodeVarInt (n : ℕ) (s : Bytes) :
    notAtLimit (encodeVarInt n++s) = some (encodeVarInt n++s) := by
  apply notAtLimit_of_ne_nil
  simp [encodeVarInt_ne_nil]

@[simp] theorem notAtLimit_encodeStringWithLength (u : List UChar) (s : Bytes) :
    notAtLimit (encodeStringWithLength u++s) = some (encodeStringWithLength u++s) := by
  unfold encodeStringWithLength
  rw [append_assoc]
  exact notAtLimit_encodeVarInt _ _

theorem KeyPrefix.encodeEmpty_eq : KeyPrefix.encodeEmpty = KeyPrefix.encodeInternal 0 0 0 := by
  decide

theorem DatabaseId.lt (d : DatabaseId) : d.val < 2^63 := by
  have h := d.2.2
  unfold KeyPrefix.maxDatabaseId at h
  omega

theorem ObjectStoreId.lt (o : ObjectStoreId) : o.val < 2^63 := by
  have h := o.2.2
  unfold KeyPrefix.maxObjectStoreId at h
  omega

theorem IndexId.lt (i : IndexId) : i.val < 2^31 := by
  have h := i.2.2
  unfold KeyPrefix.maxIndexId at h
  omega

section
variable [WideShift]

theorem decodeTypeByte_encodeInternal {d : ℕ} (hd : d < 2^63) (c : UInt8) (p : Bytes) :
    decodeTypeByte (KeyPrefix.encodeInternal d 0 0++(encodeByte c++p)) = some p := by
  unfold decodeTypeByte
  rw [KeyPrefix.decode_encodeInternal hd (by omega) (by omega)]
  rfl

theorem decodeVarInt_encodeVarInt_end {n : ℕ} (hn : n < 2^63) :
    decodeVarInt (encodeVarInt n) = some ((n : ℤ),[]) := by
  simpa using decodeVarInt_encodeVarInt hn []

theorem decodeStringWithLength_encode_end {s : List UChar} (hs : s.length < 2^32) :
    decodeStringWithLength (encodeStringWithLength s) = some (s,[]) := by
  simpa using decodeStringWithLength_encode hs []

theorem DatabaseFreeListKey.decode_encode (n : VarInt) :
    DatabaseFreeListKey.decode (DatabaseFreeListKey.encode n) = some (⟨n⟩,[]) := by
  unfold DatabaseFreeListKey.decode DatabaseFreeListKey.encode
  rw [KeyPrefix.encodeEmpty_eq,decodeTypeByte_encodeInternal (by omega)]
  simp [notAtLimit_of_ne_nil (encodeVarInt_ne_nil n),decodeVarInt_encodeVarInt_end n.2]

theorem DatabaseNameKey.decode_encode (origin name : Text) :
    DatabaseNameKey.decode (DatabaseNameKey.encode origin name) = some (⟨origin,name⟩,[]) := by
  unfold DatabaseNameKey.decode DatabaseNameKey.encode
  rw [KeyPrefix.encodeEmpty_eq,decodeTypeByte_encodeInternal (by omega)]
  simp [decodeStringWithLength_encode origin.2,decodeStringWithLength_encode_end name.2]

section
variable (d : DatabaseId)
include d

theorem decodeTypeByte_encode (c : UInt8) (p : Bytes) :
    decodeTypeByte (KeyPrefix.encode ⟨(d.val : ℤ),0,0⟩++(encodeByte c++p)) = some p :=
  decodeTypeByte_encodeInternal (DatabaseId.lt d) c p

theorem ObjectStoreMetaDataKey.decode_encode (o : VarInt) (t : UInt8) :
    ObjectStoreMetaDataKey.decode (ObjectStoreMetaDataKey.encode d o t) = some (⟨o,t⟩,[]) := by
  unfold ObjectStoreMetaDataKey.decode ObjectStoreMetaDataKey.encode
  rw [decodeTypeByte_encode]
  simp [decodeVarInt_encodeVarInt o.2,encodeByte,decodeByte]

theorem IndexMetaDataKey.decode_encode (o i : VarInt) (t : UInt8) :
    IndexMetaDataKey.decode (IndexMetaDataKey.encode d o i t) = some (⟨o,i,t⟩,[]) := by
  unfold IndexMetaDataKey.decode IndexMetaDataKey.encode
  rw [decodeTypeByte_encode]
  simp [decodeVarInt_encodeVarInt o.2,decodeVarInt_encodeVarInt i.2,encodeByte,decodeByte]

theorem ObjectStoreFreeListKey.decode_encode (o : VarInt) :
    ObjectStoreFreeListKey.decode (ObjectStoreFreeListKey.encode d o) = some (⟨o⟩,[]) := by
  unfold ObjectStoreFreeListKey.decode ObjectStoreFreeListKey.encode
  rw [decodeTypeByte_encode]
  simp [notAtLimit_of_ne_nil (encodeVarInt_ne_nil o),decodeVarInt_encodeVarInt_end o.2]

theorem IndexFreeListKey.decode_encode (o i : VarInt) :
    IndexFreeListKey.decode (IndexFreeListKey.encode d o i) = some (⟨o,i⟩,[]) := by
  unfold IndexFreeListKey.decode IndexFreeListKey.encode
  rw [decodeTypeByte_encode]
  simp [decodeVarInt_encodeVarInt o.2,decodeVarInt_encodeVarInt_end i.2]

theorem ObjectStoreNamesKey.decode_encode (name : Text) :
    ObjectStoreNamesKey.decode (ObjectStoreNamesKey.encode d name) = some (⟨name⟩,[]) := by
  unfold ObjectStoreNamesKey.decode ObjectStoreNamesKey.encode
  rw [decodeTypeByte_encode]
  simp [decodeStringWithLength_encode_end name.2]

theorem IndexNamesKey.decode_encode (o : VarInt) (name : Text) :
    IndexNamesKey.decode (IndexNamesKey.encode d o name) = some (⟨o,name⟩,[]) := by
  unfold IndexNamesKey.decode IndexNamesKey.encode
  rw [decodeTypeByte_encode]
  simp [decodeVarInt_encodeVarInt o.2,decodeStringWithLength_encode_end name.2]

end

end

end QPlusWeb.IDB
