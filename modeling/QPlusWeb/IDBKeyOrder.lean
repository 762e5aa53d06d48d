import QPlusWeb.IDBKeyReaders

/-!
# The order of encoded keys is the order of keys

`compareEncodedIDBKeys` walks two encodings at once, type byte by type byte,
and never builds a key. Its result on written keys reports the first
difference of the key words, as `IDBKey.compare` does, so the two have the
same sign. When it reports equality both pointers stand behind their keys;
that is what lets the array loop continue.
-/
namespace QPlusWeb.IDB
open FirstDifference List IDBKey

/-- The returned integer, the `ok` flag and the two pointers left behind. -/
structure Comparison where
  result : ℤ
  ok : Bool
  ptrA : Bytes
  ptrB : Bytes
  deriving DecidableEq, Repr

/-- Only the sign of the C function is specified. -/
def memcmp : Bytes → Bytes → ℤ
  | a :: as, b :: bs => if a = b then memcmp as bs else (a.toNat : ℤ) - b.toNat
  | _, _ => 0

def keyTypeByteToKeyType (type : UInt8) : KeyType :=
  if type = nullTypeByte then .invalid
  else if type = arrayTypeByte then .array
  else if type = stringTypeByte then .string
  else if type = dateTypeByte then .date
  else if type = numberTypeByte then .number
  else if type = minKeyTypeByte then .min
  else .invalid

/-- `lenP == lenQ ? 0 : lenP > lenQ ? 1 : -1`. -/
def compareSizes (m n : ℕ) : ℤ := if m < n then -1 else if n < m then 1 else 0

section
variable [WideShift]

def compareEncodedStringsWithLength (p q : Bytes) : Comparison :=
  match decodeLength p, decodeLength q with
  | some (lenP, p), some (lenQ, q) =>
    if p.length < lenP * 2 ∨ q.length < lenQ * 2 then ⟨0, false, p, q⟩
    else
      let lmin := min lenP lenQ
      let x := memcmp (p.take (lmin * 2)) (q.take (lmin * 2))
      ⟨if x ≠ 0 then x else compareSizes lenP lenQ, true, p.drop (lenP * 2), q.drop (lenQ * 2)⟩
  | _, _ => ⟨0, false, p, q⟩

/-- The loop over the common positions of two arrays. -/
def compareMany (compare : Bytes → Bytes → Comparison) : ℕ → Bytes → Bytes → Comparison
  | 0, a, b => ⟨0, true, a, b⟩
  | n + 1, a, b =>
    let r := compare a b
    if r.ok = false ∨ r.result ≠ 0 then r else compareMany compare n r.ptrA r.ptrB

/-- The loop, and the sizes when it finds no difference. -/
def compareSized (compare : Bytes → Bytes → Comparison) (lengthA lengthB : ℕ) (a b : Bytes) :
    Comparison :=
  let r := compareMany compare (min lengthA lengthB) a b
  if r.ok = false ∨ r.result ≠ 0 then r else { r with result := compareSizes lengthA lengthB }

/-- Reading at the limit is excluded by `ASSERT_WITH_SECURITY_IMPLICATION`. -/
def compareEncodedIDBKeysFuel : ℕ → Bytes → Bytes → Comparison
  | fuel + 1, typeA :: a, typeB :: b =>
    let x := compareTypes (keyTypeByteToKeyType typeA) (keyTypeByteToKeyType typeB)
    if x ≠ 0 then ⟨x, true, a, b⟩
    else if typeA = nullTypeByte ∨ typeA = minKeyTypeByte then ⟨0, true, a, b⟩
    else if typeA = arrayTypeByte then
      match decodeLength a, decodeLength b with
      | some (lengthA, a), some (lengthB, b) =>
        compareSized (compareEncodedIDBKeysFuel fuel) lengthA lengthB a b
      | _, _ => ⟨0, false, a, b⟩
    else if typeA = stringTypeByte then compareEncodedStringsWithLength a b
    else if typeA = dateTypeByte ∨ typeA = numberTypeByte then
      match decodeDouble a, decodeDouble b with
      | some (d, a), some (e, b) => ⟨compareDoubles d e, true, a, b⟩
      | _, _ => ⟨0, false, a, b⟩
    else ⟨0, true, a, b⟩
  | _, a, b => ⟨0, false, a, b⟩

/-- The comparison at two pointers into larger keys. -/
def compareEncodedIDBKeysAt (a b : Bytes) : Comparison :=
  compareEncodedIDBKeysFuel (a.length + 1) a b

def compareEncodedIDBKeys (keyA keyB : Bytes) : ℤ × Bool :=
  let r := compareEncodedIDBKeysAt keyA keyB
  (r.result, r.ok)

end

theorem compareSizes_succ (m n : ℕ) : compareSizes (m+1) (n+1) = compareSizes m n := by
  simp only [compareSizes]
  split_ifs <;> omega

theorem compareSized_succ (compare : Bytes → Bytes → Comparison) (m n : ℕ) (a b : Bytes) :
    compareSized compare (m+1) (n+1) a b =
      if (compare a b).ok = false ∨ (compare a b).result ≠ 0 then compare a b
      else compareSized compare m n (compare a b).ptrA (compare a b).ptrB := by
  have hm : min (m+1) (n+1) = min m n+1 := by omega
  unfold compareSized
  rw [hm,compareSizes_succ]
  by_cases h : (compare a b).ok = false ∨ (compare a b).result ≠ 0
  · simp [compareMany,if_pos h]
  · simp [compareMany,if_neg h]

/-- The byte that announces a key of each type. -/
def typeByte : KeyType → UInt8
  | .invalid => nullTypeByte
  | .array => arrayTypeByte
  | .string => stringTypeByte
  | .date => dateTypeByte
  | .number => numberTypeByte
  | .min => minKeyTypeByte

theorem keyTypeByteToKeyType_typeByte (t : KeyType) : keyTypeByteToKeyType (typeByte t) = t := by
  cases t <;> decide

theorem encodeIDBKey_eq_cons (k : IDBKey) : ∃ p, encodeIDBKey k = typeByte k.type::p := by
  cases k <;> exact ⟨_,by rw [encodeIDBKey]; rfl⟩

theorem memcmp_of_ne {x y : ℕ} (hx : x < 256) (hy : y < 256) (hne : x ≠ y) (p q : Bytes) :
    memcmp (UInt8.ofNat x::p) (UInt8.ofNat y::q) = (x : ℤ)-y := by
  have hx' : (UInt8.ofNat x).toNat = x := UInt8.toNat_ofNat_of_lt' hx
  have hy' : (UInt8.ofNat y).toNat = y := UInt8.toNat_ofNat_of_lt' hy
  have hb : UInt8.ofNat x ≠ UInt8.ofNat y := fun h => hne (hx' ▸ hy' ▸ congrArg UInt8.toNat h)
  rw [memcmp,if_neg hb,hx',hy']

/-- Comparing common prefixes and then the lengths compares the strings. -/
theorem memcmp_encodeString_reports (s t : List UChar) : Reports
      (let x := memcmp ((encodeString s).take (min s.length t.length*2))
        ((encodeString t).take (min s.length t.length*2))
       if x ≠ 0 then x else compareSizes s.length t.length)
      (stringWord s) (stringWord t) := by
  induction s generalizing t with
  | nil =>
    cases t with
    | nil => exact Reports.zero _
    | cons b bs =>
      rw [stringWord_cons]
      have hx : compareSizes 0 (b::bs).length = -1 := by simp [compareSizes]
      simp only [length_nil,Nat.zero_min,Nat.zero_mul,take_zero,memcmp,
        ne_eq,not_true_eq_false,if_false,hx]
      exact Reports.of_neg (by decide) (below_of_lt (by omega) _ _)
  | cons a as ih =>
    cases t with
    | nil =>
      rw [stringWord_cons]
      have hx : compareSizes (a::as).length 0 = 1 := by simp [compareSizes]
      simp only [length_nil,Nat.min_zero,Nat.zero_mul,take_zero,memcmp,
        ne_eq,not_true_eq_false,if_false,hx]
      exact Reports.of_pos (by decide) (below_of_lt (by omega) _ _)
    | cons b bs =>
      have ha : a.toNat < 65536 := a.toNat_lt
      have hb : b.toNat < 65536 := b.toNat_lt
      have htake : min (a::as).length (b::bs).length*2 = min as.length bs.length*2+1+1 := by
        simp only [length_cons]
        omega
      have hs : compareSizes (a::as).length (b::bs).length = compareSizes as.length bs.length := by
        simp only [compareSizes,length_cons]
        split_ifs <;> omega
      rw [stringWord_cons,stringWord_cons,htake,hs]
      simp only [encodeString,flatMap_cons,cons_append,nil_append,take_succ_cons]
      -- The high bytes decide unless they agree, and then the low bytes do.
      by_cases hhi : a.toNat / 256 = b.toNat / 256
      · rw [hhi,memcmp,if_pos rfl]
        by_cases hlo : a.toNat % 256 = b.toNat % 256
        · have hab : a.toNat = b.toNat := by omega
          rw [hlo,memcmp,if_pos rfl,hab]
          exact (ih bs).prepend [_]
        · rw [memcmp_of_ne (by omega) (by omega) hlo,if_pos (by omega)]
          exact .cons_of_ne (by omega) (by omega) (by omega) _ _
      · rw [memcmp_of_ne (by omega) (by omega) hhi,if_pos (by omega)]
        exact .cons_of_ne (by omega) (by omega) (by omega) _ _

/-- A comparison that worked, reports the two words, and on equality has moved
both pointers to the given places. -/
structure Comparison.Right (c : Comparison) (r s : List ℤ) (a b : Bytes) : Prop where
  ok : c.ok = true
  reports : Reports c.result r s
  pointers : c.result = 0 → c.ptrA = a ∧ c.ptrB = b

/-- Elements are compared one by one until one pair differs. -/
theorem compareSized_right (compare : Bytes → Bytes → Comparison) {as bs : List IDBKey}
    (h : ∀ a ∈ as, ∀ b ∈ bs, ∀ s t, (compare (encodeIDBKey a++s)
      (encodeIDBKey b++t)).Right a.word b.word s t) (s t : Bytes) :
    (compareSized compare as.length bs.length (encodeIDBKeys as++s)
      (encodeIDBKeys bs++t)).Right (wordArray as) (wordArray bs) s t := by
  induction as generalizing bs with
  | nil =>
    cases bs with
    | nil =>
      exact ⟨rfl,Reports.zero _,fun _ => ⟨rfl,rfl⟩⟩
    | cons b bs =>
      obtain ⟨w,hw⟩ := word_eq_cons b
      have hc : compareSized compare 0 (b::bs).length (encodeIDBKeys []++s)
          (encodeIDBKeys (b::bs)++t) = ⟨-1,true,s,encodeIDBKeys (b::bs)++t⟩ := by
        simp [compareSized,compareMany,compareSizes,encodeIDBKeys]
      rw [length_nil,hc]
      simp only [wordArray,hw]
      exact ⟨rfl,Reports.of_neg (by simp) (below_of_lt (rank_pos _) _ _),
        fun h0 => absurd h0 (by simp)⟩
  | cons a as ih =>
    cases bs with
    | nil =>
      obtain ⟨w,hw⟩ := word_eq_cons a
      have hc : compareSized compare (a::as).length 0 (encodeIDBKeys (a::as)++s)
          (encodeIDBKeys []++t) = ⟨1,true,encodeIDBKeys (a::as)++s,t⟩ := by
        simp [compareSized,compareMany,compareSizes,encodeIDBKeys]
      rw [length_nil,hc]
      simp only [wordArray,hw]
      exact ⟨rfl,Reports.of_pos (by simp) (below_of_lt (rank_pos _) _ _),
        fun h0 => absurd h0 (by simp)⟩
    | cons b bs =>
      have hh := h a mem_cons_self b mem_cons_self (encodeIDBKeys as++s) (encodeIDBKeys bs++t)
      have htail := ih fun x hx y hy =>
        h x (mem_cons_of_mem a hx) y (mem_cons_of_mem b hy)
      rw [length_cons,length_cons,compareSized_succ]
      simp only [encodeIDBKeys,append_assoc,wordArray]
      split_ifs with hx
      · have hne := hx.resolve_left (by simp [hh.ok])
        exact ⟨hh.ok,hh.reports.append_of_ne hne _ _,fun h0 => absurd h0 hne⟩
      · have h0 : (compare (encodeIDBKey a++(encodeIDBKeys as++s))
            (encodeIDBKey b++(encodeIDBKeys bs++t))).result = 0 := by tauto
        have heq : a.word = b.word := (h0 ▸ hh.reports).eq_of_zero
        rw [(hh.pointers h0).1,(hh.pointers h0).2,heq]
        exact ⟨htail.ok,htail.reports.prepend _,htail.pointers⟩

section
variable [WideShift]

theorem compareEncodedStringsWithLength_right {s t : List UChar} (hs : s.length < 2^32)
    (ht : t.length < 2^32) (a b : Bytes) :
    (compareEncodedStringsWithLength (encodeStringWithLength s++a)
      (encodeStringWithLength t++b)).Right (stringWord s) (stringWord t) a b := by
  have hls := encodeString_length s
  have hlt := encodeString_length t
  unfold compareEncodedStringsWithLength encodeStringWithLength
  rw [append_assoc,append_assoc,decodeLength_encodeVarInt (by omega),
    decodeLength_encodeVarInt (by omega)]
  simp only [length_append,hls,hlt]
  rw [if_neg (by omega)]
  constructor
  · rfl
  · have htake : ∀ (u : List UChar) (c : Bytes), min s.length t.length ≤ u.length →
        (encodeString u++c).take (min s.length t.length*2) =
          (encodeString u).take (min s.length t.length*2) := by
      intro u c hu
      apply take_append_of_le_length
      rw [encodeString_length]
      omega
    simp only [htake s a (by omega),htake t b (by omega)]
    exact memcmp_encodeString_reports s t
  · intro _
    exact ⟨drop_left' hls,drop_left' hlt⟩

theorem compareEncoded_right_of_typeByte_ne (fuel : ℕ) {t u : KeyType} (h : t ≠ u) (p q : Bytes)
    (v w : List ℤ) (a b : Bytes) :
    (compareEncodedIDBKeysFuel (fuel+1) (typeByte t::p) (typeByte u::q)).Right
      (rank t::v) (rank u::w) a b := by
  have hv : t.value ≠ u.value := fun hv => h (type_value_injective hv)
  have hx : compareTypes t u ≠ 0 := by
    unfold compareTypes
    omega
  simp only [compareEncodedIDBKeysFuel,keyTypeByteToKeyType_typeByte,if_pos hx]
  refine ⟨rfl,.cons_of_ne hx ?_ ?_ _ _,fun h0 => absurd h0 hx⟩ <;>
  · unfold compareTypes rank
    omega

theorem compareEncoded_right_of_type_ne (fuel : ℕ) {a b : IDBKey} (h : a.type ≠ b.type)
    (s t : Bytes) :
    (compareEncodedIDBKeysFuel (fuel+1) (encodeIDBKey a++s) (encodeIDBKey b++t)).Right
      a.word b.word s t := by
  obtain ⟨p,hp⟩ := encodeIDBKey_eq_cons a
  obtain ⟨q,hq⟩ := encodeIDBKey_eq_cons b
  obtain ⟨v,hv⟩ := word_eq_cons a
  obtain ⟨w,hw⟩ := word_eq_cons b
  rw [hp,hq,hv,hw]
  exact compareEncoded_right_of_typeByte_ne fuel h _ _ v w s t

/-- The walk over two encodings, for all keys at once. -/
theorem compareEncodedIDBKeysFuel_right (a b : IDBKey) (ha : a.Fits) (hb : b.Fits)
    (na : a.NoNaN) (nb : b.NoNaN) (fuel : ℕ) (hf : (encodeIDBKey a).length ≤ fuel)
    (s t : Bytes) :
    (compareEncodedIDBKeysFuel fuel (encodeIDBKey a++s) (encodeIDBKey b++t)).Right
      a.word b.word s t := by
  induction a, b using pair_induct generalizing fuel s t with
  | ne a b h =>
    obtain ⟨fuel,rfl⟩ := exists_fuel hf
    exact compareEncoded_right_of_type_ne fuel h s t
  | array as bs ih =>
    obtain ⟨fuel,rfl⟩ := exists_fuel hf
    simp only [IDBKey.Fits,IDBKey.NoNaN] at ha hb na nb
    have hm := compareSized_right (compareEncodedIDBKeysFuel fuel) (fun x hx y hy =>
      ih x hx y (ha.2.of_mem hx) (hb.2.of_mem hy) (na.of_mem hx) (nb.of_mem hy) fuel
        (by have := length_encodeIDBKey_of_mem hx; omega)) s t
    simp only [encodeIDBKey,encodeByte,cons_append,nil_append,
      append_assoc,compareEncodedIDBKeysFuel,word]
    rw [if_neg (by decide),if_neg (by decide),if_true,
      decodeLength_encodeVarInt (by omega),decodeLength_encodeVarInt (by omega)]
    exact ⟨hm.ok,hm.reports.prepend [_],hm.pointers⟩
  | invalid =>
    obtain ⟨fuel,rfl⟩ := exists_fuel hf
    exact ⟨rfl,Reports.zero _,fun _ => ⟨rfl,rfl⟩⟩
  | string u v =>
    obtain ⟨fuel,rfl⟩ := exists_fuel hf
    have hs := compareEncodedStringsWithLength_right ha hb s t
    exact ⟨hs.ok,hs.reports.prepend [_],hs.pointers⟩
  | date d e | number d e =>
    obtain ⟨fuel,rfl⟩ := exists_fuel hf
    simp only [encodeIDBKey,encodeByte,cons_append,nil_append,
      compareEncodedIDBKeysFuel,word,decodeDouble_encodeDouble]
    exact ⟨rfl,(compareDoubles_reports na nb).prepend [_],fun _ => ⟨rfl,rfl⟩⟩

theorem compareEncodedIDBKeysAt_right {a b : IDBKey} (ha : a.Fits) (hb : b.Fits)
    (na : a.NoNaN) (nb : b.NoNaN) (s t : Bytes) :
    (compareEncodedIDBKeysAt (encodeIDBKey a++s) (encodeIDBKey b++t)).Right a.word b.word s t :=
  compareEncodedIDBKeysFuel_right a b ha hb na nb _ (by simp; omega) s t

/-- Comparing the encodings of two keys works and has the sign of comparing the
keys themselves. -/
theorem compareEncodedIDBKeys_sign (a b : IDBKey) (ha : a.Fits) (hb : b.Fits)
    (na : a.NoNaN) (nb : b.NoNaN) :
    (compareEncodedIDBKeys (encodeIDBKey a) (encodeIDBKey b)).2 = true ∧
      (compareEncodedIDBKeys (encodeIDBKey a) (encodeIDBKey b)).1.sign = (a.compare b).sign := by
  have h := compareEncodedIDBKeysAt_right ha hb na nb [] []
  rw [append_nil,append_nil] at h
  exact ⟨h.ok,h.reports.sign_eq (compare_reports a b na nb)⟩

end

/-- `[1, "a"]` against the number one. -/
theorem compareEncodedIDBKeys_sign_sampleKey :
    (@compareEncodedIDBKeys droppedBits (encodeIDBKey sampleKey)
        (encodeIDBKey (.number ⟨0x3ff0000000000000⟩))).1.sign =
      (sampleKey.compare (.number ⟨0x3ff0000000000000⟩)).sign := by
  have hf : sampleKey.Fits := by simp [sampleKey,IDBKey.Fits,IDBKey.AllFit]
  have hn : sampleKey.NoNaN := by
    simp only [sampleKey,IDBKey.NoNaN,IDBKey.AllNoNaN,and_true]
    decide
  exact (@compareEncodedIDBKeys_sign droppedBits sampleKey (.number ⟨0x3ff0000000000000⟩)
    hf (by simp [IDBKey.Fits]) hn (by simp only [IDBKey.NoNaN]; decide)).2

end QPlusWeb.IDB
