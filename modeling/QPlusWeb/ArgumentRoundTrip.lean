import QPlusWeb.ArgumentDecoder
import QPlusWeb.ArgumentEncoder

/-!
# Arguments are read back

The encoder aligns offsets into its buffer and the decoder aligns addresses.  In a copy of the buffer
whose address is aligned, the decoder stands where the encoder has been before each object, and
behind the last one it stands at the end.
-/

namespace QPlusWeb.IPC

open ObjectLayout ArgumentEncoder ArgumentDecoder List

/-- The memory of the decoder is aligned and does not reach the end of the address space. -/
structure Copied (base : ℕ) (bytes : List UInt8) : Prop where
  aligned : 8 ∣ base
  space : base + bytes.length + 8 ≤ 2 ^ 64

/-- The decoder stands where the encoder is. -/
def decoderAt (base : ℕ) (bytes : List UInt8) (e : ArgumentEncoder) : ArgumentDecoder :=
  ⟨base, bytes, base + e.bufferSize⟩

/-- From a copy of what is encoded an object with the property `P` is decoded. -/
def ReadsBack {α : Type} (encode : ArgumentEncoder → ArgumentEncoder)
    (decode : ArgumentDecoder → α → Except Fault (Outcome α)) (P : α → Prop) : Prop :=
  ∀ e, e.buffer <+: (encode e).buffer ∧
    ∀ base bytes destination, Copied base bytes → (encode e).buffer <+: bytes →
      ∃ object, P object ∧ decode (decoderAt base bytes e) destination =
        .ok ⟨true, decoderAt base bytes (encode e), object⟩

section
variable {α β : Type} {encode encode' : ArgumentEncoder → ArgumentEncoder}
  {decode : ArgumentDecoder → α → Except Fault (Outcome α)} {P P' : α → Prop} {Q : β → Prop} {a : α}

theorem readsBack_return (h : P a) : ReadsBack (fun e => e) (fun d _ => return ⟨true,d,a⟩) P :=
  fun _ => ⟨prefix_rfl,fun _ _ _ _ _ => ⟨a,h,rfl⟩⟩

section
variable (h : ReadsBack encode decode P)
include h

theorem ReadsBack.mono (hP : ∀ a, P a → P' a) : ReadsBack encode decode P' := by
  intro e
  refine ⟨(h e).1,fun base bytes destination hcopied hb => ?_⟩
  obtain ⟨object,ho,hd⟩ := (h e).2 base bytes destination hcopied hb
  exact ⟨object,hP object ho,hd⟩

theorem ReadsBack.congr {decode' : ArgumentDecoder → α → Except Fault (Outcome α)}
    (hd : ∀ {base bytes e}, Copied base bytes → (encode e).buffer <+: bytes →
      decode' (decoderAt base bytes e) = decode (decoderAt base bytes e)) :
    ReadsBack encode decode' P := by
  refine fun e => ⟨(h e).1,fun base bytes destination hcopied hb => ?_⟩
  rw [hd hcopied hb]
  exact (h e).2 base bytes destination hcopied hb

theorem ReadsBack.andThen {next : α → ArgumentDecoder → β → Except Fault (Outcome β)} (ha : P a)
    (hn : ∀ a, P a → ReadsBack encode' (next a) Q) (initial : α) :
    ReadsBack (fun e => encode' (encode e))
      (fun d destination => decodeThen decode initial d destination fun a d =>
        next a d destination) Q := by
  intro e
  have hg : (encode e).buffer <+: (encode' (encode e)).buffer := (hn a ha (encode e)).1
  refine ⟨(h e).1.trans hg,fun base bytes destination hcopied hbs => ?_⟩
  obtain ⟨a,ha,hf⟩ := (h e).2 base bytes initial hcopied (hg.trans hbs)
  obtain ⟨b,hb,hs⟩ := (hn a ha (encode e)).2 base bytes destination hcopied hbs
  refine ⟨b,hb,?_⟩
  simp only [decodeThen,hf]
  exact hs

theorem ReadsBack.andReturn {f : α → β} (ha : P a) (hf : ∀ a, P a → Q (f a)) (initial : α) :
    ReadsBack encode (fun d destination => decodeThen decode initial d destination fun a d =>
        return ⟨true,d,f a⟩) Q :=
  h.andThen ha (fun a ha => readsBack_return (hf a ha)) initial

end

end

/-! ### Data of a fixed length -/

section
variable {α : Type} {base n : ℕ} {bytes data : List UInt8} {e : ArgumentEncoder} {s : Arithmetic}
  {P : α → Prop}

theorem prefix_encodeFixedLengthData (data : List UInt8) (e : ArgumentEncoder) :
    e.buffer <+: (encodeFixedLengthData data s.size e).buffer := by
  obtain ⟨padding,-,hb⟩ := buffer_encodeFixedLengthData s.size_pos data e
  rw [hb,append_assoc]
  exact prefix_append _ _

/-- Addresses and offsets are rounded up alike. -/
theorem roundUpAddress_decoderAt (hcopied : Copied base bytes) (he : e.bufferSize ≤ bytes.length) :
    roundUpAddress (base+e.bufferSize) s.size = base+roundUp e.bufferSize s.size := by
  obtain ⟨k,hk,hs⟩ := s.size_eq_two_pow
  have hspace := hcopied.space
  have hle : 2^k ≤ 2^3 := Nat.pow_le_pow_right (by decide) hk
  have hd : 2^k ∣ base := (Nat.pow_dvd_pow 2 hk).trans hcopied.aligned
  rw [hs,roundUpAddress_eq (by omega) (by omega),roundUp_add (Nat.two_pow_pos k) hd]

/-- The decoder finds the data at the position that it aligns. -/
theorem read_decoderAt (hcopied : Copied base bytes)
    (hb : (encodeFixedLengthData data s.size e).buffer <+: bytes) :
    (decoderAt base bytes e).alignBufferPosition s.size data.length =
        (true,⟨base,bytes,base+roundUp e.bufferSize s.size⟩) ∧
      ArgumentDecoder.readBytes ⟨base,bytes,base+roundUp e.bufferSize s.size⟩ data.length =
        .ok (data,decoderAt base bytes (encodeFixedLengthData data s.size e)) := by
  have hs := bufferSize_encodeFixedLengthData s.size_pos data e
  have hle : e.bufferSize ≤ roundUp e.bufferSize s.size := le_roundUp s.size_pos
  have hl := hb.length_le
  rw [← bufferSize,hs] at hl
  obtain ⟨padding,hp,hbuf⟩ := buffer_encodeFixedLengthData s.size_pos data e
  obtain ⟨rest,rfl⟩ := hb
  constructor
  · rw [alignBufferPosition,decoderAt,roundUpAddress_decoderAt hcopied (by omega)]
    refine if_pos (alignedBufferIsLargeEnoughToContain_iff.mpr ?_)
    simp only [bufferEnd]
    omega
  · have hskip : (e.buffer++padding).length = roundUp e.bufferSize s.size := by
      rw [length_append,hp]
      exact Nat.add_sub_of_le hle
    rw [readBytes,if_pos (by simp only [bufferEnd]; omega),decoderAt,hs,Nat.add_sub_cancel_left,
      hbuf,append_assoc,drop_left' hskip,take_left' rfl,Nat.add_assoc]

theorem readsBack_fixedLengthData (data : List UInt8) :
    ReadsBack (encodeFixedLengthData data s.size) (decodeFixedLengthData data.length s.size)
      (· = data) := by
  intro e
  refine ⟨prefix_encodeFixedLengthData data e,?_⟩
  intro base bytes destination hcopied hb
  obtain ⟨ha,hr⟩ := read_decoderAt hcopied hb
  refine ⟨data,rfl,?_⟩
  simp only [decodeFixedLengthData,ha,if_true,hr]
  rfl

theorem readsBack_arithmetic (s : Arithmetic) (n : s.Object) :
    ReadsBack (encodeArithmetic s n) (decodeArithmetic s) (· = n) := by
  intro e
  rw [encodeArithmetic_eq]
  refine ⟨prefix_encodeFixedLengthData _ e,?_⟩
  intro base bytes destination hcopied hb
  obtain ⟨ha,hr⟩ := read_decoderAt hcopied hb
  rw [s.length_bytes] at ha hr
  refine ⟨n,rfl,?_⟩
  simp only [decodeArithmetic,ha,if_true,hr,bind,Except.bind,s.ofBytes_bytes]
  rfl

section
variable (hcopied : Copied base bytes)
include hcopied

theorem length_le_of_copied
    (hb : (encodeFixedLengthData data s.size e).buffer <+: bytes) : data.length < 2^64 := by
  have hs := hcopied.space
  have hle := hb.length_le
  rw [← bufferSize,bufferSize_encodeFixedLengthData s.size_pos] at hle
  omega

theorem sizeOfElements_of_copied (hl : data.length = n*s.size)
    (hb : (encodeFixedLengthData data s.size e).buffer <+: bytes) :
    sizeOfElements n s.size = .ok data.length := by
  have hlt := length_le_of_copied hcopied hb
  rw [hl] at hlt
  rw [sizeOfElements,if_pos hlt,hl]

theorem bufferIsLargeEnoughToContain_decoderAt (hl : data.length = n*s.size)
    (hb : (encodeFixedLengthData data s.size e).buffer <+: bytes) :
    (decoderAt base bytes e).bufferIsLargeEnoughToContain s n = .ok true := by
  have hlt := length_le_of_copied hcopied hb
  have hc : ¬n > (2^64-1) / s.size := by
    rw [gt_iff_lt,Nat.not_lt,Nat.le_div_iff_mul_le s.size_pos]
    omega
  have hle := hb.length_le
  rw [← bufferSize,bufferSize_encodeFixedLengthData s.size_pos] at hle
  have hp : e.bufferSize ≤ roundUp e.bufferSize s.size := le_roundUp s.size_pos
  have hlarge : alignedBufferIsLargeEnoughToContain
      (roundUpAddress (base+e.bufferSize) s.size) (base+bytes.length) data.length := by
    rw [roundUpAddress_decoderAt hcopied (by omega),alignedBufferIsLargeEnoughToContain_iff]
    omega
  simp only [bufferIsLargeEnoughToContain,if_neg hc,sizeOfElements_of_copied hcopied hl hb]
  exact congrArg Except.ok hlarge

end

theorem readsBack_ifLargeEnough {decode : ArgumentDecoder → α → Except Fault (Outcome α)}
    (hl : data.length = n*s.size)
    (h : ReadsBack (encodeFixedLengthData data s.size) decode P) :
    ReadsBack (encodeFixedLengthData data s.size)
      (fun d destination => ifLargeEnough s n d destination (decode d destination)) P := by
  refine h.congr fun hcopied hb => ?_
  simp only [ifLargeEnough,bufferIsLargeEnoughToContain_decoderAt hcopied hl hb]
  rfl

theorem readsBack_sizeOfElements {next : ℕ → ArgumentDecoder → α → Except Fault (Outcome α)}
    (hl : data.length = n*s.size)
    (h : ReadsBack (encodeFixedLengthData data s.size) (next data.length) P) :
    ReadsBack (encodeFixedLengthData data s.size) (fun d destination => do
      let size ← sizeOfElements n s.size
      next size d destination) P := by
  refine h.congr fun hcopied hb => ?_
  simp only [sizeOfElements_of_copied hcopied hl hb]
  rfl

theorem ReadsBack.arithmeticThen {encode : ArgumentEncoder → ArgumentEncoder}
    {next : s.Object → ArgumentDecoder → α → Except Fault (Outcome α)} {n : s.Object}
    (h : ReadsBack encode (next n) P) (initial : s.Object) :
    ReadsBack (fun e => encode (encodeArithmetic s n e))
      (fun d destination => decodeThen (decodeArithmetic s) initial d destination fun n d =>
        next n d destination) P := by
  refine (readsBack_arithmetic s n).andThen rfl (fun a ha => ?_) initial
  subst ha
  exact h

end

/-! ### Strings and byte arrays -/

section

theorem readsBack_variableLengthByteArray {data : List UInt8} (h : data.length < 2^64) :
    ReadsBack (encodeVariableLengthByteArray data) decodeVariableLengthByteArray (· = data) := by
  refine ReadsBack.arithmeticThen ?_ 0
  rw [UInt64.toNat_ofNat_of_lt' h]
  exact readsBack_fixedLengthData (s := .uint8) data

theorem readsBack_null {α : Type} {P : Option α → Prop} (hnull : P none)
    {next : UInt32 → ArgumentDecoder → Option α → Except Fault (Outcome (Option α))}
    (h : ∀ d destination, next (.ofNat (2^32-1)) d destination = .ok ⟨true,d,none⟩) :
    ReadsBack (encodeArithmetic .uint32 (.ofNat (2^32-1)))
      (fun d destination => decodeThen (decodeArithmetic .uint32) 0 d destination fun n d =>
        next n d destination) P := by
  have hn : ReadsBack (fun e => e) (next (.ofNat (2^32-1))) P := by
    intro e
    exact ⟨prefix_rfl,fun base bytes destination _ _ => ⟨none,hnull,h _ _⟩⟩
  exact ReadsBack.arithmeticThen (s := .uint32) hn 0

theorem readsBack_cString {string : Option (List UInt8)}
    (h : ∀ bytes ∈ string, bytes.length < 2^32-1) :
    ReadsBack (encodeCString string) decodeCString (· = string) := by
  cases string with
  | none =>
    refine readsBack_null (P := fun string => string = none) rfl ?_
    intro d destination
    rfl
  | some bytes =>
    have hlt : bytes.length < 2^32-1 := h bytes rfl
    have hl : (UInt32.ofNat bytes.length).toNat = bytes.length :=
      UInt32.toNat_ofNat_of_lt' (hlt.trans (by decide))
    refine ReadsBack.arithmeticThen ?_ 0
    simp only [hl,if_neg hlt.ne]
    refine readsBack_ifLargeEnough (s := .uint8) (Nat.mul_one _).symm ?_
    refine ReadsBack.andReturn (readsBack_fixedLengthData (s := .uint8) bytes) rfl ?_ []
    intro buffer hb
    rw [hb]

theorem readsBack_stringText (s : Arithmetic) (create : List s.Object → StringImpl)
    (characters : List s.Object) {P : Option StringImpl → Prop}
    (hP : P (some (create characters))) :
    ReadsBack (encodeFixedLengthData (s.arrayBytes characters) s.size)
      (decodeStringText s create characters.length) P := by
  have hl := s.length_arrayBytes characters
  refine readsBack_ifLargeEnough hl (readsBack_sizeOfElements hl ?_)
  refine ReadsBack.andReturn (readsBack_fixedLengthData _) rfl ?_ []
  intro buffer hb
  rw [hb,s.ofArrayBytes_arrayBytes]
  exact hP

theorem readsBack_characters8 (characters : List UInt8) :
    ReadsBack (fun e => encodeFixedLengthData (Arithmetic.uint8.arrayBytes characters)
        Arithmetic.uint8.size (encodeArithmetic .bool true e))
      (decodeCharacters characters.length)
      (fun object => object.map StringImpl.characters =
        some (StringImpl.characters8 characters).characters) := by
  refine ReadsBack.arithmeticThen (s := .bool) ?_ false
  exact readsBack_stringText .uint8 .characters8 characters rfl

theorem readsBack_characters16 (characters : List UInt16) :
    ReadsBack (fun e => encodeFixedLengthData (Arithmetic.uint16.arrayBytes characters)
        Arithmetic.uint16.size (encodeArithmetic .bool false e))
      (decodeCharacters characters.length)
      (fun object => object.map StringImpl.characters =
        some (StringImpl.characters16 characters).characters) := by
  refine ReadsBack.arithmeticThen (s := .bool) ?_ false
  exact readsBack_stringText .uint16 .ofCharacters16 characters
    (congrArg some (StringImpl.characters_ofCharacters16 characters))

/-- A length that is not the one of a null string, and what follows. -/
theorem readsBack_length {P : Option StringImpl → Prop} {n : ℕ} (hn : n < 2^32-1)
    {encode : ArgumentEncoder → ArgumentEncoder} (h : ReadsBack encode (decodeCharacters n) P) :
    ReadsBack (fun e => encode (encodeArithmetic .uint32 (.ofNat n) e)) decodeString P := by
  have hl : (UInt32.ofNat n).toNat = n := UInt32.toNat_ofNat_of_lt' (hn.trans (by decide))
  refine ReadsBack.arithmeticThen (s := .uint32) ?_ 0
  simp only [hl,if_neg hn.ne]
  exact h

theorem readsBack_string {string : Option StringImpl}
    (h : ∀ s ∈ string, s.characters.length < 2^32-1) :
    ReadsBack (encodeString string) decodeString
      (fun object => object.map StringImpl.characters = string.map StringImpl.characters) := by
  cases string with
  | none =>
    refine readsBack_null (P := fun string => string.map StringImpl.characters = none) rfl ?_
    intro d destination
    rfl
  | some string =>
    have hlt : string.characters.length < 2^32-1 := h string rfl
    cases string with
    | characters8 characters =>
      rw [StringImpl.characters,length_map] at hlt
      exact readsBack_length hlt (readsBack_characters8 characters)
    | characters16 characters => exact readsBack_length hlt (readsBack_characters16 characters)

theorem readsBack_atomicString (atoms : AtomTable) {string : Option StringImpl}
    (h : ∀ s ∈ string, s.characters.length < 2^32-1) :
    ReadsBack (encodeString string) (decodeAtomicString atoms)
      (fun object => object.map StringImpl.characters = string.map StringImpl.characters) := by
  refine (readsBack_string h).andReturn rfl ?_ none
  intro object ho
  rw [Option.map_map,← ho]
  congr 1
  exact funext atoms.characters_add

end

/-! ### Containers -/

section
variable {α : Type} {element : ArgumentType}
  {decode : ArgumentDecoder → element.Object → Except Fault (Outcome element.Object)}
  {encode : element.Object → ArgumentEncoder → ArgumentEncoder} {vector : List element.Object}

theorem readsBack_array (s : Arithmetic) (vector : List s.Object) :
    ReadsBack (encodeFixedLengthData (s.arrayBytes vector) s.size) (decodeArray s vector.length)
      (· = vector) := by
  have hl := s.length_arrayBytes vector
  refine readsBack_ifLargeEnough hl (readsBack_sizeOfElements hl ?_)
  intro e
  have hd := readsBack_fixedLengthData (s := s) (s.arrayBytes vector) e
  refine ⟨hd.1,fun base bytes destination hcopied hb => ?_⟩
  obtain ⟨object,rfl,hdec⟩ := hd.2 base bytes [] hcopied hb
  refine ⟨vector,rfl,?_⟩
  simp only [hdec,bind,Except.bind,s.ofArrayBytes_arrayBytes]
  rfl

/-- The loops of a vector: the elements read so far, followed by those that are encoded. -/
theorem readsBack_elements
    (h : ∀ x ∈ vector, ReadsBack (encode x) decode (element.value · = element.value x))
    (initial : element.Object) (tmp : List element.Object) :
    ReadsBack (fun e => vector.foldl (fun e x => encode x e) e)
      (decodeElements decode initial vector.length tmp)
      (fun object => object.map element.value = (tmp++vector).map element.value) := by
  induction vector generalizing tmp with
  | nil => exact readsBack_return (by rw [append_nil])
  | cons x vector ih =>
    have hr : ∀ y, element.value y = element.value x →
        ReadsBack (fun e => vector.foldl (fun e x => encode x e) e)
          (decodeElements decode initial vector.length (tmp++[y]))
          (fun object => object.map element.value = (tmp++x::vector).map element.value) := by
      intro y hy
      refine (ih (forall_mem_cons.mp h).2 (tmp++[y])).mono ?_
      intro object ho
      rw [ho]
      simp [hy]
    exact (h x mem_cons_self).andThen rfl hr initial

theorem readsBack_vectorElements
    (h : ∀ x ∈ vector, ReadsBack (encode x) decode (element.value · = element.value x)) :
    ReadsBack (encodeElements element encode vector)
      (decodeVectorElements element decode vector.length)
      (fun object => object.map element.value = vector.map element.value) := by
  cases element with
  | arithmetic s =>
    refine (readsBack_array s vector).mono fun object ho => ?_
    rw [ho]
  | cString | string | atomicString | dataReference | pair | vector | hashMap =>
    exact readsBack_elements h _ []

theorem readsBack_entries {key mapped : ArgumentType}
    {encodeKey : key.Object → ArgumentEncoder → ArgumentEncoder}
    {encodeMapped : mapped.Object → ArgumentEncoder → ArgumentEncoder}
    {decodeKey : ArgumentDecoder → key.Object → Except Fault (Outcome key.Object)}
    {decodeMapped : ArgumentDecoder → mapped.Object → Except Fault (Outcome mapped.Object)}
    {entries : List (key.Object × mapped.Object)}
    (hkey : ∀ x ∈ entries, ReadsBack (encodeKey x.1) decodeKey (key.value · = key.value x.1))
    (hm : ∀ x ∈ entries,
      ReadsBack (encodeMapped x.2) decodeMapped (mapped.value · = mapped.value x.2))
    (temp : List (key.Object × mapped.Object))
    (hn : ((temp++entries).map fun entry => key.value entry.1).Nodup) :
    ReadsBack (fun e => entries.foldl (fun e x => encodeMapped x.2 (encodeKey x.1 e)) e)
      (decodeEntries key mapped decodeKey decodeMapped entries.length temp)
      (fun object => object.map (fun entry => (key.value entry.1,mapped.value entry.2)) =
        (temp++entries).map fun entry => (key.value entry.1,mapped.value entry.2)) := by
  induction entries generalizing temp with
  | nil => exact readsBack_return (by rw [append_nil])
  | cons x entries ih =>
    have hnew : key.value x.1 ∉ temp.map fun entry => key.value entry.1 := by
      rw [map_append,map_cons] at hn
      exact fun hmem => (nodup_append.mp hn).2.2 _ hmem _ mem_cons_self rfl
    have hr : ∀ k, key.value k = key.value x.1 → ∀ v, mapped.value v = mapped.value x.2 →
        ReadsBack (fun e => entries.foldl (fun e x => encodeMapped x.2 (encodeKey x.1 e)) e)
          (fun d hashMap =>
            if key.value k ∈ temp.map fun entry => key.value entry.1 then
              return ⟨false,d.markInvalid,hashMap⟩
            else
              decodeEntries key mapped decodeKey decodeMapped entries.length (temp++[(k,v)]) d
                hashMap)
          (fun object => object.map (fun entry => (key.value entry.1,mapped.value entry.2)) =
            (temp++x::entries).map fun entry =>
              (key.value entry.1,mapped.value entry.2)) := by
      intro k hk v hv
      simp only [hk,if_neg hnew]
      have hkeys : ((temp++[(k,v)]++entries).map fun entry => key.value entry.1) =
          (temp++x::entries).map fun entry => key.value entry.1 := by
        simp [hk]
      refine (ih (forall_mem_cons.mp hkey).2 (forall_mem_cons.mp hm).2 (temp++[(k,v)]) ?_).mono ?_
      · rw [hkeys]
        exact hn
      · intro object ho
        rw [ho]
        simp [hk,hv]
    exact (hkey x mem_cons_self).andThen rfl
      (fun k hk => (hm x mem_cons_self).andThen rfl (hr k hk) mapped.default)
      key.default

end

/-! ### Arguments -/

section
variable (atoms : AtomTable)

theorem readsBack_size {α : Type} {n : ℕ} (hn : n < 2^64)
    {encode : ArgumentEncoder → ArgumentEncoder} {P : α → Prop}
    (decode : ℕ → ArgumentDecoder → α → Except Fault (Outcome α))
    (h : ReadsBack encode (decode n) P) :
    ReadsBack (fun e => encode (encodeArithmetic .uint64 (.ofNat n) e))
      (fun d destination => decodeThen (decodeArithmetic .uint64) 0 d destination fun size d =>
        decode size.toNat d destination) P := by
  refine ReadsBack.arithmeticThen (s := .uint64) ?_ 0
  rw [UInt64.toNat_ofNat_of_lt' hn]
  exact h

/-- Every object is read back, whatever types it is made of. -/
theorem readsBack_encode (t : ArgumentType) (object : t.Object) (h : t.Valid object) :
    ReadsBack (encode t object) (decode atoms t) (t.value · = t.value object) := by
  induction t with
  | arithmetic s => exact readsBack_arithmetic s object
  | cString => exact readsBack_cString h
  | string => exact readsBack_string h
  | atomicString => exact readsBack_atomicString atoms h
  | dataReference => exact readsBack_variableLengthByteArray h
  | pair first second ihFirst ihSecond =>
    have hp : ∀ a, first.value a = first.value object.1 → ReadsBack (encode second object.2)
          (fun d pair => decodeThen (decode atoms second) second.default d pair fun b d =>
            return ⟨true,d,(a,b)⟩)
          (fun pair => (first.value pair.1,second.value pair.2) =
            (first.value object.1,second.value object.2)) := by
      intro a ha
      refine (ihSecond object.2 h.2).andReturn rfl (fun b hb => ?_) second.default
      rw [ha,hb]
    exact (ihFirst object.1 h.1).andThen rfl hp first.default
  | vector element ih =>
    exact readsBack_size h.1 (decodeVectorElements element (decode atoms element))
      (readsBack_vectorElements fun x hx => ih x (h.2 x hx))
  | hashMap key mapped ihKey ihMapped =>
    have he := readsBack_entries (fun x hx => ihKey x.1 (h.2.1 x hx).1)
      (fun x hx => ihMapped x.2 (h.2.1 x hx).2) [] h.2.2
    exact readsBack_size h.1
      (fun n => decodeEntries key mapped (decode atoms key) (decode atoms mapped) n [])
      (he.mono fun _ ho => congrArg Multiset.ofList ho)

/-- The run of the decoder over the arguments follows the run of the encoder. -/
theorem decodeAll_decoderAt {arguments requests : List Argument}
    (hv : ∀ argument ∈ arguments, argument.1.Valid argument.2)
    (ht : requests.map Sigma.fst = arguments.map Sigma.fst) (e : ArgumentEncoder) :
    e.buffer <+: (encodeAll arguments e).buffer ∧
      ∀ base bytes, Copied base bytes → (encodeAll arguments e).buffer <+: bytes →
        ∃ outcomes, decodeAll atoms requests (decoderAt base bytes e) =
            .ok (outcomes,decoderAt base bytes (encodeAll arguments e)) ∧
          outcomes.map (fun o => (o.returned,o.destination.value)) =
            arguments.map fun argument => (true,argument.value) := by
  induction arguments generalizing requests e with
  | nil =>
    obtain rfl : requests = [] := map_eq_nil_iff.mp ht
    exact ⟨prefix_rfl,fun _ _ _ _ => ⟨[],rfl,rfl⟩⟩
  | cons argument arguments ih =>
    cases requests with
    | nil => cases ht
    | cons request requests =>
      obtain ⟨htype,hr⟩ := List.cons.inj ht
      obtain ⟨t,object⟩ := argument
      obtain ⟨t',destination⟩ := request
      obtain rfl : t' = t := htype
      have ho := readsBack_encode atoms t' object (hv _ mem_cons_self) e
      obtain ⟨hg,hd⟩ := ih (forall_mem_cons.mp hv).2 hr (encode t' object e)
      refine ⟨ho.1.trans hg,fun base bytes hcopied hb => ?_⟩
      obtain ⟨decoded,hval,hf⟩ := ho.2 base bytes destination hcopied (hg.trans hb)
      obtain ⟨outcomes,hr,hvals⟩ := hd base bytes hcopied hb
      refine ⟨⟨true,decoderAt base bytes (encode t' object e),t',decoded⟩::outcomes,?_,?_⟩
      · simp only [decodeAll,hf,bind,Except.bind,hr]
        rfl
      · rw [map_cons,map_cons,hvals]
        simp [Argument.value,hval]

/-- What is encoded is decoded from an aligned copy of the buffer, and the decoder then stands at
the end of the copy.  It does not matter what the destinations hold before, nor what the encoder has
skipped. -/
theorem decodeAll_encodeAll (memory : ℕ → UInt8) (arguments requests : List Argument)
    (hvalid : ∀ argument ∈ arguments, argument.1.Valid argument.2)
    (htypes : requests.map Sigma.fst = arguments.map Sigma.fst) (base : ℕ) (haligned : 8 ∣ base)
    (hspace : base + (encodeAll arguments (.create memory)).bufferSize + 8 ≤ 2 ^ 64) :
    ∃ outcomes d, decodeAll atoms requests
        (.create base (encodeAll arguments (.create memory)).buffer) = .ok (outcomes, d) ∧
      outcomes.map (fun o => (o.returned, o.destination.value)) =
        arguments.map (fun argument => (true, argument.value)) ∧
      d.bufferPos = d.bufferEnd := by
  obtain ⟨-,hdec⟩ := decodeAll_decoderAt atoms hvalid htypes (.create memory)
  obtain ⟨outcomes,hd,hv⟩ := hdec base _ ⟨haligned,hspace⟩ prefix_rfl
  exact ⟨outcomes,_,hd,hv,rfl⟩

end

/-- A hash map from strings to vectors behind a single byte, and an empty vector at the end. -/
def sampleArguments : List Argument :=
  [⟨.arithmetic .bool, true⟩,
    ⟨.hashMap .string (.vector (.arithmetic .uint16)),
      [(some (.characters16 [0x263a]), [1, 2, 3]), (some (.characters8 [65]), [])]⟩,
    ⟨.pair .cString .atomicString, (some [104, 105], none)⟩,
    ⟨.vector (.arithmetic .double), []⟩]

theorem decodeAll_encodeAll_sampleArguments :
    (encodeAll sampleArguments (.create fun _ => 0xcd)).bufferSize = 80 ∧
      ∃ outcomes d, decodeAll ⟨id, fun _ => rfl⟩ (sampleArguments.map fun a => ⟨a.1, a.1.default⟩)
          (.create 4096 (encodeAll sampleArguments (.create fun _ => 0xcd)).buffer) =
            .ok (outcomes, d) ∧
        outcomes.map (fun o => (o.returned, o.destination.value)) =
          sampleArguments.map (fun argument => (true, argument.value)) ∧
        d.bufferPos = d.bufferEnd := by
  have hs : (encodeAll sampleArguments (.create fun _ => 0xcd)).bufferSize = 80 := by
    decide +kernel
  have hv : ∀ argument ∈ sampleArguments, argument.1.Valid argument.2 := by
    simp [sampleArguments,ArgumentType.Valid,ArgumentType.value,StringImpl.characters]
  have hspace : 4096+(encodeAll sampleArguments (.create fun _ => 0xcd)).bufferSize+8 ≤ 2^64 := by
    rw [hs]
    decide
  have ht : (sampleArguments.map fun a => (⟨a.1,a.1.default⟩ : Argument)).map Sigma.fst =
      sampleArguments.map Sigma.fst := map_map
  exact ⟨hs,decodeAll_encodeAll _ _ _ _ hv ht 4096 (by decide) hspace⟩

end QPlusWeb.IPC
