import QPlusWeb.ArgumentDecoder

/-!
# Decoding of untrusted buffers

Whatever the bytes of its buffer are, a decoder reads inside the buffer only and no size wraps.  A
request that fails leaves its destination as it was and the decoder invalid, and then every later
request fails.
-/

namespace QPlusWeb.IPC

open ObjectLayout ArgumentDecoder

/-- The position is in the buffer or one behind its end, and the buffer does not reach the end of the
address space. -/
structure ArgumentDecoder.WellFormed (d : ArgumentDecoder) : Prop where
  space : d.bufferEnd + 8 < 2 ^ 64
  start_le : d.buffer ≤ d.bufferPos
  le_end : d.bufferPos ≤ d.bufferEnd + 1

/-- Both read from the same buffer. -/
def ArgumentDecoder.SameBuffer (d d' : ArgumentDecoder) : Prop :=
  d'.buffer = d.buffer ∧ d'.bytes = d.bytes

/-- What holds of a request: the decoder is invalid afterwards exactly if the request has failed, a
failure leaves the destination as it was, and an invalid decoder fails. -/
structure Outcome.Sound {α : Type} (d : ArgumentDecoder) (destination : α) (outcome : Outcome α) :
    Prop where
  same : d.SameBuffer outcome.decoder
  wellFormed : outcome.decoder.WellFormed
  isInvalid_eq : outcome.decoder.isInvalid = !outcome.returned
  unchanged : outcome.returned = false → outcome.destination = destination
  fails : d.isInvalid = true → outcome.returned = false

/-- No fault occurs. -/
def SafeAt {α : Type} (d : ArgumentDecoder) (destination : α) (result : Except Fault (Outcome α)) :
    Prop :=
  ∃ outcome, result = .ok outcome ∧ outcome.Sound d destination

def Safe {α : Type} (decode : ArgumentDecoder → α → Except Fault (Outcome α)) : Prop :=
  ∀ d destination, d.WellFormed → SafeAt d destination (decode d destination)

section
variable {d d' : ArgumentDecoder} {k size : ℕ} {s : Arithmetic}

theorem ArgumentDecoder.SameBuffer.bufferEnd_eq (h : d.SameBuffer d') : d'.bufferEnd =
    d.bufferEnd := by
  rw [bufferEnd,bufferEnd,h.1,h.2]

section
variable (hd : d.WellFormed)
include hd

theorem bufferPos_markInvalid : d.markInvalid.bufferPos = d.bufferEnd+1 :=
  Nat.mod_eq_of_lt (by have := hd.space; omega)

theorem wellFormed_markInvalid : d.markInvalid.WellFormed := by
  have hp := bufferPos_markInvalid hd
  have hle : d.buffer ≤ d.bufferEnd := Nat.le_add_right _ _
  exact ⟨hd.space,hp ▸ hle.trans (Nat.le_succ _),hp ▸ le_rfl⟩

theorem isInvalid_markInvalid : d.markInvalid.isInvalid := by
  rw [isInvalid,decide_eq_true_iff,bufferPos_markInvalid hd]
  exact Nat.lt_succ_self _

theorem safeAt_fail {α : Type} (destination : α) :
    SafeAt d destination (.ok ⟨false,d.markInvalid,destination⟩) :=
  ⟨_,rfl,⟨rfl,rfl⟩,wellFormed_markInvalid hd,isInvalid_markInvalid hd,fun _ => rfl, fun _ => rfl⟩

theorem safeAt_return {α : Type} (hv : d.isInvalid = false)
    (destination a : α) : SafeAt d destination (.ok ⟨true,d,a⟩) := by
  refine ⟨_,rfl,⟨rfl,rfl⟩,hd,hv,nofun,fun hi => ?_⟩
  rw [hv] at hi
  cases hi

/-- Aligning an address does not wrap around. -/
theorem le_roundUpAddress (hk : k ≤ 3) : d.bufferPos ≤ roundUpAddress d.bufferPos (2^k) := by
  have hs := hd.space
  have hle := hd.le_end
  have hp : 2^k ≤ 2^3 := Nat.pow_le_pow_right (by decide) hk
  rw [roundUpAddress_eq (by omega) (by omega)]
  exact le_roundUp (Nat.two_pow_pos k)

/-- Either the bytes are there, at a position behind the present one, or the decoder is marked as
invalid. -/
theorem alignBufferPosition_cases (hk : k ≤ 3) (size : ℕ) :
    (d.isInvalid = false ∧ ∃ d', d.alignBufferPosition (2^k) size = (true,d') ∧ d.SameBuffer d' ∧
        d'.buffer ≤ d'.bufferPos ∧ d'.bufferPos+size ≤ d'.bufferEnd) ∨
      d.alignBufferPosition (2^k) size = (false,d.markInvalid) := by
  have hle := le_roundUpAddress hd hk
  have hs := hd.start_le
  unfold alignBufferPosition
  simp only
  split
  next hl =>
    rw [alignedBufferIsLargeEnoughToContain_iff] at hl
    refine .inl ⟨?_,_,rfl,⟨rfl,rfl⟩,hs.trans hle,hl⟩
    rw [isInvalid,decide_eq_false_iff_not]
    omega
  next => exact .inr rfl

theorem readBytes_eq (he : d.bufferPos+size ≤ d.bufferEnd) :
    ∃ bytes d', d.readBytes size = .ok (bytes,d') ∧ d.SameBuffer d' ∧ d'.WellFormed ∧
      d'.isInvalid = false := by
  refine ⟨_,_,if_pos ⟨hd.start_le,he⟩,⟨rfl,rfl⟩,⟨hd.space,?_,?_⟩,?_⟩
  · exact hd.start_le.trans (Nat.le_add_right _ _)
  · exact he.trans (Nat.le_succ _)
  · exact decide_eq_false (Nat.not_lt.mpr he)

end

end

/-! ### Single objects -/

section
variable {α β : Type} {d : ArgumentDecoder} {k : ℕ} {s : Arithmetic}

theorem ArgumentDecoder.SameBuffer.trans {d' d'' : ArgumentDecoder} (h : d.SameBuffer d')
    (h' : d'.SameBuffer d'') : d.SameBuffer d'' :=
  ⟨h'.1.trans h.1,h'.2.trans h.2⟩

/-- The bytes are read after the position has been aligned. -/
theorem safeAt_read (hd : d.WellFormed) (hk : k ≤ 3) (size : ℕ) (destination : α)
    (f : List UInt8 → α) :
    SafeAt d destination (do
      let aligned := d.alignBufferPosition (2^k) size
      if aligned.1 then
        let read ← aligned.2.readBytes size
        return ⟨true,read.2,f read.1⟩
      else return ⟨false,aligned.2,destination⟩) := by
  rcases alignBufferPosition_cases hd hk size with ⟨hvalid,d',hd',hs,hstart,he⟩ | hi
  · have hwf : d'.WellFormed := ⟨hs.bufferEnd_eq ▸ hd.space,hstart,by omega⟩
    obtain ⟨bytes,d'',hr,hsame',hwf',hvalid'⟩ := readBytes_eq hwf he
    simp only [hd',if_true,hr]
    refine ⟨_,rfl,hs.trans hsame',hwf',hvalid',nofun,fun hi => ?_⟩
    rw [hvalid] at hi
    cases hi
  · simp only [hi]
    exact safeAt_fail hd destination

theorem safe_fixedLengthData (size : ℕ) (hk : k ≤ 3) : Safe (decodeFixedLengthData size (2^k)) :=
  fun _ destination hd => safeAt_read hd hk size destination id

theorem safe_elements (size : ℕ) : Safe (decodeFixedLengthData size s.size) := by
  obtain ⟨k,hk,hs⟩ := s.size_eq_two_pow
  rw [hs]
  exact safe_fixedLengthData size hk

theorem safe_arithmetic (s : Arithmetic) : Safe (decodeArithmetic s) := by
  obtain ⟨k,hk,hs⟩ := s.size_eq_two_pow
  intro d destination hd
  have hr := safeAt_read hd hk s.size destination s.ofBytes
  rw [← hs] at hr
  exact hr

theorem Safe.decodeThen {decode : ArgumentDecoder → α → Except Fault (Outcome α)}
    (h : Safe decode) (hd : d.WellFormed) (initial : α) (destination : β)
    {next : α → ArgumentDecoder → Except Fault (Outcome β)}
    (hn : ∀ a d', d'.WellFormed → d'.isInvalid = false → SafeAt d' destination (next a d')) :
    SafeAt d destination (decodeThen decode initial d destination next) := by
  obtain ⟨o,ho,hs⟩ := h d initial hd
  have hi := hs.isInvalid_eq
  cases hr : o.returned with
  | true =>
    rw [hr] at hi
    obtain ⟨o',ho',hsound'⟩ := hn o.destination o.decoder hs.wellFormed hi
    refine ⟨o',?_,hs.same.trans hsound'.same,hsound'.wellFormed,hsound'.isInvalid_eq,
      hsound'.unchanged,fun hd => ?_⟩
    · simp only [ArgumentDecoder.decodeThen,ho,bind,Except.bind,hr,if_true]
      exact ho'
    · rw [hs.fails hd] at hr
      cases hr
  | false =>
    rw [hr] at hi
    refine ⟨⟨false,o.decoder,destination⟩,?_,hs.same,hs.wellFormed,hi,fun _ => rfl,fun _ => rfl⟩
    simp only [ArgumentDecoder.decodeThen,ho,bind,Except.bind,hr]
    rfl

theorem safeAt_ifLargeEnough (hd : d.WellFormed) (s : Arithmetic) (n : ℕ) (destination : α)
    {next : Except Fault (Outcome α)} (hn : n*s.size < 2^64 →
      alignedBufferIsLargeEnoughToContain (roundUpAddress d.bufferPos s.size) d.bufferEnd
        (n*s.size) → SafeAt d destination next) :
    SafeAt d destination (ifLargeEnough s n d destination next) := by
  unfold ifLargeEnough bufferIsLargeEnoughToContain
  by_cases hc : n > (2^64-1) / s.size
  · simp only [if_pos hc]
    exact safeAt_fail hd destination
  · have hp : n*s.size < 2^64 := by
      rw [gt_iff_lt,Nat.not_lt,Nat.le_div_iff_mul_le s.size_pos] at hc
      omega
    simp only [if_neg hc,sizeOfElements,if_pos hp,bind,Except.bind,pure,Except.pure]
    split
    next hl => exact hn hp hl
    next => exact safeAt_fail hd destination

theorem sizeOfElements_eq {n size : ℕ} (h : n*size < 2^64) : sizeOfElements n size = .ok (n*size) :=
  if_pos h

end

/-! ### Strings and byte arrays -/

theorem safe_variableLengthByteArray : Safe decodeVariableLengthByteArray := by
  intro d dataReference hd
  refine (safe_arithmetic .uint64).decodeThen hd 0 dataReference fun size d' hd' _ => ?_
  exact safeAt_read (k := 0) hd' (by decide) size.toNat dataReference id

theorem safe_cString : Safe decodeCString := by
  intro d result hd
  refine (safe_arithmetic .uint32).decodeThen hd 0 result fun length d' hd' hvalid => ?_
  split
  next => exact safeAt_return hd' hvalid result none
  next =>
    refine safeAt_ifLargeEnough hd' .uint8 _ result fun _ _ => ?_
    refine (safe_fixedLengthData (k := 0) _ (by decide)).decodeThen hd' [] result ?_
    intro buffer d'' hd'' hvalid'
    exact safeAt_return hd'' hvalid' result (some buffer)

theorem safe_stringText (s : Arithmetic) (create : List s.Object → StringImpl) (length : ℕ) :
    Safe (decodeStringText s create length) := by
  intro d result hd
  refine safeAt_ifLargeEnough hd s length result fun hp _ => ?_
  simp only [sizeOfElements_eq hp,bind,Except.bind]
  refine (safe_elements _).decodeThen hd [] result fun buffer d' hd' hv => ?_
  exact safeAt_return hd' hv result _

theorem safe_string : Safe decodeString := by
  intro d result hd
  refine (safe_arithmetic .uint32).decodeThen hd 0 result fun length d' hd' hv => ?_
  split
  next => exact safeAt_return hd' hv result none
  next =>
    refine (safe_arithmetic .bool).decodeThen hd' false result fun is8Bit d'' hd'' _ => ?_
    split
    next => exact safe_stringText .uint8 .characters8 _ d'' result hd''
    next => exact safe_stringText .uint16 .ofCharacters16 _ d'' result hd''

theorem safe_atomicString (atoms : AtomTable) : Safe (decodeAtomicString atoms) := by
  intro d atomicString hd
  refine safe_string.decodeThen hd none atomicString fun string d' hd' hv => ?_
  exact safeAt_return hd' hv atomicString _

/-! ### Containers -/

section
variable {α β : Type} {d : ArgumentDecoder}

theorem safe_pair {decodeFirst : ArgumentDecoder → α → Except Fault (Outcome α)}
    {decodeSecond : ArgumentDecoder → β → Except Fault (Outcome β)} (hf : Safe decodeFirst)
    (hs : Safe decodeSecond) (first : α) (second : β) :
    Safe (decodePair decodeFirst decodeSecond first second) := by
  intro d pair hd
  refine hf.decodeThen hd first pair fun a d' hd' _ => ?_
  refine hs.decodeThen hd' second pair fun b d'' hd'' hv => ?_
  exact safeAt_return hd'' hv pair (a,b)

/-- The check has been made, so what the last read returns need not be looked at. -/
theorem safe_array (s : Arithmetic) (size : ℕ) : Safe (decodeArray s size) := by
  intro d vector hd
  refine safeAt_ifLargeEnough hd s size vector fun hp hl => ?_
  obtain ⟨o,ho,hs⟩ := safe_elements (s := s) (size*s.size) d [] hd
  have hr : o.returned := by
    simp only [decodeFixedLengthData,alignBufferPosition,hl,if_true,readBytes] at ho
    split at ho
    next =>
      cases ho
      rfl
    next => cases ho
  simp only [sizeOfElements_eq hp,ho,bind,Except.bind]
  refine ⟨_,rfl,hs.same,hs.wellFormed,?_,nofun,fun hi => ?_⟩
  · rw [hs.isInvalid_eq,hr]
  · rw [hs.fails hi] at hr
    cases hr

theorem safeAt_elements {decode : ArgumentDecoder → α → Except Fault (Outcome α)} (h : Safe decode)
    (initial : α) (vector : List α) (n : ℕ) (tmp : List α)
    (hd : d.WellFormed) (hvalid : d.isInvalid = false) :
    SafeAt d vector (decodeElements decode initial n tmp d vector) := by
  induction n generalizing tmp d with
  | zero => exact safeAt_return hd hvalid vector tmp
  | succ n ih =>
    refine h.decodeThen hd initial vector fun element d' hd' hvalid' => ?_
    exact ih (tmp++[element]) hd' hvalid'

theorem safeAt_vectorElements (element : ArgumentType)
    {decode : ArgumentDecoder → element.Object → Except Fault (Outcome element.Object)}
    (h : Safe decode) (vector : List element.Object) (n : ℕ)
    (hd : d.WellFormed) (hv : d.isInvalid = false) :
    SafeAt d vector (decodeVectorElements element decode n d vector) := by
  cases element with
  | arithmetic s => exact safe_array s n d vector hd
  | cString | string | atomicString | dataReference | pair | vector | hashMap =>
    exact safeAt_elements h _ vector n [] hd hv

theorem safeAt_entries {key mapped : ArgumentType}
    {decodeKey : ArgumentDecoder → key.Object → Except Fault (Outcome key.Object)}
    {decodeMapped : ArgumentDecoder → mapped.Object → Except Fault (Outcome mapped.Object)}
    (hk : Safe decodeKey) (hm : Safe decodeMapped)
    (hashMap : List (key.Object × mapped.Object)) (n : ℕ)
    (temp : List (key.Object × mapped.Object)) (hd : d.WellFormed)
    (hvalid : d.isInvalid = false) :
    SafeAt d hashMap (decodeEntries key mapped decodeKey decodeMapped n temp d hashMap) := by
  induction n generalizing temp d with
  | zero => exact safeAt_return hd hvalid hashMap temp
  | succ n ih =>
    refine hk.decodeThen hd key.default hashMap fun k d' hd' _ => ?_
    refine hm.decodeThen hd' mapped.default hashMap fun value d'' hd'' hvalid'' => ?_
    split
    next => exact safeAt_fail hd'' hashMap
    next => exact ih (temp++[(k,value)]) hd'' hvalid''

end

/-! ### Requests -/

section
variable (atoms : AtomTable)

theorem safe_decode (t : ArgumentType) : Safe (decode atoms t) := by
  induction t with
  | arithmetic s => exact safe_arithmetic s
  | cString => exact safe_cString
  | string => exact safe_string
  | atomicString => exact safe_atomicString atoms
  | dataReference => exact safe_variableLengthByteArray
  | pair first second ihFirst ihSecond => exact safe_pair ihFirst ihSecond _ _
  | vector element ih =>
    intro d vector hd
    refine (safe_arithmetic .uint64).decodeThen hd 0 vector fun size d' hd' hv => ?_
    exact safeAt_vectorElements element ih vector size.toNat hd' hv
  | hashMap key mapped ihKey ihMapped =>
    intro d hashMap hd
    refine (safe_arithmetic .uint64).decodeThen hd 0 hashMap fun size d' hd' hv => ?_
    exact safeAt_entries ihKey ihMapped hashMap size.toNat [] hd' hv

/-- In a sequence of requests each one finds the decoder as the one before has left it. -/
theorem decodeAll_sound (requests : List Argument) {d : ArgumentDecoder} (hd : d.WellFormed) :
    ∃ outcomes d', decodeAll atoms requests d = .ok (outcomes,d') ∧
      List.Forall₂ (fun request outcome => d.SameBuffer outcome.decoder ∧
        outcome.decoder.isInvalid = !outcome.returned ∧
        (outcome.returned = false → outcome.destination = request)) requests outcomes ∧
      (d.isInvalid → ∀ outcome ∈ outcomes, outcome.returned = false) ∧
      outcomes.Pairwise (fun first later => first.returned = false → later.returned = false) := by
  induction requests generalizing d with
  | nil => exact ⟨[],d,rfl,.nil,nofun,.nil⟩
  | cons request requests ih =>
    obtain ⟨t,destination⟩ := request
    obtain ⟨o,ho,hs⟩ := safe_decode atoms t d destination hd
    obtain ⟨outcomes,d',hr,hforall,hi,hp⟩ := ih hs.wellFormed
    refine ⟨⟨o.returned,o.decoder,t,o.destination⟩::outcomes,d',?_,.cons ?_ ?_,?_,?_⟩
    · simp only [decodeAll,ho,bind,Except.bind,hr]
      rfl
    · refine ⟨hs.same,hs.isInvalid_eq,fun hretd => ?_⟩
      rw [hs.unchanged hretd]
    · exact hforall.imp fun _ _ h => ⟨hs.same.trans h.1,h.2⟩
    · intro hinvalid' outcome houtcome
      have hf := hs.fails hinvalid'
      rcases List.mem_cons.mp houtcome with rfl | houtcome
      · exact hf
      · exact hi (by rw [hs.isInvalid_eq,hf]; rfl) outcome houtcome
    · refine .cons (fun later hl hf => ?_) hp
      exact hi (by rw [hs.isInvalid_eq,hf]; rfl) later hl

end

/-- A vector and a byte. -/
def vectorAndByte : List Argument :=
  [⟨.vector (.arithmetic .double), [1]⟩, ⟨.arithmetic .uint8, 7⟩]

end QPlusWeb.IPC
