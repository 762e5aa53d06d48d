import QPlusWeb.UTF8Decoding

/-!
# What a conversion leaves behind

A round of the loop converts the well-formed sequence at the start of the source, finds that it does
not fit, or finds that there is none.  By induction over the rounds the units written are the UTF-16 form
of the bytes consumed, and the loop stops at the first sequence that it has not converted.
-/

namespace QPlusWeb.WTF.Unicode

open UnicodeForms PrefixCodes List Nat

/-- The conversion comes to a sequence that the legality test accepts by accident: what is before it is
well formed and fits. -/
def MeetsAccident (capacity written : ℕ) (source : List UInt8) : Prop :=
  ∃ ws bytes rest, (∀ w ∈ ws, IsSequence w) ∧ source = ws.flatten ++ (bytes ++ rest) ∧
    Accidental bytes ∧ written + (utf16Form ws).length ≤ capacity

/-- Some sequence is at the start. -/
def StartsSequence (source : List UInt8) : Prop :=
  ∃ bytes rest, IsSequence bytes ∧ source = bytes ++ rest

/-- One that is accepted by accident is at the start. -/
def StartsAccident (source : List UInt8) : Prop :=
  ∃ bytes rest, Accidental bytes ∧ source = bytes ++ rest

theorem Accidental.cases {bytes : List UInt8} (h : Accidental bytes) :
    (∃ a b c : UInt8, bytes = [a, b, c] ∧ a.toNat = 0xED ∧ b.toNat < 0x80 ∧ 0x80 ≤ c.toNat ∧
      c.toNat ≤ 0xBF) ∨
    ∃ a b c d : UInt8, bytes = [a, b, c, d] ∧ a.toNat = 0xF4 ∧ b.toNat < 0x80 ∧ 0x80 ≤ c.toNat ∧
      c.toNat ≤ 0xBF ∧ 0x80 ≤ d.toNat ∧ d.toNat ≤ 0xBF := by
  match bytes, h with
  | [a, b, c], ⟨ha, hb, hc⟩ => exact .inl ⟨a, b, c, rfl, ha, hb, hc⟩
  | [a, b, c, d], ⟨ha, hb, hc, hd⟩ => exact .inr ⟨a, b, c, d, rfl, ha, hb, hc.1, hc.2, hd⟩

theorem Accidental.not_isSequence {bytes : List UInt8} (h : Accidental bytes) : ¬IsSequence bytes := by
  obtain ⟨a, b, c, rfl, ha, hb, -⟩ | ⟨a, b, c, d, rfl, ha, hb, -⟩ := h.cases
  · rw [isSequence_three]
    simp only [IsTail, InRange]
    omega
  · rw [isSequence_four]
    simp only [IsTail, InRange]
    omega

section
variable {a : UInt8} {rest source : List UInt8}

/-- The first byte of a sequence announces its length. -/
theorem inlineUTF8SequenceLength_of_isSequence {bytes : List UInt8} (h : IsSequence bytes)
    (rest : List UInt8) : inlineUTF8SequenceLength (byteAt (bytes++rest) 0) = bytes.length := by
  rw [inlineUTF8SequenceLength_eq]
  obtain ⟨a,rfl,h⟩ | ⟨a,b,rfl,h⟩ | ⟨a,b,c,rfl,h⟩ | ⟨a,b,c,d,rfl,h⟩ := h.cases
  all_goals
    rw [cons_append,byteAt,getD_cons_zero]
    simp only [length_cons,length_nil]
    split_ifs <;> omega

theorem inlineUTF8SequenceLength_of_accidental {bytes : List UInt8} (h : Accidental bytes)
    (rest : List UInt8) : inlineUTF8SequenceLength (byteAt (bytes ++ rest) 0) = bytes.length := by
  rw [inlineUTF8SequenceLength_eq]
  obtain ⟨a, b, c, rfl, ha, -⟩ | ⟨a, b, c, d, rfl, ha, -⟩ := h.cases
  all_goals
    rw [cons_append, byteAt, getD_cons_zero]
    simp [ha]

/-- The sequence at the start is accepted by accident or well formed, but not both. -/
theorem not_startsSequence_of_startsAccident (h : StartsAccident source) : ¬StartsSequence source := by
  obtain ⟨bytes, rest, hbytes, rfl⟩ := h
  rintro ⟨w, rest', hw, heq⟩
  have hlength := inlineUTF8SequenceLength_of_accidental hbytes rest
  rw [heq, inlineUTF8SequenceLength_of_isSequence hw] at hlength
  obtain ⟨rfl, -⟩ := append_inj heq hlength.symm
  exact hbytes.not_isSequence hw

theorem not_startsSequence_of_length
    (h : source.length < inlineUTF8SequenceLength (byteAt source 0)) : ¬StartsSequence source := by
  rintro ⟨bytes,rest,hbytes,rfl⟩
  rw [inlineUTF8SequenceLength_of_isSequence hbytes,length_append] at h
  omega

theorem not_startsAccident_of_length
    (h : source.length < inlineUTF8SequenceLength (byteAt source 0)) : ¬StartsAccident source := by
  rintro ⟨bytes, rest, hbytes, rfl⟩
  rw [inlineUTF8SequenceLength_of_accidental hbytes, length_append] at h
  omega

theorem not_starts_of_take
    (h : ¬(IsSequence (source.take (inlineUTF8SequenceLength (byteAt source 0))) ∨
      Accidental (source.take (inlineUTF8SequenceLength (byteAt source 0))))) :
    ¬StartsSequence source ∧ ¬StartsAccident source := by
  rw [not_or] at h
  constructor
  · rintro ⟨bytes, rest, hbytes, rfl⟩
    rw [inlineUTF8SequenceLength_of_isSequence hbytes, take_left] at h
    exact h.1 hbytes
  · rintro ⟨bytes, rest, hbytes, rfl⟩
    rw [inlineUTF8SequenceLength_of_accidental hbytes, take_left] at h
    exact h.2 hbytes

end

/-- A character is ASCII if and only if all its bytes are. -/
theorem character_lt_iff {bytes : List UInt8} (h : IsSequence bytes) :
    character bytes < 0x80 ↔ ∀ b ∈ bytes, b.toNat < 0x80 := by
  obtain ⟨a,rfl,h⟩ | ⟨a,b,rfl,h⟩ | ⟨a,b,c,rfl,h⟩ | ⟨a,b,c,d,rfl,h⟩ := h.cases
  · simp [character_one]
  all_goals
    simp only [character_two,character_three,character_four,forall_mem_cons,not_mem_nil]
    omega

namespace ConversionState
variable {capacity : ℕ} {strict : Bool} {s : ConversionState}
  {final : ConversionResult × ConversionState} {ws : List (List UInt8)}

/-- What a round of the loop can do. -/
inductive Round (capacity : ℕ) (s : ConversionState) :
    ConversionState ⊕ (ConversionResult × ConversionState) → Prop
  | converted {bytes rest orAllData} (hsource : s.source = bytes ++ rest)
      (hbytes : IsSequence bytes)
      (hfits : s.target.length + (utf16 (character bytes)).length ≤ capacity)
      (hdata : orAllData.toNat < 0x80 ↔ s.orAllData.toNat < 0x80 ∧ character bytes < 0x80) :
      Round capacity s (.inl ⟨rest, s.target ++ utf16 (character bytes), orAllData⟩)
  | full {bytes rest} (hsource : s.source = bytes ++ rest) (hbytes : IsSequence bytes)
      (hfull : capacity < s.target.length + (utf16 (character bytes)).length) :
      Round capacity s (.inr (.targetExhausted, s))
  | exhausted (hlength : s.source.length < inlineUTF8SequenceLength (byteAt s.source 0)) :
      Round capacity s (.inr (.sourceExhausted, s))
  | illegal (h : ¬StartsSequence s.source) (ha : ¬StartsAccident s.source) :
      Round capacity s (.inr (.sourceIllegal, s))
  | accident {bytes s'} (hsource : s.source = bytes ++ s'.source) (hbytes : Accidental bytes) :
      Round capacity s (.inl s')
  | accidentFull (h : StartsAccident s.source) : Round capacity s (.inr (.targetExhausted, s))

theorem or_lt_iff (x y : UInt16) : (x ||| y).toNat < 0x80 ↔ x.toNat < 0x80 ∧ y.toNat < 0x80 := by
  constructor
  · intro h
    exact ⟨lt_of_le_of_lt left_le_or h,lt_of_le_of_lt right_le_or h⟩
  · rintro ⟨hx,hy⟩
    exact or_lt_two_pow (n := 7) hx hy

/-- The part of the round behind the legality test, for a character that is no surrogate. -/
theorem convert_scalar (capacity : ℕ) (strict : Bool) (length : ℕ) {c : UInt32}
    (hscalar : c.toNat < 0xD800 ∨ 0xE000 ≤ c.toNat ∧ c.toNat ≤ 0x10FFFF) :
    ∃ orAllData : UInt16,
      (orAllData.toNat < 0x80 ↔ s.orAllData.toNat < 0x80 ∧ c.toNat < 0x80) ∧
      (if s.target.length ≥ capacity then .inr (.targetExhausted, s)
      else if U_IS_BMP c then
        if U_IS_SURROGATE c then
          if strict then .inr (.sourceIllegal, s)
          else .inl (s.write length [replacementCharacter] (s.orAllData ||| replacementCharacter))
        else .inl (s.write length [c.toUInt16] (s.orAllData ||| c.toUInt16))
      else if U_IS_SUPPLEMENTARY c then
        if s.target.length + 1 ≥ capacity then .inr (.targetExhausted, s)
        else .inl (s.write length [U16_LEAD c, U16_TRAIL c] 0xFFFF)
      else if strict then .inr (.sourceIllegal, s)
      else .inl (s.write length [replacementCharacter]
        (s.orAllData ||| replacementCharacter)) : ConversionState ⊕ (ConversionResult × ConversionState)) =
      if capacity < s.target.length + (utf16 c.toNat).length then .inr (.targetExhausted, s)
      else .inl (s.write length (utf16 c.toNat) orAllData) := by
  have hs : U_IS_SURROGATE c = false := U_IS_SURROGATE_eq_false (by omega)
  simp only [hs, Bool.false_eq_true, if_false]
  by_cases hb : c.toNat < 0x10000
  · refine ⟨s.orAllData ||| c.toUInt16, ?_, ?_⟩
    · rw [or_lt_iff, UInt32.toNat_toUInt16]
      omega
    · rw [if_pos (U_IS_BMP_iff.mpr hb), utf16_of_bmp hb, length_singleton]
      split_ifs <;> first | rfl | omega
  · refine ⟨0xFFFF, ?_, ?_⟩
    · simp only [UInt16.reduceToNat]
      omega
    · rw [if_neg (mt U_IS_BMP_iff.mp hb), if_pos (U_IS_SUPPLEMENTARY_eq_true (by omega) (by omega)),
        utf16_of_supplementary (by omega) (by omega)]
      simp only [length_cons, length_nil]
      split_ifs <;> first | rfl | omega

/-- An accidental sequence is read as a character, too. -/
theorem readUTF8Sequence_accidental {bytes : List UInt8} (h : Accidental bytes)
    (rest : List UInt8) :
    (readUTF8Sequence (bytes ++ rest) bytes.length).toNat < 0xD800 ∨
      0xE000 ≤ (readUTF8Sequence (bytes ++ rest) bytes.length).toNat ∧
        (readUTF8Sequence (bytes ++ rest) bytes.length).toNat ≤ 0x10FFFF := by
  obtain ⟨a, b, c, rfl, h⟩ | ⟨a, b, c, d, rfl, h⟩ := h.cases
  all_goals
    rw [toNat_readUTF8Sequence_sub (by simp)]
    simp only [shifted, foldl_cons, foldl_nil, offsetsFromUTF8, length_cons, length_nil,
      Nat.add_sub_cancel, getD_cons_zero, getD_cons_succ, UInt32.reduceToNat]
    omega

theorem round_convertSequence (capacity : ℕ) (strict : Bool) (hne : s.source ≠ []) :
    Round capacity s (s.convertSequence capacity strict) := by
  unfold convertSequence
  dsimp only
  split
  next hlength => exact .exhausted hlength
  next hlength =>
    rw [Nat.not_lt] at hlength
    split
    next hl =>
      rw [Bool.not_eq_true', ← Bool.not_eq_true, isLegalUTF8_iff hne hlength] at hl
      exact .illegal (not_starts_of_take hl).1 (not_starts_of_take hl).2
    next hl =>
      rw [Bool.not_eq_true', Bool.not_eq_false, isLegalUTF8_iff hne hlength] at hl
      have hsource := (take_append_drop (inlineUTF8SequenceLength (byteAt s.source 0))
        s.source).symm
      obtain hl | hl := hl
      · have hread := toNat_readUTF8Sequence hl
          (s.source.drop (inlineUTF8SequenceLength (byteAt s.source 0)))
        rw [← hsource, length_take_of_le hlength] at hread
        obtain ⟨orAllData, hdata, he⟩ := convert_scalar (s := s) capacity strict
          (inlineUTF8SequenceLength (byteAt s.source 0)) (hread ▸ character_scalar hl)
        rw [he, hread]
        rw [hread] at hdata
        split
        next hfull => exact .full hsource hl hfull
        next hfits => exact .converted hsource hl (Nat.not_lt.mp hfits) hdata
      · have hread := readUTF8Sequence_accidental hl
          (s.source.drop (inlineUTF8SequenceLength (byteAt s.source 0)))
        rw [← hsource, length_take_of_le hlength] at hread
        obtain ⟨orAllData, -, he⟩ := convert_scalar (s := s) capacity strict
          (inlineUTF8SequenceLength (byteAt s.source 0)) hread
        rw [he]
        split
        next => exact .accidentFull ⟨_, _, hl, hsource⟩
        next => exact .accident hsource hl

/-- Where the loop stops: at the end, at a sequence that does not fit, or where there is none. -/
def Stopped (capacity : ℕ) (result : ConversionResult) (source : List UInt8) (target : List UInt16) :
    Prop :=
  match result with
  | .conversionOK => source = []
  | .targetExhausted => ∃ bytes rest, IsSequence bytes ∧ source = bytes ++ rest ∧
      capacity < target.length + (utf16 (character bytes)).length
  | .sourceExhausted => source.length < inlineUTF8SequenceLength (byteAt source 0) ∧
      source ≠ [] ∧ ¬ StartsSequence source
  | .sourceIllegal => source ≠ [] ∧ ¬ StartsSequence source

/-- The run of the loop from a state: the sequences that it converts, and where it stops. -/
structure Run (capacity : ℕ) (s : ConversionState) (final : ConversionResult × ConversionState)
    (ws : List (List UInt8)) : Prop where
  sequences : ∀ w ∈ ws, IsSequence w
  source : s.source = ws.flatten ++ final.2.source
  target : final.2.target = s.target ++ utf16Form ws
  fits : final.2.target.length ≤ capacity
  ascii : final.2.orAllData.toNat < 0x80 ↔
    s.orAllData.toNat < 0x80 ∧ ∀ b ∈ ws.flatten, b.toNat < 0x80
  stopped : Stopped capacity final.1 final.2.source final.2.target

theorem Run.stay {result : ConversionResult} (ht : s.target.length ≤ capacity)
    (h : Stopped capacity result s.source s.target) : Run capacity s (result,s) [] :=
  ⟨nofun,rfl,(append_nil _).symm,ht,⟨fun hdata => ⟨hdata,nofun⟩,fun hdata => hdata.1⟩,h⟩

/-- A sequence that has been converted is put before those of the rest of the run. -/
theorem Run.cons {bytes rest : List UInt8} {orAllData : UInt16} (hsource : s.source = bytes++rest)
    (hbytes : IsSequence bytes)
    (hdata : orAllData.toNat < 0x80 ↔ s.orAllData.toNat < 0x80 ∧ character bytes < 0x80)
    (h : Run capacity ⟨rest,s.target++utf16 (character bytes),orAllData⟩ final ws) :
    Run capacity s final (bytes::ws) where
  sequences := forall_mem_cons.mpr ⟨hbytes,h.sequences⟩
  source := by
    rw [hsource,flatten_cons,append_assoc]
    exact congrArg (bytes++·) h.source
  target := by
    rw [h.target]
    simp [utf16Form]
  fits := h.fits
  ascii := by
    rw [h.ascii,hdata,character_lt_iff hbytes,flatten_cons,forall_mem_append,and_assoc]
  stopped := h.stopped

theorem run_convertLoop (capacity : ℕ) (strict : Bool) (s : ConversionState)
    (hc : ¬MeetsAccident capacity s.target.length s.source) (ht : s.target.length ≤ capacity) :
    ∃ ws, Run capacity s (s.convertLoop capacity strict) ws := by
  have hstart : ∀ {s : ConversionState}, s.target.length ≤ capacity →
      ¬MeetsAccident capacity s.target.length s.source → ¬StartsAccident s.source := by
    rintro s ht hc ⟨bytes, rest, hbytes, hsource⟩
    exact hc ⟨[], bytes, rest, nofun, hsource, hbytes, ht⟩
  fun_induction convertLoop capacity strict s with
  | case1 s hn => exact ⟨[], .stay ht hn⟩
  | case2 s hne s' hs ih =>
    have hr := hs ▸ round_convertSequence capacity strict hne
    cases hr with
    | @converted bytes rest orAllData hsource hbytes hfits hdata =>
      have hc' : ¬MeetsAccident capacity (s.target ++ utf16 (character bytes)).length rest := by
        rintro ⟨us, accident, rest', hus, hrest, haccident, hle⟩
        refine hc ⟨bytes :: us, accident, rest', forall_mem_cons.mpr ⟨hbytes, hus⟩, ?_, haccident, ?_⟩
        · rw [hsource, hrest, flatten_cons, append_assoc]
        · simpa [utf16Form, Nat.add_assoc] using hle
      obtain ⟨ws, hws⟩ := ih hc' (by rwa [length_append])
      exact ⟨_, hws.cons hsource hbytes hdata⟩
    | accident hsource hbytes => exact absurd ⟨_, _, hbytes, hsource⟩ (hstart ht hc)
  | case3 s hne result hs =>
    have hr := hs ▸ round_convertSequence capacity strict hne
    refine ⟨[], ?_⟩
    cases hr with
    | full hsource hbytes hfull => exact .stay ht ⟨_, _, hbytes, hsource, hfull⟩
    | exhausted hlength => exact .stay ht ⟨hlength, hne, not_startsSequence_of_length hlength⟩
    | illegal h => exact .stay ht ⟨hne, h⟩
    | accidentFull h => exact absurd h (hstart ht hc)

theorem suffix_convertLoop (capacity : ℕ) (strict : Bool) (s : ConversionState) :
    (s.convertLoop capacity strict).2.source <:+ s.source := by
  fun_induction convertLoop capacity strict s with
  | case1 s hn => exact suffix_rfl
  | case2 s hne s' hs ih =>
    have hr := hs ▸ round_convertSequence capacity strict hne
    cases hr with
    | converted hsource | accident hsource =>
      rw [hsource]
      exact ih.trans (suffix_append _ _)
  | case3 s hne result hs =>
    have hr := hs ▸ round_convertSequence capacity strict hne
    cases hr <;> exact suffix_rfl

/-- The run has taken an accidental sequence for a character, or it has stopped there because the target
was full. -/
theorem strays_of_meetsAccident (capacity : ℕ) (strict : Bool) (s : ConversionState)
    (h : MeetsAccident capacity s.target.length s.source) :
    ∃ (ws : List (List UInt8)) (bytes rest : List UInt8), (∀ w ∈ ws, IsSequence w) ∧ Accidental bytes ∧
      s.source = ws.flatten ++ (bytes ++ rest) ∧
      ((s.convertLoop capacity strict).2.source <:+ rest ∨
        (s.convertLoop capacity strict).1 = .targetExhausted ∧
          (s.convertLoop capacity strict).2.source = bytes ++ rest) := by
  obtain ⟨ws, bytes, rest, hws, hsource, hbytes, hle⟩ := h
  refine ⟨ws, bytes, rest, hws, hbytes, hsource, ?_⟩
  induction ws generalizing s with
  | nil =>
    rw [flatten_nil, nil_append] at hsource
    have hstart : StartsAccident s.source := ⟨bytes, rest, hbytes, hsource⟩
    have hno := not_startsSequence_of_startsAccident hstart
    have hne : s.source ≠ [] := by
      rw [hsource]
      rintro hnil
      rw [(append_eq_nil_iff.mp hnil).1] at hbytes
      exact hbytes
    have hr := round_convertSequence capacity strict hne
    generalize hs : s.convertSequence capacity strict = result at hr
    cases hr with
    | converted hsource' hbytes' | full hsource' hbytes' => exact absurd ⟨_, _, hbytes', hsource'⟩ hno
    | exhausted hlength => exact absurd hstart (not_startsAccident_of_length hlength)
    | illegal _ ha => exact absurd hstart ha
    | @accident bytes' s' hsource' hbytes' =>
      left
      have hlength := inlineUTF8SequenceLength_of_accidental hbytes' s'.source
      rw [← hsource', hsource, inlineUTF8SequenceLength_of_accidental hbytes] at hlength
      obtain ⟨-, hrest⟩ := append_inj (hsource.symm.trans hsource') hlength
      rw [convertLoop_of_inl capacity strict hne hs, hrest]
      exact suffix_convertLoop capacity strict s'
    | accidentFull =>
      right
      rw [convertLoop_of_inr capacity strict hne hs]
      exact ⟨rfl, hsource⟩
  | cons w ws ih =>
    obtain ⟨hw, hws⟩ := forall_mem_cons.mp hws
    rw [flatten_cons, append_assoc] at hsource
    have hstart : StartsSequence s.source := ⟨w, _, hw, hsource⟩
    have hne : s.source ≠ [] := by
      rw [hsource]
      exact append_ne_nil_of_left_ne_nil (prefixCode.ne_nil hw) _
    have hunits : utf16Form (w :: ws) = utf16 (character w) ++ utf16Form ws := rfl
    rw [hunits, length_append] at hle
    have hr := round_convertSequence capacity strict hne
    generalize hs : s.convertSequence capacity strict = result at hr
    cases hr with
    | @converted bytes' rest' orAllData hsource' hbytes' =>
      obtain rfl := prefixCode.eq_of_append hw hbytes' (hsource.symm.trans hsource')
      rw [convertLoop_of_inl capacity strict hne hs]
      refine ih _ hws (append_cancel_left (hsource'.symm.trans hsource)) ?_
      rw [length_append]
      omega
    | full hsource' hbytes' hfull =>
      obtain rfl := prefixCode.eq_of_append hw hbytes' (hsource.symm.trans hsource')
      omega
    | exhausted hlength => exact absurd hstart (not_startsSequence_of_length hlength)
    | illegal h => exact absurd hstart h
    | accident hsource' hbytes' =>
      exact absurd hstart (not_startsSequence_of_startsAccident ⟨_, _, hbytes', hsource'⟩)
    | accidentFull h => exact absurd hstart (not_startsSequence_of_startsAccident h)

/-- The loop ends without an error exactly if the source is well formed and its form fits. -/
theorem Run.conversionOK_iff (h : Run capacity s final ws) : final.1 = .conversionOK ↔
      ∃ us, Factors IsSequence us s.source ∧ s.target.length+(utf16Form us).length ≤ capacity := by
  have hfits := h.fits
  rw [h.target,length_append] at hfits
  obtain ⟨result,final⟩ := final
  have hs := h.stopped
  have hr : ∀ us, Factors IsSequence us s.source →
      ∃ vs, us = ws++vs ∧ Factors IsSequence vs final.source := by
    intro us hus
    rw [h.source] at hus
    exact hus.of_flatten_append prefixCode h.sequences
  have hn : final.source ≠ [] → ¬StartsSequence final.source →
      ¬ ∃ us, Factors IsSequence us s.source ∧
        s.target.length+(utf16Form us).length ≤ capacity := by
    rintro hne hstart ⟨us,hus,-⟩
    obtain ⟨vs,rfl,hvs⟩ := hr us hus
    cases vs with
    | nil => exact hne hvs.2.symm
    | cons v vs =>
      exact hstart ⟨v,vs.flatten,hvs.1 v mem_cons_self,hvs.2.symm⟩
  cases result with
  | conversionOK =>
    refine iff_of_true rfl ⟨ws,⟨h.sequences,?_⟩,hfits⟩
    rw [h.source,show final.source = [] from hs,append_nil]
  | sourceExhausted => exact iff_of_false nofun (hn hs.2.1 hs.2.2)
  | sourceIllegal => exact iff_of_false nofun (hn hs.1 hs.2)
  | targetExhausted =>
    refine iff_of_false nofun ?_
    rintro ⟨us,hus,hle⟩
    obtain ⟨vs,rfl,hvs⟩ := hr us hus
    obtain ⟨bytes,rest,hbytes,hsource,hfull⟩ := hs
    rw [hsource] at hvs
    obtain ⟨vs',rfl,-⟩ := hvs.of_append prefixCode hbytes
    rw [h.target,length_append] at hfull
    simp only [utf16Form,flatMap_append,flatMap_cons,length_append]
      at hle hfull
    omega

end ConversionState

section Decode
variable {memory : ℕ → UInt8} {bytes : List UInt8}

/-- The bytes that the first one announces. -/
def announced (memory : ℕ → UInt8) : List UInt8 :=
  (List.range (inlineUTF8SequenceLength (memory 0))).map memory

theorem toNat_and_mask {k : ℕ} (b mask : UInt8) (h : mask.toNat = 2^k-1) :
    (b &&& mask).toNat = b.toNat % 2^k := by
  rw [UInt8.toNat_and,h]
  exact and_two_pow_sub_one_eq_mod _ _

/-- The bits of a trailing byte behind those before it. -/
theorem or_tail (n : ℕ) (b : UInt8) : n <<< 6 ||| (b &&& 0x3F).toNat = n*0x40+b.toNat % 0x40 := by
  rw [toNat_and_mask (k := 6) b 0x3F rfl,← shiftLeft_add_eq_or_of_lt (mod_lt _ (by decide)),
    shiftLeft_eq]

theorem or_tail_shift (n k : ℕ) (b : UInt8) :
    n <<< (k+6) ||| (b &&& 0x3F).toNat <<< k = (n*0x40+b.toNat % 0x40) <<< k := by
  rw [← or_tail,Nat.shiftLeft_or_distrib,← shiftLeft_add,Nat.add_comm]

/-- The value is the character of a sequence with a zero behind it, or the bytes are not such. -/
def Decodes (bytes : List UInt8) (next : UInt8) (value : ℤ) : Prop :=
  IsSequence bytes ∧ next = 0 ∧ value = character bytes ∨
    ¬ (IsSequence bytes ∧ next = 0) ∧ value = -1

theorem decodes_of_next_ne {next : UInt8} {value : ℤ} (h : next ≠ 0)
    (hv : value = -1) : Decodes bytes next value :=
  .inr ⟨fun hbytes => h hbytes.2,hv⟩

theorem decodes_one (h : inlineUTF8SequenceLength (memory 0) = 1) (ha : (memory 0).toNat < 0x80) :
    Decodes [memory 0] (memory 1) (decodeUTF8Sequence memory) := by
  simp only [decodeUTF8Sequence,h,ne_eq,one_ne_zero,if_false,if_true,ite_not]
  by_cases hz : memory 1 = 0
  · rw [if_pos hz]
    exact .inl ⟨isSequence_one.mpr ha,hz,rfl⟩
  · exact decodes_of_next_ne hz (if_neg hz)

theorem decodes_two (h : inlineUTF8SequenceLength (memory 0) = 2) (ha : 0xC0 ≤ (memory 0).toNat)
    (ha' : (memory 0).toNat < 0xE0) :
    Decodes [memory 0,memory 1] (memory 2) (decodeUTF8Sequence memory) := by
  simp only [decodeUTF8Sequence,h,or_tail,toNat_and_mask (k := 5) _ 0x1F rfl,ne_eq,
    OfNat.ofNat_ne_zero,OfNat.ofNat_ne_one,if_false,if_true,ite_not,and_C0_eq_iff]
  by_cases hz : memory 2 = 0
  · simp only [hz,if_true,Decodes,isSequence_two,character_two,IsTail,InRange,true_and,and_true]
    split_ifs <;> omega
  · refine decodes_of_next_ne hz ?_
    simp [hz]

theorem decodes_three (h : inlineUTF8SequenceLength (memory 0) = 3) (ha : 0xE0 ≤ (memory 0).toNat)
    (ha' : (memory 0).toNat < 0xF0) :
    Decodes [memory 0,memory 1,memory 2] (memory 3) (decodeUTF8Sequence memory) := by
  simp only [decodeUTF8Sequence,h,or_tail_shift _ 6,or_tail,toNat_and_mask (k := 4) _ 0xF rfl,
    ne_eq,OfNat.ofNat_ne_zero,OfNat.ofNat_ne_one,if_false,if_true,ite_not,and_C0_eq_iff,
    Nat.reduceEqDiff]
  by_cases hz : memory 3 = 0
  · simp only [hz,if_true,Decodes,isSequence_three,character_three,IsTail,InRange,true_and,and_true]
    split_ifs <;> omega
  · refine decodes_of_next_ne hz ?_
    simp [hz]

theorem decodes_four (h : inlineUTF8SequenceLength (memory 0) = 4) (ha : 0xF0 ≤ (memory 0).toNat)
    (ha' : (memory 0).toNat < 0xF8) :
    Decodes [memory 0,memory 1,memory 2,memory 3] (memory 4) (decodeUTF8Sequence memory) := by
  simp only [decodeUTF8Sequence,h,or_tail_shift _ 12,or_tail_shift _ 6,or_tail,
    toNat_and_mask (k := 3) _ 0x7 rfl,ne_eq,OfNat.ofNat_ne_zero,OfNat.ofNat_ne_one,if_false,
    if_true,ite_not,and_C0_eq_iff,Nat.reduceEqDiff]
  by_cases hz : memory 4 = 0
  · simp only [hz,if_true,Decodes,isSequence_four,character_four,IsTail,InRange,true_and,and_true]
    split_ifs <;> omega
  · refine decodes_of_next_ne hz ?_
    simp [hz]

/-- `decodeUTF8Sequence` accepts a sequence with a zero behind it, and nothing else. -/
theorem decodes_announced (memory : ℕ → UInt8) :
    Decodes (announced memory) (memory (announced memory).length) (decodeUTF8Sequence memory) := by
  have hlength := inlineUTF8SequenceLength_eq (memory 0)
  have hn : inlineUTF8SequenceLength (memory 0) = 0 →
      Decodes (announced memory) (memory (announced memory).length)
        (decodeUTF8Sequence memory) := by
    intro h
    refine .inr ⟨fun hbytes => ?_,by simp [decodeUTF8Sequence,h]⟩
    rw [announced,h] at hbytes
    exact isSequence_nil hbytes.1
  split_ifs at hlength with h1 h2 h3 h4 h5
  · rw [announced,hlength]
    exact decodes_one hlength h1
  · exact hn hlength
  · rw [announced,hlength]
    exact decodes_two hlength (by omega) h3
  · rw [announced,hlength]
    exact decodes_three hlength (by omega) h4
  · rw [announced,hlength]
    exact decodes_four hlength (by omega) h5
  · exact hn hlength

/-- The bytes are in the memory, with a zero behind them. -/
def HoldsTerminated (memory : ℕ → UInt8) (bytes : List UInt8) : Prop :=
  (∀ i < bytes.length, memory i = byteAt bytes i) ∧ memory bytes.length = 0

theorem announced_eq (hne : bytes ≠ [])
    (hlength : inlineUTF8SequenceLength (byteAt bytes 0) = bytes.length)
    (h : HoldsTerminated memory bytes) : announced memory = bytes := by
  have h0 : memory 0 = byteAt bytes 0 := h.1 0 (length_pos_of_ne_nil hne)
  refine ext_getElem (by simp [announced,h0,hlength]) fun i _ hi => ?_
  simp only [announced,getElem_map,getElem_range]
  rw [h.1 i hi,byteAt,getD_eq_getElem _ _ hi]

theorem decodeUTF8Sequence_ne_iff (hne : bytes ≠ [])
    (hlength : inlineUTF8SequenceLength (byteAt bytes 0) = bytes.length)
    (h : HoldsTerminated memory bytes) : decodeUTF8Sequence memory ≠ -1 ↔ IsSequence bytes := by
  have hd := decodes_announced memory
  rw [announced_eq hne hlength h] at hd
  rcases hd with ⟨hbytes,-,hv⟩ | ⟨hbytes,hv⟩
  · exact iff_of_true (by omega) hbytes
  · exact iff_of_false (not_not_intro hv) fun hs => hbytes ⟨hs,h.2⟩

end Decode

theorem length_utf16_le (c : ℕ) : (utf16 c).length ≤ 2 := by
  unfold utf16
  split
  · exact le_succ 1
  · exact Nat.le_refl 2

/-- A text of the length that its first byte announces is cut into one sequence. -/
theorem factors_announced_iff {bytes : List UInt8} (hne : bytes ≠ [])
    (hlength : inlineUTF8SequenceLength (byteAt bytes 0) = bytes.length) :
    (∃ us, Factors IsSequence us bytes ∧ (utf16Form us).length ≤ 2) ↔ IsSequence bytes := by
  constructor
  · rintro ⟨us,hus,-⟩
    cases us with
    | nil => exact absurd hus.2.symm hne
    | cons w us =>
      have hw := hus.1 w mem_cons_self
      have hf : w++us.flatten = bytes := hus.2
      have hs : w.length = bytes.length := by
        rw [← hlength,← hf,inlineUTF8SequenceLength_of_isSequence hw]
      have heq : w = bytes := by
        rw [← hf] at hs ⊢
        rw [length_append,Nat.left_eq_add,length_eq_zero_iff] at hs
        rw [hs,append_nil]
      exact heq ▸ hw
  · intro h
    refine ⟨[bytes],⟨by simpa using h,by simp⟩,?_⟩
    rw [utf16Form,flatMap_singleton]
    exact length_utf16_le _

theorem run_convertUTF8ToUTF16 (source : List UInt8) (capacity : ℕ) (strict : Bool)
    (hc : ¬MeetsAccident capacity 0 source) :
    ∃ ws, ConversionState.Run capacity ⟨source, [], 0⟩
      (ConversionState.convertLoop capacity strict ⟨source, [], 0⟩) ws :=
  ConversionState.run_convertLoop capacity strict ⟨source, [], 0⟩ hc (Nat.zero_le _)

/-- The conversion succeeds exactly on well-formed bytes whose UTF-16 form fits. -/
theorem conversionOK_iff {source : List UInt8} (capacity : ℕ) (strict : Bool)
    (hc : ¬MeetsAccident capacity 0 source) :
    (convertUTF8ToUTF16 source capacity strict).result = .conversionOK ↔
      ∃ us, Factors IsSequence us source ∧ (utf16Form us).length ≤ capacity := by
  obtain ⟨ws, hr⟩ := run_convertUTF8ToUTF16 source capacity strict hc
  have hi := hr.conversionOK_iff
  simp only [length_nil, Nat.zero_add] at hi
  exact hi

/-- A source that is one announced sequence meets an accident for every capacity if for one. -/
theorem not_meetsAccident_of_announced {source : List UInt8} {capacity : ℕ}
    (hlength : inlineUTF8SequenceLength (byteAt source 0) = source.length)
    (hc : ¬MeetsAccident capacity 0 source) (n : ℕ) : ¬MeetsAccident n 0 source := by
  rintro ⟨ws, bytes, rest, hws, hsource, hbytes, -⟩
  cases ws with
  | nil => exact hc ⟨[], bytes, rest, nofun, hsource, hbytes, Nat.zero_le _⟩
  | cons w ws =>
    -- the first sequence is the whole source
    rw [flatten_cons, append_assoc] at hsource
    rw [hsource, inlineUTF8SequenceLength_of_isSequence (hws w mem_cons_self), length_append,
      length_append, length_append] at hlength
    have hnil : bytes = [] := length_eq_zero_iff.mp (by omega)
    exact (hnil ▸ hbytes : Accidental [])

/-- Decoding is exact: the result, the units written, the rest of the source and the flag are those of
the table of well-formed sequences, and what is accepted as one sequence is what `decodeUTF8Sequence`
accepts.  This is so exactly if what follows the well-formed sequences that fit is not one that the
legality test accepts by accident. -/
theorem convertUTF8ToUTF16_exact_iff (source : List UInt8) (capacity : ℕ) (strict : Bool) :
    let conversion := convertUTF8ToUTF16 source capacity strict
    ((conversion.result = .conversionOK ↔
      ∃ ws, Factors IsSequence ws source ∧ (utf16Form ws).length ≤ capacity) ∧
    (∃ ws, (∀ w ∈ ws, IsSequence w) ∧ source = ws.flatten ++ conversion.source ∧
      conversion.target = utf16Form ws ∧ conversion.target.length ≤ capacity ∧
      (conversion.sourceAllASCII = true ↔ ∀ b ∈ ws.flatten, b.toNat < 0x80)) ∧
    ConversionState.Stopped capacity conversion.result conversion.source conversion.target ∧
    (∀ memory, source ≠ [] → inlineUTF8SequenceLength (byteAt source 0) = source.length →
      HoldsTerminated memory source →
      (decodeUTF8Sequence memory ≠ -1 ↔
        (convertUTF8ToUTF16 source 2 strict).result = .conversionOK))) ↔
    ¬MeetsAccident capacity 0 source := by
  intro conversion
  constructor
  · rintro ⟨-, ⟨us, hus, hsource, -⟩, hstopped, -⟩ hmeets
    obtain ⟨ws, bytes, rest, hws, hbytes, hsource', hrest | ⟨hresult, hrest⟩⟩ :=
      ConversionState.strays_of_meetsAccident capacity strict ⟨source, [], 0⟩ hmeets
    · -- the bytes consumed cannot be cut into sequences
      obtain ⟨between, hbetween⟩ := hrest
      have heq : us.flatten ++ conversion.source =
          (ws.flatten ++ (bytes ++ between)) ++ conversion.source := by
        rw [← hsource, append_assoc, append_assoc]
        exact hsource'.trans (by rw [← hbetween]; rfl)
      obtain ⟨vs, rfl, hvs, hf⟩ := Factors.of_flatten_append prefixCode hws
        (show Factors IsSequence us _ from ⟨hus, append_cancel_right heq⟩)
      cases vs with
      | nil =>
        rw [(append_eq_nil_iff.mp hf.symm).1] at hbytes
        exact hbytes
      | cons v vs =>
        exact not_startsSequence_of_startsAccident ⟨bytes, between, hbytes, rfl⟩
          ⟨v, vs.flatten, hvs v mem_cons_self, hf.symm⟩
    · rw [show conversion.result = .targetExhausted from hresult] at hstopped
      obtain ⟨w, rest', hw, hsource'', -⟩ := hstopped
      exact not_startsSequence_of_startsAccident ⟨bytes, rest, hbytes, hrest⟩ ⟨w, rest', hw, hsource''⟩
  · intro hclean
    obtain ⟨ws, hr⟩ := run_convertUTF8ToUTF16 source capacity strict hclean
    refine ⟨conversionOK_iff capacity strict hclean, ⟨ws, hr.sequences, hr.source, ?_, hr.fits, ?_⟩,
      hr.stopped, ?_⟩
    · exact hr.target
    · have ha := hr.ascii
      simp only [UInt16.reduceToNat, ofNat_pos, true_and] at ha
      rw [← ha, ← and_not_7F_eq_zero_iff]
      exact decide_eq_true_iff
    · intro memory hne hlength hm
      rw [decodeUTF8Sequence_ne_iff hne hlength hm,
        conversionOK_iff 2 strict (not_meetsAccident_of_announced hlength hclean 2),
        factors_announced_iff hne hlength]

/-- Behind the byte that stops the conversion an accidental sequence does no harm. -/
theorem convertUTF8ToUTF16_exact_iff_stopped :
    ConversionState.Stopped 2 (convertUTF8ToUTF16 [0xFF, 0xED, 0x41, 0x80] 2 true).result
      (convertUTF8ToUTF16 [0xFF, 0xED, 0x41, 0x80] 2 true).source
      (convertUTF8ToUTF16 [0xFF, 0xED, 0x41, 0x80] 2 true).target := by
  refine ((convertUTF8ToUTF16_exact_iff [0xFF, 0xED, 0x41, 0x80] 2 true).mpr ?_).2.2.1
  have hlength : inlineUTF8SequenceLength 0xFF = 0 := by decide
  rintro ⟨ws, bytes, rest, hws, hsource, hbytes, -⟩
  cases ws with
  | nil =>
    have hb := inlineUTF8SequenceLength_of_accidental hbytes rest
    rw [show bytes ++ rest = [0xFF, 0xED, 0x41, 0x80] from hsource.symm] at hb
    have hnil : bytes = [] := length_eq_zero_iff.mp (hb.symm.trans hlength)
    exact (hnil ▸ hbytes : Accidental [])
  | cons w ws =>
    have hw := hws w mem_cons_self
    have hb := inlineUTF8SequenceLength_of_isSequence hw (ws.flatten ++ (bytes ++ rest))
    rw [← append_assoc, ← flatten_cons, ← hsource] at hb
    exact prefixCode.ne_nil hw (length_eq_zero_iff.mp (hb.symm.trans hlength))

/-- The second byte is a letter: strict conversion makes one unit of the three bytes. -/
theorem ill_formed_sequence_converted :
    convertUTF8ToUTF16 [0xED, 0x41, 0x80] 1 true = ⟨.conversionOK, [], [0xC040], false⟩ ∧
      (¬ ∃ ws, Factors IsSequence ws [0xED, 0x41, 0x80]) ∧
      HoldsTerminated (byteAt [0xED, 0x41, 0x80]) [0xED, 0x41, 0x80] ∧
      decodeUTF8Sequence (byteAt [0xED, 0x41, 0x80]) = -1 := by
  refine ⟨?_,?_,⟨fun _ _ => rfl,rfl⟩,by decide⟩
  · have hs : (⟨[0xED,0x41,0x80],[],0⟩ : ConversionState).convertSequence 1 true =
        .inl ⟨[],[0xC040],0xC040⟩ := by decide
    rw [convertUTF8ToUTF16,ConversionState.convertLoop_of_inl 1 true (by decide) hs,
      ConversionState.convertLoop_nil 1 true rfl]
    decide
  · rintro ⟨ws,hws,hf⟩
    cases ws with
    | nil => cases hf
    | cons w ws =>
      have hw := hws w mem_cons_self
      have hlength : w.length = 3 := by
        rw [← inlineUTF8SequenceLength_of_isSequence hw ws.flatten,← flatten_cons,hf]
        decide
      have heq : w = [0xED,0x41,0x80] := by
        have ht := congrArg (List.take w.length) hf
        rwa [flatten_cons,take_left,hlength] at ht
      rw [heq,isSequence_three] at hw
      revert hw
      decide

end QPlusWeb.WTF.Unicode
