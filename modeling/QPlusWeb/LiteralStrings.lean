import QPlusWeb.JSONGrammar
import QPlusWeb.ListScans

/-!
# The strings that the lexer reads

A round of `lexString` takes a run of safe characters and an escape sequence.  Together the rounds read
exactly the strings of the grammar, with the characters and the escapes of the mode.
-/

namespace QPlusWeb.JSC

open JSON List UInt16 Nat

/-! ### Hexadecimal digits -/

/-- The character is between `first` and `last`, and its value is the distance from `first`. -/
def InHexRange (first last : Char) (offset : ℕ) (c : UInt16) : Prop :=
  ch first ≤ c ∧ c ≤ ch last ∧ c.toNat - (ch first).toNat + offset < 16 ∧
    toASCIIHexValue c = UInt16.ofNat (c.toNat - (ch first).toNat + offset)

/-- The three ranges of hexadecimal digits. -/
def HasHexValue (c : UInt16) : Prop :=
  InHexRange '0' '9' 0 c ∨ InHexRange 'a' 'f' 10 c ∨ InHexRange 'A' 'F' 10 c

instance (first last : Char) (offset : ℕ) (c : UInt16) :
    Decidable (InHexRange first last offset c) :=
  inferInstanceAs (Decidable (_ ∧ _))

instance (c : UInt16) : Decidable (HasHexValue c) := inferInstanceAs (Decidable (_ ∨ _))

variable {c c1 c2 e terminator : UInt16} {n1 n2 n : ℕ} {mode : ParserMode} 
  {ptr rest after run s text value builder : UString}

theorem toNat_lt_of_isASCIIHexDigit (h : isASCIIHexDigit c) : c.toNat < 128 := by
  have hn : (ch '9').toNat = 57 := rfl
  have hf : (ch 'f').toNat = 102 := rfl
  have hle : c.toNat ≤ (c ||| 0x20).toNat := by
    exact Nat.left_le_or
  simp only [isASCIIHexDigit,isASCIIDigit,Bool.or_eq_true,Bool.and_eq_true,decide_eq_true_eq,
    le_iff_toNat_le] at h
  omega

theorem hexDigit_of_isASCIIHexDigit (h : isASCIIHexDigit c) : ∃ n, HexDigit c n := by
  have hall : ∀ n < 128, isASCIIHexDigit (UInt16.ofNat n) → HasHexValue (UInt16.ofNat n) := by
    decide
  have hc := hall c.toNat (toNat_lt_of_isASCIIHexDigit h)
  rw [UInt16.ofNat_toNat] at hc
  rcases hc h with ⟨h0,h9,-⟩ | ⟨ha,hf,-⟩ | ⟨ha,hf,-⟩
  · exact ⟨_,.decimal h0 h9⟩
  · exact ⟨_,.lower ha hf⟩
  · exact ⟨_,.upper ha hf⟩

theorem hexDigit_toNat_lt (h : HexDigit c n) : c.toNat < 128 := by
  have hn : (ch '9').toNat = 57 := rfl
  have hf : (ch 'f').toNat = 102 := rfl
  have hF : (ch 'F').toNat = 70 := rfl
  cases h with
  | decimal _ hle | lower _ hle | upper _ hle => rw [le_iff_toNat_le] at hle; omega

theorem hexDigit_value (h : HexDigit c n) :
    isASCIIHexDigit c ∧ n < 16 ∧ toASCIIHexValue c = UInt16.ofNat n := by
  have ha : ∀ n < 128, ∀ range ∈ [('0','9',0),('a','f',10),('A','F',10)],
      ch range.1 ≤ UInt16.ofNat n → UInt16.ofNat n ≤ ch range.2.1 →
        isASCIIHexDigit (UInt16.ofNat n) ∧
          InHexRange range.1 range.2.1 range.2.2 (UInt16.ofNat n) := by
    decide
  have hr := ha c.toNat (hexDigit_toNat_lt h)
  rw [UInt16.ofNat_toNat] at hr
  cases h with
  | decimal hge hle =>
    obtain ⟨hh,-,-,hlt,hv⟩ := hr ('0','9',0) (by simp) hge hle
    exact ⟨hh,hlt,hv⟩
  | lower hge hle =>
    obtain ⟨hh,-,-,hlt,hv⟩ := hr ('a','f',10) (by simp) hge hle
    exact ⟨hh,hlt,hv⟩
  | upper hge hle =>
    obtain ⟨hh,-,-,hlt,hv⟩ := hr ('A','F',10) (by simp) hge hle
    exact ⟨hh,hlt,hv⟩

theorem convertHex_toNat (h1 : toASCIIHexValue c1 = UInt16.ofNat n1)
    (h2 : toASCIIHexValue c2 = UInt16.ofNat n2) (hlt1 : n1 < 16) (hlt2 : n2 < 16) :
    (convertHex c1 c2).toNat = n1*16+n2 := by
  have hn1 : (UInt16.ofNat n1).toNat = n1 := toNat_ofNat_of_lt' (by rw [UInt16.size]; omega)
  have hn2 : (UInt16.ofNat n2).toNat = n2 := toNat_ofNat_of_lt' (by rw [UInt16.size]; omega)
  have hs : (n1 <<< 4) % 2^16 = n1 <<< 4 := by
    omega
  have hor : n1 <<< 4 ||| n2 = n1*16+n2 := by
    rw [← shiftLeft_add_eq_or_of_lt (by omega),shiftLeft_eq]
  rw [convertHex,h1,h2,UInt16.toNat_and,UInt16.toNat_or,UInt16.toNat_shiftLeft,hn1,hn2]
  change ((n1 <<< 4) % 2^16 ||| n2) &&& (2^8-1) = _
  rw [hs,hor,and_two_pow_sub_one_eq_mod]
  omega

theorem convertUnicode_eq {c3 c4 : UInt16} {n3 n4 : ℕ} (h1 : HexDigit c1 n1)
    (h2 : HexDigit c2 n2) (h3 : HexDigit c3 n3) (h4 : HexDigit c4 n4) :
    convertUnicode c1 c2 c3 c4 = UInt16.ofNat (((n1*16+n2)*16+n3)*16+n4) := by
  obtain ⟨-,hlt1,hv1⟩ := hexDigit_value h1
  obtain ⟨-,hlt2,hv2⟩ := hexDigit_value h2
  obtain ⟨-,hlt3,hv3⟩ := hexDigit_value h3
  obtain ⟨-,hlt4,hv4⟩ := hexDigit_value h4
  have hh := convertHex_toNat hv1 hv2 hlt1 hlt2
  have hl := convertHex_toNat hv3 hv4 hlt3 hlt4
  have hs : ((n1*16+n2) <<< 8) % 2^16 = (n1*16+n2) <<< 8 := by
    omega
  refine UInt16.toNat_inj.mp ?_
  rw [convertUnicode,UInt16.toNat_or,UInt16.toNat_shiftLeft,hh,hl,
    toNat_ofNat_of_lt' (by rw [UInt16.size]; omega)]
  change ((n1*16+n2) <<< 8) % 2^16 ||| (n3*16+n4) = _
  rw [hs,← shiftLeft_add_eq_or_of_lt (by omega),shiftLeft_eq]
  omega

/-! ### Escape sequences -/

/-- The escapes of a mode. -/
def escapesOf (mode : ParserMode) : List (UInt16 × UInt16) :=
  if mode = .strictJSON then escapeCharacters else escapeCharacters ++ [(apostrophe, apostrophe)]

theorem simpleEscape_iff : simpleEscape mode e = some c ↔ (e,c) ∈ escapesOf mode := by
  constructor
  · intro h
    unfold simpleEscape at h
    unfold escapesOf
    split_ifs at h <;> simp_all [escapeCharacters] <;> split <;> simp
  · intro h
    have hp : ((escapesOf mode).all fun p => simpleEscape mode p.1 = some p.2) = true := by
      cases mode <;> decide
    simpa using all_eq_true.mp hp _ h

theorem simpleEscape_u (mode : ParserMode) : simpleEscape mode (ch 'u') = none := by
  cases mode <;> rfl

/-- A string of the mode, without its quotes. -/
abbrev LiteralText (mode : ParserMode) (terminator : UInt16) : UString → UString → Prop :=
  StringText (isSafeStringCharacter mode terminator · = true) (escapesOf mode)

theorem lexEscape_sound (terminator : UInt16) (h : lexEscape mode ptr = .ok (c,rest)) :
    ∃ escape, ptr = escape++rest ∧ ∀ text value, LiteralText mode terminator text value →
      LiteralText mode terminator (backslash::(escape++text)) (c::value) := by
  cases ptr with
  | nil => cases h
  | cons e ptr =>
    simp only [lexEscape] at h
    split at h
    next c' hs =>
      cases h
      exact ⟨[e],rfl,fun text value ht => .escape (simpleEscape_iff.mp hs) ht⟩
    next =>
      split at h
      next hu =>
        obtain ⟨c1,c2,c3,c4,rfl,hh,rfl⟩ := lexUnicodeEscape_eq_ok h
        simp only [all_cons,all_nil,Bool.and_true,Bool.and_eq_true] at hh
        obtain ⟨n1,h1⟩ := hexDigit_of_isASCIIHexDigit hh.1
        obtain ⟨n2,h2⟩ := hexDigit_of_isASCIIHexDigit hh.2.1
        obtain ⟨n3,h3⟩ := hexDigit_of_isASCIIHexDigit hh.2.2.1
        obtain ⟨n4,h4⟩ := hexDigit_of_isASCIIHexDigit hh.2.2.2
        refine ⟨[e,c1,c2,c3,c4],rfl,fun text value ht => ?_⟩
        rw [convertUnicode_eq h1 h2 h3 h4,hu]
        exact .unicode h1 h2 h3 h4 ht
      next => cases h

theorem lexEscape_simple (h : (e,c) ∈ escapesOf mode)
    (rest : UString) : lexEscape mode (e::rest) = .ok (c,rest) := by
  simp [lexEscape,simpleEscape_iff.mpr h]

theorem lexEscape_unicode {c3 c4 : UInt16} {n3 n4 : ℕ} (h1 : HexDigit c1 n1)
    (h2 : HexDigit c2 n2) (h3 : HexDigit c3 n3) (h4 : HexDigit c4 n4) (mode : ParserMode)
    (rest : UString) :
    lexEscape mode (ch 'u'::c1::c2::c3::c4::rest) =
      .ok (UInt16.ofNat (((n1*16+n2)*16+n3)*16+n4),rest) := by
  have hh : [c1,c2,c3,c4].all isASCIIHexDigit := by
    simp [(hexDigit_value h1).1,(hexDigit_value h2).1,(hexDigit_value h3).1,(hexDigit_value h4).1]
  simp only [lexEscape,simpleEscape_u,if_true,lexUnicodeEscape,if_pos hh,
    convertUnicode_eq h1 h2 h3 h4]

/-! ### The loop -/

theorem isSafeStringCharacter_backslash (mode : ParserMode) (terminator : UInt16) :
    isSafeStringCharacter mode terminator backslash = false := by
  simp [isSafeStringCharacter,backslash]

theorem isSafeStringCharacter_terminator
    (h : terminator ≠ 0x9) : isSafeStringCharacter mode terminator terminator = false := by
  simp [isSafeStringCharacter,h]

theorem literalText_append (hr : ∀ c ∈ run, isSafeStringCharacter mode terminator c)
    (h : LiteralText mode terminator text value) :
    LiteralText mode terminator (run++text) (run++value) := by
  induction run with
  | nil => exact h
  | cons c run ih =>
    exact .char (hr c (.head _)) (ih fun c' hc' => hr c' (.tail _ hc'))

/-- The longest run of safe characters at the start of a string. -/
theorem literalText_run (h : LiteralText mode terminator text value) :
    ∃ run text' value', text = run++text' ∧ value = run++value' ∧
      (∀ c ∈ run, isSafeStringCharacter mode terminator c) ∧
      LiteralText mode terminator text' value' ∧ (text' = [] ∨ text'.head? = some backslash) := by
  induction h with
  | nil => exact ⟨[],[],[],rfl,rfl,by simp,.nil,.inl rfl⟩
  | @char c text value hc _ ih =>
    obtain ⟨run,text',value',rfl,rfl,hr,ht,hh⟩ := ih
    exact ⟨c::run,text',value',rfl,rfl,forall_mem_cons.mpr ⟨hc,hr⟩,ht,hh⟩
  | escape he ht _ => exact ⟨[],_,_,rfl,rfl,by simp,.escape he ht,.inr rfl⟩
  | unicode h1 h2 h3 h4 ht _ => exact ⟨[],_,_,rfl,rfl,by simp,.unicode h1 h2 h3 h4 ht,.inr rfl⟩

/-- A round that starts at a character it cannot read is the last one. -/
theorem lexStringFrom_stuck
    (hs : isSafeStringCharacter mode terminator c = false) (hb : c ≠ backslash)
    (ht : c ≠ terminator) :
    lexStringFrom mode terminator builder (c::rest) = .error "Unterminated string" := by
  rw [lexStringFrom]
  simp [hs,hb,ht,finishString]

theorem finishString_eq_ok (h : finishString terminator builder run ptr = .ok (s,rest)) :
    ptr = terminator::rest ∧ s = if builder = [] then run else builder := by
  cases ptr with
  | nil => cases h
  | cons c ptr =>
    simp only [finishString] at h
    split at h
    next hc =>
      simp only [Except.ok.injEq,Prod.mk.injEq] at h
      rw [hc,h.1,h.2]
      exact ⟨rfl,rfl⟩
    next => cases h

theorem exists_escape_of_round
    (hb : (ptr.dropWhile (isSafeStringCharacter mode terminator)).head? = some backslash)
    (he : lexEscape mode (ptr.dropWhile (isSafeStringCharacter mode terminator)).tail =
      .ok (c,after)) :
    ∃ read, ptr = read++after ∧ ∀ text value, LiteralText mode terminator text value →
      LiteralText mode terminator (read++text)
        (ptr.takeWhile (isSafeStringCharacter mode terminator)++c::value) := by
  obtain ⟨escape,htail,hl⟩ := lexEscape_sound terminator he
  refine ⟨ptr.takeWhile (isSafeStringCharacter mode terminator)++backslash::escape,?_,?_⟩
  · rw [append_assoc,cons_append,← htail,cons_head?_tail hb,takeWhile_append_dropWhile]
  · intro text value ht
    rw [append_assoc]
    exact literalText_append (fun _ => mem_takeWhile_imp) (hl text value ht)

/-- What the loop returns is a string of the mode, after what has already been built. -/
theorem lexStringFrom_sound (h : lexStringFrom mode terminator builder ptr = .ok (s,rest)) :
    ∃ text value, ptr = text++terminator::rest ∧ LiteralText mode terminator text value ∧
      s = builder++value := by
  fun_induction lexStringFrom mode terminator builder ptr with
  | case1 => cases h
  | case2 builder ptr run ptr' builder₁ hback builder₂ c after he _ ih =>
    obtain ⟨text,value,rfl,htext,rfl⟩ := ih h
    obtain ⟨read,hp,hl⟩ := exists_escape_of_round hback.2 he
    refine ⟨read++text,run++c::value,?_,hl text value htext,?_⟩
    · rw [append_assoc]
      exact hp
    · by_cases hb : builder = [] <;> simp [builder₂,builder₁,hb]
  | case3 builder ptr run ptr' builder₁ hback builder₂ c after he _ =>
    obtain ⟨rfl,rfl⟩ := finishString_eq_ok h
    obtain ⟨read,hp,hl⟩ := exists_escape_of_round hback.2 he
    have hr := hl [] [] .nil
    rw [append_nil] at hr
    refine ⟨read,run++[c],hp,hr,?_⟩
    by_cases hb : builder = [] <;> simp [builder₂,builder₁,hb]
  | case4 builder ptr run ptr' builder₁ hback hm _ =>
    -- the next round starts at a character that is not safe and ends there
    obtain ⟨hmode,-,hne,ht⟩ := hm
    obtain ⟨c,rest',hp⟩ := exists_cons_of_ne_nil hne
    have hu : isSafeStringCharacter mode terminator c = false :=
      ListScans.head?_dropWhile_eq (congrArg List.head? hp)
    rw [hp] at h ht hback
    have hc : c ≠ backslash := fun hc => hback ⟨hmode,congrArg some hc⟩
    rw [lexStringFrom_stuck hu hc (by simpa using ht)] at h
    cases h
  | case5 builder ptr run ptr' builder₁ hback hm =>
    obtain ⟨hp,rfl⟩ := finishString_eq_ok h
    refine ⟨run,run,?_,?_,?_⟩
    · rw [← hp]
      exact takeWhile_append_dropWhile.symm
    · have hrun : LiteralText mode terminator (run++[]) (run++[]) :=
        literalText_append (fun _ => mem_takeWhile_imp) .nil
      rwa [append_nil] at hrun
    · by_cases hb : builder = [] <;> simp [builder₁,hb]

/-- An escape sequence of a string, as the lexer reads it. -/
theorem literalText_escape (h : LiteralText mode terminator (backslash::text) value) :
    ∃ escape text' c value', text = escape++text' ∧ value = c::value' ∧
      LiteralText mode terminator text' value' ∧
      ∀ rest, lexEscape mode (escape++rest) = .ok (c,rest) := by
  cases h with
  | char hc _ => exact absurd hc (by rw [isSafeStringCharacter_backslash]; simp)
  | @escape e c text value he ht =>
    exact ⟨[e],text,c,value,rfl,rfl,ht,fun rest => lexEscape_simple he rest⟩
  | @unicode c1 c2 c3 c4 _ _ _ _ text value h1 h2 h3 h4 ht =>
    exact ⟨[ch 'u',c1,c2,c3,c4],text,_,value,rfl,rfl,ht,
      fun rest => lexEscape_unicode h1 h2 h3 h4 mode rest⟩

/-- The first character of a string is not its terminator. -/
theorem literalText_head (ht : terminator ≠ 0x9) (hb : terminator ≠ backslash)
    (h : LiteralText mode terminator text value) : text.head? ≠ some terminator := by
  cases h with
  | nil => simp
  | char hc _ =>
    rintro heq
    rw [head?_cons,Option.some.injEq] at heq
    rw [heq,isSafeStringCharacter_terminator ht] at hc
    cases hc
  | escape _ _ | unicode _ _ _ _ _ => simpa using hb.symm

section
variable {mode : ParserMode} {terminator : UInt16} {run : UString}

theorem span_run (hr : ∀ c ∈ run, isSafeStringCharacter mode terminator c)
    (hc : isSafeStringCharacter mode terminator c = false) (rest : UString) :
    (run++c::rest).takeWhile (isSafeStringCharacter mode terminator) = run ∧
      (run++c::rest).dropWhile (isSafeStringCharacter mode terminator) = c::rest := by
  apply ListScans.takeWhile_dropWhile_append hr
  rintro _ ⟨⟩
  exact hc

theorem lexStringFrom_last (hterm : terminator ≠ 0x9) (hbsl : terminator ≠ backslash)
    (hr : ∀ c ∈ run, isSafeStringCharacter mode terminator c) (builder rest : UString) :
    lexStringFrom mode terminator builder (run++terminator::rest) = .ok (builder++run,rest) := by
  obtain ⟨ht,hd⟩ := span_run hr (isSafeStringCharacter_terminator hterm) rest
  rw [lexStringFrom]
  simp only [ht,hd]
  by_cases hb : builder = [] <;> simp [hb,hbsl,finishString]

theorem lexStringFrom_escape (hm : mode ≠ .nonStrictJSON)
    (hrun : ∀ c ∈ run, isSafeStringCharacter mode terminator c)
    (he : lexEscape mode ptr = .ok (c,after)) (builder : UString) :
    lexStringFrom mode terminator builder (run++backslash::ptr) =
      if after ≠ [] ∧ after.head? ≠ some terminator then
        lexStringFrom mode terminator (builder++run++[c]) after
      else finishString terminator (builder++run++[c]) run after := by
  obtain ⟨ht,hd⟩ := span_run hrun (isSafeStringCharacter_backslash mode terminator) ptr
  have hr : mode ≠ .nonStrictJSON ∧ (backslash::ptr).head? = some backslash := ⟨hm,rfl⟩
  rw [lexStringFrom]
  simp only [ht,hd,if_pos hr]
  by_cases hb : builder = []
  · split <;> simp_all
  · split <;> simp_all

end

/-- The loop reads every string of the mode, up to its terminator. -/
theorem lexStringFrom_complete (hm : mode ≠ .nonStrictJSON) (hterm : terminator ≠ 0x9)
    (hb : terminator ≠ backslash) (h : LiteralText mode terminator text value)
    (builder rest : UString) :
    lexStringFrom mode terminator builder (text++terminator::rest) = .ok (builder++value,rest) := by
  induction hn : text.length using Nat.strong_induction_on generalizing text value builder with
  | _ n ih =>
    obtain ⟨run,text',value',rfl,rfl,hr,htext,hh⟩ := literalText_run h
    rcases hh with rfl | hh
    · cases htext
      rw [append_nil]
      exact lexStringFrom_last hterm hb hr builder rest
    · rw [← cons_head?_tail hh] at htext hn ⊢
      obtain ⟨escape,text'',c,value'',htail,rfl,htext'',hesc⟩ := literalText_escape htext
      rw [htail,append_assoc,cons_append,append_assoc,lexStringFrom_escape hm hr (hesc _)]
      split
      next =>
        have hlt : text''.length < n := by
          rw [← hn,htail]
          simp only [length_append,length_cons]
          omega
        rw [ih _ hlt htext'' _ rfl]
        simp
      next he =>
        -- the string ends after the escape sequence
        have hnil : text'' = [] := by
          by_contra hne
          obtain ⟨x,xs,rfl⟩ := exists_cons_of_ne_nil hne
          have hx := literalText_head hterm hb htext''
          exact he ⟨by simp,by simpa using hx⟩
        subst hnil
        cases htext''
        simp [finishString]

theorem escape_unique {mode' : ParserMode} {c' : UInt16} (h : (e, c) ∈ escapesOf mode)
    (h' : (e, c') ∈ escapesOf mode') : c = c' := by
  rw [← simpleEscape_iff, simpleEscape] at h h'
  grind

/-- The modes differ in what they accept, not in how they read it. -/
theorem literalText_unique {mode' : ParserMode} {rest' text' value' : UString}
    (ht : terminator ≠ 0x9) (hb : terminator ≠ backslash)
    (h : LiteralText mode terminator text value) (h' : LiteralText mode' terminator text' value')
    (heq : text ++ terminator :: rest = text' ++ terminator :: rest') :
    text = text' ∧ value = value' ∧ rest = rest' := by
  have hback : ∀ {m : ParserMode}, isSafeStringCharacter m terminator backslash ≠ true := by
    simp [isSafeStringCharacter_backslash]
  have hterm : ∀ {m : ParserMode}, isSafeStringCharacter m terminator terminator ≠ true := by
    simp [isSafeStringCharacter_terminator ht]
  have hu : ∀ {m : ParserMode} {c : UInt16}, (ch 'u', c) ∉ escapesOf m := by
    intro m c hm
    rw [← simpleEscape_iff, simpleEscape_u] at hm
    cases hm
  induction h generalizing text' value' with
  | nil =>
    cases h' with
    | nil => exact ⟨rfl, rfl, (cons.inj heq).2⟩
    | char hc _ => exact absurd ((cons.inj heq).1.symm ▸ hc) hterm
    | _ => exact absurd (cons.inj heq).1 hb
  | char hc _ ih =>
    cases h' with
    | nil => exact absurd ((cons.inj heq).1 ▸ hc) hterm
    | char _ h' =>
      obtain ⟨rfl, hrest⟩ := cons.inj heq
      obtain ⟨rfl, rfl, rfl⟩ := ih h' hrest
      exact ⟨rfl, rfl, rfl⟩
    | _ => exact absurd ((cons.inj heq).1 ▸ hc) hback
  | escape he _ ih =>
    cases h' with
    | nil => exact absurd (cons.inj heq).1.symm hb
    | char hc _ => exact absurd ((cons.inj heq).1 ▸ hc) hback
    | escape he' h' =>
      obtain ⟨rfl, hrest⟩ := cons.inj (cons.inj heq).2
      obtain ⟨rfl, rfl, rfl⟩ := ih h' hrest
      exact ⟨rfl, by rw [escape_unique he he'], rfl⟩
    | unicode =>
      obtain ⟨rfl, -⟩ := cons.inj (cons.inj heq).2
      exact absurd he hu
  | unicode h1 h2 h3 h4 _ ih =>
    cases h' with
    | nil => exact absurd (cons.inj heq).1.symm hb
    | char hc _ => exact absurd ((cons.inj heq).1 ▸ hc) hback
    | escape he' h' =>
      obtain ⟨rfl, -⟩ := cons.inj (cons.inj heq).2
      exact absurd he' hu
    | unicode h1' h2' h3' h4' h' =>
      simp only [cons_append, cons.injEq, true_and] at heq
      obtain ⟨rfl, rfl, rfl, rfl, heq⟩ := heq
      obtain ⟨rfl, rfl, rfl⟩ := ih h' heq
      rw [← convertUnicode_eq h1 h2 h3 h4, ← convertUnicode_eq h1' h2' h3' h4']
      exact ⟨rfl, rfl, rfl⟩

/-- In strict mode the strings are those of JSON. -/
theorem literalText_strictJSON :
    LiteralText .strictJSON quotationMark = StringText StringCharacter escapeCharacters := by
  have hsafe : (isSafeStringCharacter .strictJSON quotationMark · = true) = StringCharacter := by
    funext c
    have hs : ch ' ' = 0x20 := rfl
    simp only [isSafeStringCharacter,StringCharacter,hs,decide_true,Bool.true_or,
      Bool.and_true,ne_eq,not_true_eq_false,decide_false,Bool.and_false,Bool.or_false,
      Bool.and_eq_true,decide_eq_true_eq,Bool.not_eq_true',decide_eq_false_iff_not,eq_iff_iff,
      decide_not]
    tauto
  rw [LiteralText,hsafe]
  rfl

end QPlusWeb.JSC
