import QPlusWeb.JSONParsing
import QPlusWeb.Stringifier

/-!
# JSON.parse reads what JSON.stringify writes

The loop of the serializer writes a value as tokens with white space between them, and the tokens
derive a value with the same members and elements.  The white space is whatever the indentation makes
of the gap, so only that it is white space is kept as an invariant.
-/

namespace QPlusWeb.JSC

open JSON ProbeSequence List Stringifier Nat UInt16

variable {ν : Type} {d : Doubles ν} {format : NumberFormat ν}

/-! ### Trees -/

/-- A tree of finite numbers other than -0 and of objects with distinct keys. -/
inductive Plain (d : Doubles ν) (format : NumberFormat ν) : JSValue ν → Prop
  | null : Plain d format .null
  | bool (b : Bool) : Plain d format (.bool b)
  | string (s : UString) : Plain d format (.string s)
  | number {x} : format.isFinite x = true → x ≠ d.negativeZero → Plain d format (.number x)
  | array {elements} : (∀ v ∈ elements, Plain d format v) →
      Plain d format (.array elements)
  | object {members} : (members.map Prod.fst).Nodup →
      (∀ m ∈ members, Plain d format m.2) → Plain d format (.object members)

/-- The parsed tree is the same: the same elements in order, and the same value under each key. -/
inductive Same : JSValue ν → JSONValue ν → Prop
  | null : Same .null .null
  | bool (b : Bool) : Same (.bool b) (.bool b)
  | string (s : UString) : Same (.string s) (.string s)
  | number (x : ν) : Same (.number x) (.number x)
  | array {vs ws} : List.Forall₂ Same vs ws →
      Same (.array vs) (.array ws)
  | object {ms ns} :
      (ms.map Prod.fst).Perm (ns.map Prod.fst) →
      (∀ k v w, (k, v) ∈ ms → (k, w) ∈ ns → Same v w) → Same (.object ms) (.object ns)

/-- `numberToString` and `parseDouble` are inverse. -/
def Inverse (d : Doubles ν) (format : NumberFormat ν) : Prop :=
  ∀ x, format.isFinite x = true → x ≠ d.negativeZero →
    NumberText (format.numberToString x) ∧ parseDouble d (format.numberToString x) = x

variable {text t : UString} {ts : List (Token ν)} {v : JSValue ν} {ws : List (JSONValue ν)}
    {ns : List (UString × JSONValue ν)} {members : List (UString × JSValue ν)}
  {token : Token ν}

/-! ### Strings -/

theorem hexDigit_spec (n : UInt16) : HexDigit (hexDigit n) (n.toNat % 16) := by
  have hd : ∀ k < 16, ch '0' ≤ hexDigits.getD k 0 ∧ hexDigits.getD k 0 ≤ ch '9' ∧
        (hexDigits.getD k 0).toNat-(ch '0').toNat = k ∨
      ch 'a' ≤ hexDigits.getD k 0 ∧ hexDigits.getD k 0 ≤ ch 'f' ∧
        (hexDigits.getD k 0).toNat-(ch 'a').toNat+10 = k := by decide
  have hm : (n &&& 0xF).toNat = n.toNat % 16 := by
    exact and_two_pow_sub_one_eq_mod n.toNat 4
  rw [hexDigit,hm]
  obtain ⟨hle,hge,hv⟩ | ⟨hle,hge,hv⟩ := hd _ (mod_lt n.toNat (by decide))
  · simpa only [hv] using HexDigit.decimal hle hge
  · simpa only [hv] using HexDigit.lower hle hge

theorem toNat_shiftRight (c n : UInt16) (hn : n < 16) : (c >>> n).toNat = c.toNat / 2^n.toNat := by
  have hlt : n.toNat < 16 := lt_iff_toNat_lt.mp hn
  rw [UInt16.toNat_shiftRight,mod_eq_of_lt hlt,shiftRight_eq_div_pow]

theorem hexDigits_value (c : UInt16) :
    UInt16.ofNat ((((c >>> 12).toNat % 16*16+(c >>> 8).toNat % 16)*16 +
      (c >>> 4).toNat % 16)*16+c.toNat % 16) = c := by
  have hlt : c.toNat < 65536 := c.toNat_lt
  have h12 : (c >>> 12).toNat = c.toNat / 4096 := toNat_shiftRight c 12 (by decide)
  have h8 : (c >>> 8).toNat = c.toNat / 256 := toNat_shiftRight c 8 (by decide)
  have h4 : (c >>> 4).toNat = c.toNat / 16 := toNat_shiftRight c 4 (by decide)
  apply UInt16.toNat_inj.mp
  rw [h12,h8,h4,toNat_ofNat']
  omega

theorem stringText_escapeCharacter (c : UInt16) {value : UString}
    (h : StringText StringCharacter escapeCharacters text value) :
    StringText StringCharacter escapeCharacters (escapeCharacter c++text) (c::value) := by
  have hesc : ∀ e, (e,c) ∈ escapeCharacters →
      StringText StringCharacter escapeCharacters ([backslash,e]++text) (c::value) :=
    fun e he => .escape he h
  unfold escapeCharacter
  split_ifs with hs ht hr hn hf hb hq hbsl
  · refine .char ⟨?_,hs.2⟩ h
    have hle : (0x20 : UInt16).toNat ≤ c.toNat := lt_iff_toNat_lt.mp hs.1
    exact le_iff_toNat_le.mpr hle
  · exact hesc _ (by rw [ht]; decide)
  · exact hesc _ (by rw [hr]; decide)
  · exact hesc _ (by rw [hn]; decide)
  · exact hesc _ (by rw [hf]; decide)
  · exact hesc _ (by rw [hb]; decide)
  · exact hesc _ (by rw [hq]; decide)
  · exact hesc _ (by rw [hbsl]; decide)
  · have hu := StringText.unicode (hexDigit_spec (c >>> 12)) (hexDigit_spec (c >>> 8))
      (hexDigit_spec (c >>> 4)) (hexDigit_spec c) h
    rwa [hexDigits_value] at hu

theorem stringText_escapeString (s : UString) :
    StringText StringCharacter escapeCharacters (escapeString s) s := by
  induction s with
  | nil => exact .nil
  | cons c s ih => exact stringText_escapeCharacter c ih

/-! ### Texts -/

/-- The tokens that are written: `-0` is not one of them. -/
def Written (d : Doubles ν) (text : UString) (token : Token ν) : Prop :=
  Lexeme d text token ∧ text ≠ minusZero

/-- The text of a value, of which the last character shows that it is no open object. -/
def WritesValue (d : Doubles ν) (v : JSValue ν) (text : UString) : Prop :=
  (∃ c, text.getLast? = some c ∧ c ≠ 0x7B) ∧
    ∃ ts w, Lexes (Written d) text ts ∧ Derives stringKey (.value w) ts ∧ Same v w

theorem lexes_written (h : Lexeme d text token)
    (hne : text ≠ minusZero) : Lexes (Written d) text [token] := by
  have hw : Written d text token := ⟨h,hne⟩
  simpa using lexes_snoc lexes_nil (w := []) (by simp [WhiteSpace]) hw

theorem readable_of_written {s : UString} (h : Lexes (Written d) s ts) : Readable d [] s ts := by
  induction h with
  | done hw => exact .done hw
  | token hw ht _ ih =>
    exact .token hw (by rw [ReadLexeme, if_neg fun hz => ht.2 hz.1]; exact ht.1) ih

theorem lexes_quotedString (s : UString) : Lexes (Written d) (quotedString s) [.string s] := by
  refine lexes_written (.string (stringText_escapeString s)) ?_
  intro h
  have hh : quotationMark = ch '-' := (List.cons.inj h).1
  exact absurd hh (by decide)

theorem parseDouble_minusZero (d : Doubles ν) : parseDouble d minusZero = d.negativeZero := by
  have hz := parseDouble_integer d (.inr rfl) .zero
  simpa [minusZero,digitsValue,digitValue,Doubles.negativeZero] using hz

/-- The characters of a number are below the `\x7b`. -/
theorem numberText_lt (h : NumberText text) : ∀ c ∈ text, c < 0x7B := by
  have hdigit : ∀ c, Digit c → c < 0x7B := fun c hc => UInt16.lt_of_le_of_lt hc.2 (by decide)
  obtain ⟨hs,hi,hf,he⟩ := h
  rw [forall_mem_append,forall_mem_append,forall_mem_append]
  refine ⟨⟨⟨?_,fun c hc => hdigit c (integerText_digits hi c hc)⟩,?_⟩,?_⟩
  · rcases hs with rfl | rfl
    · simp
    · simpa using by decide
  · cases hf with
    | none => simp
    | fraction hd => exact forall_mem_cons.mpr ⟨by decide,fun c hc => hdigit c (hd.2 c hc)⟩
  · cases he with
    | none => simp
    | exponent he hs hd =>
      rw [forall_mem_cons,forall_mem_append]
      refine ⟨?_,?_,fun c hc => hdigit c (hd.2 c hc)⟩
      · rcases he with rfl | rfl <;> decide
      · rcases hs with rfl | rfl | rfl
        · simp
        · simpa using by decide
        · simpa using by decide

theorem writesValue_number (hi : Inverse d format) {x : ν} (hx : format.isFinite x)
    (hz : x ≠ d.negativeZero) : WritesValue d (.number x) (format.numberToString x) := by
  obtain ⟨ht,hv⟩ := hi x hx hz
  have hl : Lexeme d (format.numberToString x) (.number x) := by
    have hn := Lexeme.number (d := d) ht
    rwa [hv] at hn
  have hne : format.numberToString x ≠ minusZero := by
    intro h
    rw [h] at hv
    exact hz (hv.symm.trans (parseDouble_minusZero d))
  refine ⟨?_,[.number x],.number x,lexes_written hl hne,.number,.number x⟩
  obtain ⟨c,rest,hc,-⟩ := numberText_head ht
  refine ⟨_,getLast?_eq_some_getLast (by rw [hc]; simp),?_⟩
  exact UInt16.ne_of_lt (numberText_lt ht _ (getLast_mem _))

/-! ### The serializer -/

/-- What is known of the serializer between two properties: the text, the holders, and that all of
its indentation is white space. -/
structure At (builder : UString) (stack : List (Holder ν)) (s : Stringifier ν) : Prop where
  builder : s.builder = builder
  holderStack : s.holderStack = stack
  gap : WhiteSpace s.gap
  repeatedGap : WhiteSpace s.repeatedGap
  currentIndent : WhiteSpace s.currentIndent

variable {b : UString} {stack stack' : List (Holder ν)} {s : Stringifier ν}

theorem whiteSpace_take {w : UString} (h : WhiteSpace w) (n : ℕ) : WhiteSpace (w.take n) :=
  fun c hc => h c (mem_of_mem_take hc)

section
variable (h : At b stack s)
include h

theorem At.append (text : UString) : At (b++text) stack (s.append text) :=
  {h with builder := congrArg (· ++ text) h.builder}

theorem At.push (stack' : List (Holder ν)) : At b stack' {s with holderStack := stack'} :=
  {h with holderStack := rfl}

theorem At.indent : At b stack s.indent :=
  have hr : WhiteSpace s.indent.repeatedGap := by
    simp only [Stringifier.indent]
    split
    · exact whiteSpace_append h.repeatedGap h.gap
    · exact h.repeatedGap
  {h with repeatedGap := hr, currentIndent := whiteSpace_take hr _}

theorem At.unindent : At b stack s.unindent :=
  {h with currentIndent := whiteSpace_take h.repeatedGap _}

theorem At.startNewLine : ∃ w, WhiteSpace w ∧ At (b++w) stack s.startNewLine := by
  unfold Stringifier.startNewLine
  split
  · exact ⟨[],by simp [WhiteSpace],by rwa [append_nil]⟩
  · refine ⟨[0xA]++s.currentIndent,?_,?_⟩
    · exact whiteSpace_append (by simp [WhiteSpace]) h.currentIndent
    · rw [← append_assoc]
      exact (h.append _).append _

/-- The closing bracket, on a line of its own if there is anything before it. -/
theorem At.finish (holder : Holder ν) :
    ∃ w, WhiteSpace w ∧ At (b++w++[if holder.object.isArray then ch ']' else 0x7D]) stack
      (s.finish holder) := by
  unfold Stringifier.finish
  dsimp only
  by_cases hl : holder.size ≠ 0 ∧ s.unindent.builder.getLast? ≠ some 0x7B
  · rw [if_pos hl]
    obtain ⟨w,hw,hn⟩ := h.unindent.startNewLine
    exact ⟨w,hw,hn.append _⟩
  · rw [if_neg hl]
    refine ⟨[],by simp [WhiteSpace],?_⟩
    rw [append_nil]
    exact h.unindent.append _

end

/-- What a round makes of the last holder. -/
def advance (format : NumberFormat ν) (s : Stringifier ν) (holder : Holder ν)
    (stack : List (Holder ν)) : Stringifier ν :=
  match s.appendProperty format holder stack with
  | (true, s) => s
  | (false, s) => { s with holderStack := stack }

theorem step_first (h : At b ({object := v}::stack) s) : s.step format =
      .inl (advance format (s.start {object := v}).1 (s.start {object := v}).2 stack) := by
  unfold step advance appendNextProperty
  simp only [h.holderStack,if_true]
  split <;> simp_all

theorem step_next {holder : Holder ν} (h : At b (holder::stack) s) (hi : holder.index ≠ 0) :
    s.step format = .inl (advance format s holder stack) := by
  unfold step advance appendNextProperty
  simp only [h.holderStack,if_neg hi]
  split <;> simp_all

/-- A value is written: the rounds of its own holders append a text that derives the same value. -/
def Writes (d : Doubles ν) (format : NumberFormat ν) (v : JSValue ν) : Prop :=
  ∀ {b : UString} {stack : List (Holder ν)} {s : Stringifier ν} (holderIsArray : Bool), At b stack s →
    ∃ s₁ s' text, s.appendStringifiedValue format v holderIsArray = (.succeeded, s₁) ∧
      Passes (step format) v.rounds s₁ s' ∧ At (b ++ text) stack s' ∧
      WritesValue d v text

/-- The elements of an array so far and their tokens. -/
def ElementTokens (ws : List (JSONValue ν)) (ts : List (Token ν)) : Prop :=
  ws = [] ∧ ts = [] ∨ Derives stringKey (.elements ws) ts

theorem derives_elements_ne_nil (h : Derives stringKey (.elements ws) ts) : ws ≠ [] := by
  cases h <;> simp

theorem derives_array (h : ElementTokens ws ts) :
    Derives stringKey (.value (.array ws)) (.lBracket::(ts++[.rBracket])) := by
  rcases h with ⟨rfl,rfl⟩ | h
  · exact .emptyArray
  · exact .array h

theorem lexes_punctuation {c : UInt16} (h : Lexeme d [c] token) :
    Lexes (Written d) [c] [token] := lexes_written h (by simp [minusZero])

/-- The comma before an element that is not the first one. -/
theorem At.elementSeparator (h : At b stack s)
    (hts : ElementTokens ws ts) {index : ℕ} (hi : index = ws.length) :
    ∃ comma us, At (b++comma) stack (if index ≠ 0 then s.append [ch ','] else s) ∧
      Lexes (Written d) comma us ∧ ∀ {w : JSONValue ν} {vs : List (Token ν)},
        Derives stringKey (.value w) vs → ElementTokens (ws++[w]) (ts++us++vs) := by
  rcases hts with ⟨rfl,rfl⟩ | hts
  · refine ⟨[],[],?_,lexes_nil,fun hw => .inr (.firstElement hw)⟩
    have hz : ¬index ≠ 0 := not_not_intro hi
    rwa [if_neg hz,append_nil]
  · have hne : index ≠ 0 := by
      rw [hi]
      exact (length_pos_iff.mpr (derives_elements_ne_nil hts)).ne'
    refine ⟨[ch ','],[.comma],?_,lexes_punctuation .comma,fun hw => .inr ?_⟩
    · rw [if_pos hne]
      exact h.append _
    · rw [append_assoc]
      exact .nextElement hts hw

theorem elements_written {elements done rest : List (JSValue ν)} (names : List UString)
    (stack : List (Holder ν))
    (hsplit : elements = done++rest) (hwrites : ∀ v ∈ rest, Writes d format v)
    (hs : At (b++ch '['::t) stack' s) (ht : Lexes (Written d) t ts) (hts : ElementTokens ws ts)
    (hsame : List.Forall₂ Same done ws) :
    ∃ s' text, Passes (step format) (elementRounds rest)
        (advance format s ⟨.array elements,done.length,elements.length,names⟩ stack) s' ∧
      At (b++text) stack s' ∧ WritesValue d (.array elements) text := by
  induction rest generalizing done t s ts ws stack' with
  | nil =>
    rw [append_nil] at hsplit
    subst hsplit
    obtain ⟨w,hw,hf⟩ := hs.finish ⟨.array elements,elements.length,elements.length,names⟩
    refine ⟨_,ch '['::t++w++[ch ']'],passes_zero _,?_,?_,?_⟩
    · simp only [advance,appendProperty,if_true]
      have hpop := hf.push stack
      simpa [JSValue.isArray] using hpop
    · exact ⟨ch ']',getLast?_concat ..,by decide⟩
    · refine ⟨_,_,?_,derives_array hts,.array hsame⟩
      have ho := lexes_append (lexes_punctuation .lBracket) (lexes_append ht
        (lexes_whiteSpace hw (lexes_punctuation (d := d) .rBracket)))
      simpa using ho
  | cons v rest ih =>
    rw [forall_mem_cons] at hwrites
    have hi : done.length = ws.length := hsame.length_eq
    have hne : done.length ≠ elements.length := by
      rw [hsplit,length_append,length_cons]
      omega
    have hv : elements.getD done.length .undefined = v := by rw [hsplit]; simp
    let holder : Holder ν := ⟨.array elements,done.length+1,elements.length,names⟩
    obtain ⟨comma,us,hc,hl,hsnoc⟩ := (hs.push (holder::stack)).elementSeparator (d := d) hts hi
    obtain ⟨w,hw,hline⟩ := hc.startNewLine
    obtain ⟨s₁,s',text,happend,hp,hs',-,vs,x,htext,hd,hsame'⟩ := hwrites.1 true hline
    have ha : advance format s ⟨.array elements,done.length,elements.length,names⟩ stack = s₁ := by
      simp only [advance,appendProperty,if_neg hne,appendElement,hv]
      rw [happend]
      rfl
    have hstep : s'.step format = .inl (advance format s' holder stack) :=
      step_next hs' (succ_ne_zero _)
    have hs'' : At (b++ch '['::(t++comma++w++text)) (holder::stack) s' := by
      simpa using hs'
    have htoks : Lexes (Written d) (t++comma++w++text) (ts++us++vs) := by
      have hall := lexes_append (lexes_append ht hl) (lexes_whiteSpace hw htext)
      simpa using hall
    have hsplit' : elements = (done++[v])++rest := by rw [hsplit]; simp
    obtain ⟨s'',text',hr,hat,hwritten⟩ := ih hsplit' hwrites.2 hs'' htoks
      (hsnoc hd) (rel_append hsame (.cons hsame' .nil))
    rw [length_append,length_singleton] at hr
    refine ⟨s'',text',?_,hat,hwritten⟩
    rw [ha]
    have hpass := (hp.trans (passes_one hstep)).trans hr
    rwa [Nat.add_comm v.rounds 1] at hpass

/-! ### The members of an object -/

/-- The members of an object so far, their tokens and their text. -/
def MemberTokens (ns : List (UString × JSONValue ν)) (ts : List (Token ν)) (text : UString) : Prop :=
  ns = [] ∧ ts = [] ∧ text = [] ∨
    Derives stringKey (.members ns) ts ∧ ∃ c, text.getLast? = some c ∧ c ≠ 0x7B

theorem derives_object (h : MemberTokens ns ts text) :
    Derives stringKey (.value (.object (objectOf ns))) (.lBrace::(ts++[.rBrace])) := by
  rcases h with ⟨rfl,rfl,-⟩ | ⟨h,-⟩
  · exact .emptyObject
  · exact .object h

/-- The comma before a member that is not the first one: the last character shows which it is. -/
theorem At.memberSeparator (h : At (b++0x7B::t) stack s) (hts : MemberTokens ns ts t) :
    ∃ comma us, At (b++0x7B::t++comma) stack
        (if s.builder.getLast? ≠ some 0x7B then s.append [ch ','] else s) ∧
      Lexes (Written d) comma us ∧ ∀ {k : UString} {w : JSONValue ν} {vs : List (Token ν)},
        Derives stringKey (.value w) vs →
          Derives stringKey (.members (ns++[(k,w)])) (ts++us++.string k::.colon::vs) := by
  rw [h.builder]
  rcases hts with ⟨rfl,rfl,rfl⟩ | ⟨hts,c,hc,hne⟩
  · refine ⟨[],[],?_,lexes_nil,fun hw => .firstMember rfl hw⟩
    rwa [if_neg (not_not_intro (getLast?_concat ..)),append_nil]
  · have hl : (b++0x7B::t).getLast? = some c := by
      simp [getLast?_cons,hc]
    refine ⟨[ch ','],[.comma],?_,lexes_punctuation .comma,fun hw => ?_⟩
    · rw [if_pos (by rw [hl]; exact fun heq => hne (Option.some.inj heq))]
      exact h.append _
    · rw [append_assoc]
      exact .nextMember hts rfl hw

/-- The colon, and a space if the text is indented. -/
theorem At.colon (h : At b stack s) : ∃ w, WhiteSpace w ∧ At (b++ch ':'::w) stack
      (if (s.append [ch ':']).gap ≠ [] then (s.append [ch ':']).append [ch ' ']
        else s.append [ch ':']) := by
  have hc := h.append [ch ':']
  split
  · refine ⟨[ch ' '],by simp [WhiteSpace]; decide,?_⟩
    simpa using hc.append [ch ' ']
  · exact ⟨[],by simp [WhiteSpace],hc⟩

/-- The members of the two trees agree. -/
def SameMember (m : UString × JSValue ν) (n : UString × JSONValue ν) : Prop :=
  m.1 = n.1 ∧ Same m.2 n.2

theorem members_written {done rest : List (UString × JSValue ν)} {names : List UString}
    (stack : List (Holder ν)) (hn : names = (done++rest).map Prod.fst)
    (hv : ∀ m ∈ rest, getOwnProperty members m.1 = some m.2)
    (hwrites : ∀ m ∈ rest, Writes d format m.2)
    (hs : At (b++0x7B::t) stack' s) (ht : Lexes (Written d) t ts) (hts : MemberTokens ns ts t)
    (hsame : List.Forall₂ SameMember done ns) :
    ∃ s' text ns' us, Passes (step format) (memberRounds rest)
        (advance format s ⟨.object members,done.length,names.length,names⟩ stack) s' ∧
      At (b++(text++[0x7D])) stack s' ∧ Lexes (Written d) (text++[0x7D]) us ∧
      Derives stringKey (.value (.object (objectOf ns'))) us ∧
      List.Forall₂ SameMember (done++rest) ns' := by
  induction rest generalizing done t s ts ns stack' with
  | nil =>
    rw [append_nil] at hn ⊢
    have hlen : done.length = names.length := by rw [hn,length_map]
    obtain ⟨w,hw,hf⟩ := hs.finish ⟨.object members,done.length,names.length,names⟩
    refine ⟨_,0x7B::t++w,ns,_,passes_zero _,?_,?_,derives_object hts,hsame⟩
    · simp only [advance,appendProperty,if_pos hlen]
      have hpop := hf.push stack
      simpa [JSValue.isArray] using hpop
    · have ho := lexes_append (lexes_punctuation .lBrace) (lexes_append ht
        (lexes_whiteSpace hw (lexes_punctuation (d := d) .rBrace)))
      simpa using ho
  | cons m rest ih =>
    rw [forall_mem_cons] at hwrites hv
    have hne : done.length ≠ names.length := by
      rw [hn,length_map,length_append,length_cons]
      omega
    have hname : names.getD done.length [] = m.1 := by rw [hn]; simp
    let holder : Holder ν := ⟨.object members,done.length+1,names.length,names⟩
    obtain ⟨comma,us,hcomma,hlexes,hsnoc⟩ := (hs.push (holder::stack)).memberSeparator (d := d) hts
    obtain ⟨w,hw,hline⟩ := hcomma.startNewLine
    obtain ⟨w',hw',hcol⟩ := (hline.append (quotedString m.1)).colon
    obtain ⟨s₁,s',text,happend,hp,hs',hl,vs,x,htext,hder,hsame'⟩ := hwrites.1 false hcol
    have ha : advance format s ⟨.object members,done.length,names.length,names⟩ stack = s₁ := by
      simp only [advance,appendProperty,if_neg hne,appendMember,hname,hv.1]
      rw [happend]
      rfl
    have hstep : s'.step format = .inl (advance format s' holder stack) :=
      step_next hs' (succ_ne_zero _)
    let t' := t++comma++w++quotedString m.1++ch ':'::w'++text
    have hs'' : At (b++0x7B::t') (holder::stack) s' := by
      simpa [t'] using hs'
    have htoks : Lexes (Written d) t' (ts++us++.string m.1::.colon::vs) := by
      have hk := lexes_append (lexes_quotedString (d := d) m.1)
        (lexes_append (lexes_punctuation .colon) (lexes_whiteSpace hw' htext))
      have hall := lexes_append (lexes_append ht hlexes) (lexes_whiteSpace hw hk)
      simpa [t'] using hall
    obtain ⟨c,hc,hb⟩ := hl
    have hl : t'.getLast? = some c := by rw [getLast?_append,hc,Option.some_or]
    have hm : MemberTokens (ns++[(m.1,x)]) (ts++us++.string m.1::.colon::vs) t' :=
      .inr ⟨hsnoc hder,c,hl,hb⟩
    have hnames' : names = (done++[m]++rest).map Prod.fst := by rw [hn]; simp
    obtain ⟨s'',text',ns',us',hr,hat,hlexes',hder',hsame''⟩ :=
      ih hnames' hv.2 hwrites.2 hs'' htoks hm (rel_append hsame (.cons ⟨rfl,hsame'⟩ .nil))
    rw [length_append,length_singleton] at hr
    rw [append_assoc] at hsame''
    refine ⟨s'',text',ns',us',?_,hat,hlexes',hder',hsame''⟩
    rw [ha]
    have hpass := (hp.trans (passes_one hstep)).trans hr
    rwa [Nat.add_comm m.2.rounds 1] at hpass

/-! ### The order of the members -/

theorem getOwnPropertyNames_perm (keys : List UString) : (getOwnPropertyNames keys).Perm keys := by
  have hs := filter_append_perm (fun k => decide (asIndex k ≠ notAnIndex)) keys
  simp only [← decide_not] at hs
  exact ((mergeSort_perm _ _).append_right _).trans hs

/-- The members in the order in which they are written. -/
theorem exists_ownMembers (members : List (UString × JSValue ν)) :
    ∃ own : List (UString × JSValue ν), own.Perm members ∧
      getOwnPropertyNames (members.map Prod.fst) = own.map Prod.fst := by
  have hk : List.Forall₂ (fun k (m : UString × JSValue ν) => k = m.1) (members.map Prod.fst)
      members := by
    rw [forall₂_map_left_iff]
    exact forall₂_same.mpr fun m _ => rfl
  obtain ⟨own,ho,hp⟩ := perm_comp_forall₂ (getOwnPropertyNames_perm (members.map Prod.fst)) hk
  refine ⟨own,hp,?_⟩
  rw [← forall₂_eq_eq_eq,forall₂_map_right_iff]
  exact ho

theorem memberRounds_eq (members : List (UString × JSValue ν)) :
    memberRounds members = (members.map fun m => 1+m.2.rounds).sum := by
  induction members with
  | nil => rfl
  | cons m members ih => rw [memberRounds,ih,map_cons,sum_cons]

theorem getOwnProperty_of_mem
    (hk : (members.map Prod.fst).Nodup) {m : UString × JSValue ν} (hm : m ∈ members) :
    getOwnProperty members m.1 = some m.2 := by
  induction members with
  | nil => cases hm
  | cons n members ih =>
    rw [map_cons,nodup_cons] at hk
    rcases mem_cons.mp hm with rfl | hm
    · simp [getOwnProperty]
    · have hne : n.1 ≠ m.1 := fun h => hk.1 (h ▸ mem_map_of_mem hm)
      have hr := ih hk.2 hm
      simpa [getOwnProperty,hne] using hr

/-- Members with distinct keys are the members of the object. -/
theorem objectOf_of_nodup (h : (ns.map Prod.fst).Nodup) : objectOf ns = ns := by
  induction ns with
  | nil => rfl
  | cons n ns ih =>
    rw [map_cons,nodup_cons] at h
    have hne : ∀ n' ∈ ns, n'.1 ≠ n.1 := fun n' hn' heq => h.1 (heq ▸ mem_map_of_mem hn')
    have hl : lastValue n.1 ns = none := by
      rw [lastValue,find?_eq_none.mpr (by simpa using hne)]
      rfl
    have hf : ns.filter (·.1 ≠ n.1) = ns := filter_eq_self.mpr (by simpa using hne)
    rw [objectOf,hl,ih h.2,hf]
    rfl

/-! ### Values -/

theorem exists_sameMember {ms : List (UString × JSValue ν)}
    (h : List.Forall₂ SameMember ms ns) {n : UString × JSONValue ν} (hn : n ∈ ns) :
    ∃ m ∈ ms, SameMember m n := by
  induction h with
  | nil => cases hn
  | cons hm _ ih =>
    rcases mem_cons.mp hn with rfl | hn
    · exact ⟨_,.head _,hm⟩
    · obtain ⟨m,hmem,hs⟩ := ih hn
      exact ⟨m,.tail _ hmem,hs⟩

theorem same_object {own : List (UString × JSValue ν)}
    (hkeys : (members.map Prod.fst).Nodup) (hp : own.Perm members)
    (hs : List.Forall₂ SameMember own ns) : Same (.object members) (.object (objectOf ns)) := by
  have hn : own.map Prod.fst = ns.map Prod.fst := by
    rw [← forall₂_eq_eq_eq,forall₂_map_left_iff,forall₂_map_right_iff]
    exact hs.imp fun _ _ h => h.1
  have hnd : (ns.map Prod.fst).Nodup := hn ▸ (hp.map Prod.fst).nodup_iff.mpr hkeys
  rw [objectOf_of_nodup hnd]
  refine .object (hn ▸ (hp.map Prod.fst).symm) ?_
  intro k v w hv hw
  obtain ⟨m,hm,hk,hval⟩ := exists_sameMember hs hw
  have hm' := getOwnProperty_of_mem hkeys (hp.mem_iff.mp hm)
  rw [hk,getOwnProperty_of_mem hkeys hv] at hm'
  rwa [← Option.some.inj hm'] at hval

/-- A value without a holder of its own is written at once. -/
theorem writes_scalar (text : UString) (ha : ∀ (s : Stringifier ν) holderIsArray,
      s.appendStringifiedValue format v holderIsArray = (.succeeded,s.append text))
    (hr : v.rounds = 0) (hv : WritesValue d v text) : Writes d format v := by
  intro b stack s holderIsArray hs
  refine ⟨_,_,text,ha s holderIsArray,?_,hs.append text,hv⟩
  rw [hr]
  exact passes_zero _

theorem writes_of_plain (hi : Inverse d format) (h : Plain d format v) : Writes d format v := by
  induction h with
  | null =>
    refine writes_scalar (literal "null") (fun _ _ => rfl) (by simp [JSValue.rounds]) ?_
    exact ⟨⟨ch 'l',rfl,by decide⟩,_,_,lexes_written .null (by decide),.null,.null⟩
  | bool b' =>
    refine writes_scalar (literal (if b' then "true" else "false")) (fun _ _ => rfl)
      (by simp [JSValue.rounds]) ?_
    cases b' with
    | false =>
      exact ⟨⟨ch 'e',rfl,by decide⟩,_,_,lexes_written .false (by decide),.false,.bool _⟩
    | true => exact ⟨⟨ch 'e',rfl,by decide⟩,_,_,lexes_written .true (by decide),.true,.bool _⟩
  | string value =>
    refine writes_scalar (quotedString value) (fun _ _ => rfl) (by simp [JSValue.rounds]) ?_
    refine ⟨⟨quotationMark,?_,by decide⟩,_,_,lexes_quotedString value,.string,.string _⟩
    exact getLast?_concat (l := quotationMark::escapeString value)
  | @number x hf hz =>
    refine writes_scalar (format.numberToString x) (fun _ _ => ?_)
      (by simp [JSValue.rounds]) (writesValue_number hi hf hz)
    simp [appendStringifiedValue,hf]
  | @array elements _ ih =>
    intro b stack s holderIsArray hs
    have hpush := hs.push ({object := .array elements}::stack)
    have hstart := (hpush.append [ch '[']).indent
    obtain ⟨s',text,hp,hat,hw⟩ := elements_written [] stack (nil_append _).symm ih
      (t := []) hstart lexes_nil (.inl ⟨rfl,rfl⟩) .nil
    refine ⟨_,s',text,rfl,?_,hat,hw⟩
    rw [JSValue.rounds,hs.holderStack]
    exact (passes_one (step_first hpush)).trans hp
  | @object members hk _ ih =>
    intro b stack s holderIsArray hs
    obtain ⟨own,hperm,ho⟩ := exists_ownMembers members
    have hn : getOwnPropertyNames (members.map Prod.fst) = ([]++own).map Prod.fst := ho
    have hpush := hs.push ({object := .object members}::stack)
    have hstart := (hpush.append [0x7B]).indent
    obtain ⟨s',text,ns,us,hp,hat,hl,hd,hsame⟩ := members_written stack hn
        (fun m hm => getOwnProperty_of_mem hk (hperm.mem_iff.mp hm))
        (fun m hm => ih m (hperm.mem_iff.mp hm)) (t := []) hstart lexes_nil (.inl ⟨rfl,rfl,rfl⟩) .nil
    refine ⟨_,s',_,rfl,?_,hat,⟨_,getLast?_concat ..,by decide⟩,us,_,hl,hd,
      same_object hk hperm hsame⟩
    rw [memberRounds_eq,(hperm.map _).sum_eq,← memberRounds_eq] at hp
    rw [JSValue.rounds,hs.holderStack]
    exact (passes_one (step_first hpush)).trans hp

/-! ### The round trip -/

/-- `JSON.parse` reads what `JSON.stringify` has written for a tree with any gap of white space, and
the tree that it returns is the same. -/
theorem json_round_trip (hinverse : Inverse d format) {v : JSValue ν} (hv : Plain d format v)
    {space : UString} (hspace : WhiteSpace space) :
    ∃ text r w, stringify format space v = some (some text) ∧
      tryLiteralParse d .strictJSON text = some r ∧ r.value = some w ∧ Same v w := by
  have hs : At [] [] ({gap := space.take maxGapLength} : Stringifier ν) :=
    ⟨rfl,rfl,whiteSpace_take hspace _,by simp [WhiteSpace],by simp [WhiteSpace]⟩
  obtain ⟨s₁,s',text,ha,hp,hat,-,ts,w,hl,hd,hsame⟩ := writes_of_plain hinverse hv false hs
  obtain ⟨r,hr,hval⟩ := tryLiteralParse_readable (readable_of_written hl) hd
  refine ⟨text,r,w,?_,hr,hval,hsame⟩
  have hlast : s'.step format = .inr text := by
    rw [step,hat.holderStack,hat.builder]
    rfl
  have hloop : loop (step format) (v.rounds+1) s₁ = some text := by
    rw [Nat.add_comm,hp 1]
    simp [loop,hlast]
  rw [stringify,ha]
  simp [hloop]

/-- The numbers 1 and -0. -/
def oneOrNegativeZero : NumberFormat Bool := ⟨fun _ => true, fun _ => [ch '1']⟩

theorem inverse_oneOrNegativeZero : Inverse signs oneOrNegativeZero := by
  intro x _ hx
  have ht : NumberText ([]++[ch '1']++[]++[]) :=
    .number (.inl rfl) (.digits (by decide) (by decide) (by simp)) .none .none
  refine ⟨ht,?_⟩
  cases x with
  | false => rfl
  | true => exact absurd rfl hx

example : stringify oneOrNegativeZero (literal "  ")
    (.array [.undefined, .object [([ch 'a'], .undefined)], .number false]) =
      some (some (literal "[\n  null,\n  \x7b\x7d,\n  1\n]")) := by
  decide +kernel

theorem json_round_trip_index_keys :
    ∃ text r w, stringify oneOrNegativeZero [0x9]
          (.object [([ch 'b'], .array [.number false, .string [0x1F, 0xD800]]), ([ch '2'], .null)]) =
        some (some text) ∧
      tryLiteralParse signs .strictJSON text = some r ∧ r.value = some w ∧
      Same (.object [([ch 'b'], .array [.number false, .string [0x1F, 0xD800]]), ([ch '2'], .null)])
        w := by
  refine json_round_trip inverse_oneOrNegativeZero (.object (by decide) ?_) (by simp [WhiteSpace])
  simp only [forall_mem_cons,not_mem_nil,false_implies,implies_true,and_true]
  refine ⟨.array ?_,.null⟩
  simp only [forall_mem_cons,not_mem_nil,false_implies,implies_true,and_true]
  exact ⟨.number rfl (by decide),.string _⟩

end QPlusWeb.JSC
