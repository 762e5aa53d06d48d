import QPlusWeb.LiteralStrings
import QPlusWeb.LiteralNumbers

/-!
# The tokens that the lexer reads

What `lex` returns is a token of the mode, with its text taken off the input; in strict mode it returns
every token of the JSON grammar.
-/

namespace QPlusWeb.JSC

open JSON List

variable {ν : Type}

/-- The tokens of a mode with their texts, if `rest` follows. -/
inductive RawLexeme (d : Doubles ν) (mode : ParserMode) : UString → UString → Token ν → Prop
  | punctuation {c rest token} : punctuation c = some token →
      RawLexeme d mode [c] rest token
  | dot {rest} : RawLexeme d mode [ch '.'] rest .dot
  | assign {rest} : RawLexeme d mode [ch '='] rest .assign
  | semi {rest} : RawLexeme d mode [ch ';'] rest .semi
  | true {rest} : RawLexeme d mode [ch 't', ch 'r', ch 'u', ch 'e'] rest .true
  | false {rest} : RawLexeme d mode [ch 'f', ch 'a', ch 'l', ch 's', ch 'e'] rest .false
  | null {rest} : RawLexeme d mode [ch 'n', ch 'u', ch 'l', ch 'l'] rest .null
  | string {terminator text value rest} :
      terminator = quotationMark ∨ terminator = apostrophe ∧ mode ≠ .strictJSON →
      LiteralText mode terminator text value →
      RawLexeme d mode (terminator :: (text ++ [terminator])) rest (.string value)
  | number {text rest x} : NumberText text → NumberValue d text rest x →
      RawLexeme d mode text rest (.number x)
  | identifier {c text rest} : isIdentifierStart c = Bool.true →
      (∀ c' ∈ text, isIdentifierPart c' = Bool.true) →
      (∀ c' ∈ rest.head?, isIdentifierPart c' = Bool.false) →
      RawLexeme d mode (c :: text) rest (.identifier (c :: text))

/-- The type that `lex` returns for a token. -/
def Token.returnedType : Token ν → TokenType
  | .semi => .assign
  | token => token.type

/-- A token that has been read. -/
def Token.isRead : Token ν → Bool
  | .end => Bool.false
  | .error => Bool.false
  | _ => Bool.true

variable {c : UInt16} {token : Token ν} {ptr rest text : UString} {mode : ParserMode} {type : TokenType}
    {d : Doubles ν} {l : Lexer ν}

theorem punctuation_cases (h : punctuation c = some token) :
    (c,token) ∈ [(ch '[',.lBracket),(ch ']',.rBracket),(ch '(',.lParen),(ch ')',.rParen),
      (0x7B,.lBrace),(0x7D,.rBrace),(ch ',',.comma),(ch ':',.colon)] := by
  unfold punctuation at h
  split_ifs at h <;> simp_all

/-- A token has been taken off the input, and its type has been returned. -/
def TokenRead (d : Doubles ν) (mode : ParserMode) (ptr rest : UString) (type : TokenType)
    (token : Token ν) : Prop :=
  ∃ text, ptr = text ++ rest ∧ text ≠ [] ∧ RawLexeme d mode text rest token ∧
    type = token.returnedType ∧ token.isRead = Bool.true

theorem punctuation_returnedType (h : punctuation c = some token) :
    token.returnedType = token.type ∧ token.isRead = Bool.true := by
  have hm := punctuation_cases h
  simp only [mem_cons,Prod.mk.injEq,not_mem_nil,or_false] at hm
  rcases hm with ⟨-,rfl⟩ | ⟨-,rfl⟩ | ⟨-,rfl⟩ | ⟨-,rfl⟩ | ⟨-,rfl⟩ | ⟨-,rfl⟩ | ⟨-,rfl⟩ | ⟨-,rfl⟩ <;>
    exact ⟨rfl,rfl⟩

theorem keywordToken_sound (d : Doubles ν) (mode : ParserMode)
    (h : keywordToken ptr = some (token,rest)) : TokenRead d mode ptr rest token.type token := by
  unfold keywordToken at h
  split_ifs at h with ht hf hn
  all_goals
    cases h
  · obtain ⟨rest,rfl⟩ := isPrefixOf_iff_prefix.mp ht
    exact ⟨_,rfl,by simp,.true,rfl,rfl⟩
  · obtain ⟨rest,rfl⟩ := isPrefixOf_iff_prefix.mp hf
    exact ⟨_,rfl,by simp,.false,rfl,rfl⟩
  · obtain ⟨rest,rfl⟩ := isPrefixOf_iff_prefix.mp hn
    exact ⟨_,rfl,by simp,.null,rfl,rfl⟩

theorem stringToken_eq_ok {terminator : UInt16} (h : (do
      let (s,ptr) ← lexStringFrom mode terminator [] ptr
      return (TokenType.string,Token.string s,ptr) : Except String _) = .ok (type,token,rest)) :
    ∃ text value, ptr = text ++ terminator :: rest ∧ LiteralText mode terminator text value ∧
      token = .string value ∧ type = .string := by
  obtain ⟨⟨s,ptr'⟩,hs,hr⟩ := bind_eq_ok.mp h
  cases hr
  obtain ⟨text,value,hp,htext,rfl⟩ := lexStringFrom_sound hs
  exact ⟨text,_,hp,htext,rfl,rfl⟩

theorem numberToken_sound (mode : ParserMode) (h : (do
      let (x,ptr) ← lexNumber d ptr
      return (TokenType.number,Token.number x,ptr) : Except String _) = .ok (type,token,rest)) :
    TokenRead d mode ptr rest type token := by
  obtain ⟨⟨x,ptr'⟩,hn,hr⟩ := bind_eq_ok.mp h
  cases hr
  obtain ⟨text,rfl,ht,hv⟩ := lexNumber_sound hn
  exact ⟨text,rfl,numberText_ne_nil ht,.number ht hv,rfl,rfl⟩

theorem isIdentifierPart_of_start (h : isIdentifierStart c = Bool.true) :
    isIdentifierPart c = Bool.true := by
  simp only [isIdentifierStart,isIdentifierPart,isASCIIAlphanumeric,Bool.or_eq_true] at h ⊢
  tauto

theorem identifierToken_sound (d : Doubles ν) (mode : ParserMode) (ptr : UString)
    (h : isIdentifierStart c = Bool.true) :
    TokenRead d mode (c::ptr) ((c::ptr).dropWhile isIdentifierPart) .identifier
      (.identifier ((c::ptr).takeWhile isIdentifierPart)) := by
  have hp := isIdentifierPart_of_start h
  rw [takeWhile_cons_of_pos hp,dropWhile_cons_of_pos hp]
  refine ⟨c::ptr.takeWhile isIdentifierPart,?_,by simp,
    .identifier h (fun _ hc => mem_takeWhile_imp hc) ?_,rfl,rfl⟩
  · rw [cons_append,takeWhile_append_dropWhile]
  · exact fun _ hc => ListScans.head?_dropWhile_eq hc

theorem lexToken_sound (h : lexToken d mode c ptr = .ok (type,token,rest)) :
    TokenRead d mode (c::ptr) rest type token := by
  unfold lexToken at h
  split at h
  next token' hp =>
    cases h
    obtain ⟨ht,hr⟩ := punctuation_returnedType hp
    exact ⟨[c],rfl,by simp,.punctuation hp,ht.symm,hr⟩
  next =>
    split at h
    next hq =>
      obtain ⟨text,value,rfl,htext,rfl,rfl⟩ := stringToken_eq_ok h
      exact ⟨_,by simp [hq],by simp,.string (.inl rfl) htext,rfl,rfl⟩
    next =>
      split at h
      next token' ptr' hk =>
        cases h
        exact keywordToken_sound d mode hk
      next =>
        split_ifs at h with hn hd hassign hsemi hi ha hs
        · exact numberToken_sound mode h
        · cases h
          exact ⟨[ch '.'],by rw [hd,singleton_append],by simp,.dot,rfl,rfl⟩
        · cases h
          exact ⟨[ch '='],by rw [hassign,singleton_append],by simp,.assign,rfl,rfl⟩
        · cases h
          exact ⟨[ch ';'],by rw [hsemi,singleton_append],by simp,.semi,rfl,rfl⟩
        · cases h
          exact identifierToken_sound d mode ptr hi
        · obtain ⟨text,value,rfl,htext,rfl,rfl⟩ := stringToken_eq_ok h
          exact ⟨_,by simp [ha],by simp,.string (.inr ⟨rfl,hs⟩) htext,rfl,rfl⟩

/-! ### The next token -/

theorem isJSONWhiteSpace_iff :
    isJSONWhiteSpace c = Bool.true ↔ c = 0x9 ∨ c = 0xA ∨ c = 0xD ∨ c = 0x20 := by
  have hs : ch ' ' = 0x20 := rfl
  simp only [isJSONWhiteSpace,hs,Bool.or_eq_true,decide_eq_true_eq]
  tauto

theorem whiteSpace_takeWhile (ptr : UString) : WhiteSpace (ptr.takeWhile isJSONWhiteSpace) :=
  fun _ hc => isJSONWhiteSpace_iff.mp (mem_takeWhile_imp hc)

namespace Lexer

variable {d : Doubles ν} {mode : ParserMode} {l : Lexer ν}

/-- `next` skips white space and takes a token off the input. -/
theorem next_sound (hr : (l.next d mode).2.currentToken.isRead = Bool.true) :
    ∃ w ptr, WhiteSpace w ∧ l.ptr = w++ptr ∧
      TokenRead d mode ptr (l.next d mode).2.ptr (l.next d mode).1 (l.next d mode).2.currentToken :=
        by
  have hs := takeWhile_append_dropWhile (p := isJSONWhiteSpace) (l := l.ptr)
  revert hr
  unfold next
  split
  next => exact fun hr => absurd hr (by simp [Token.isRead])
  next c ptr hd =>
    rw [hd] at hs
    split
    next ht => exact fun _ => ⟨_,c::ptr,whiteSpace_takeWhile _,hs.symm,lexToken_sound ht⟩
    next => exact fun hr => absurd hr (by simp [Token.isRead])

theorem next_end (h : (l.next d mode).2.currentToken = .end) : WhiteSpace l.ptr := by
  have hs := takeWhile_append_dropWhile (p := isJSONWhiteSpace) (l := l.ptr)
  revert h
  unfold next
  split
  next hd =>
    intro _
    rw [hd,append_nil] at hs
    rw [← hs]
    exact whiteSpace_takeWhile _
  next c ptr _ =>
    split
    next token _ ht =>
      intro h
      obtain ⟨-,-,-,-,-,hr⟩ := lexToken_sound ht
      have hend : token = .end := h
      rw [hend] at hr
      cases hr
    next => exact fun h => absurd h (by simp)

/-- `next` returns the type of the current token, except for a `;`. -/
theorem next_type : (l.next d mode).1 = (l.next d mode).2.currentToken.returnedType := by
  unfold next
  split
  next => rfl
  next =>
    split
    next ht =>
      obtain ⟨-,-,-,-,htype,-⟩ := lexToken_sound ht
      exact htype
    next => rfl

end Lexer

/-! ### JSON tokens -/

/-- The text of a token as it is read if `rest` follows: a `-0` that something follows is 0. -/
def ReadLexeme (d : Doubles ν) (text rest : UString) (token : Token ν) : Prop :=
  if text = minusZero ∧ rest ≠ [] then token = .number (d.round Bool.false 0) else Lexeme d text token

/-- The characters that a number starts with. -/
def numberStarts : UString :=
  [ch '-', ch '0', ch '1', ch '2', ch '3', ch '4', ch '5', ch '6', ch '7', ch '8', ch '9']

theorem mem_numberStarts (h : c = ch '-' ∨ isASCIIDigit c = Bool.true) : c ∈ numberStarts := by
  rcases h with rfl | h
  · exact .head _
  · have ha : ∀ n < 58, isASCIIDigit (UInt16.ofNat n) = Bool.true →
        UInt16.ofNat n ∈ numberStarts := by
      decide
    have hlt : c.toNat < 58 := by
      have hle := UInt16.le_iff_toNat_le.mp (isASCIIDigit_iff.mp h).2
      have hn : (ch '9').toNat = 57 := rfl
      omega
    have hc := ha c.toNat hlt
    rw [UInt16.ofNat_toNat] at hc
    exact hc h

theorem lexToken_number (d : Doubles ν) (mode : ParserMode) (hc : c ∈ numberStarts)
    (ptr : UString) :
    isJSONWhiteSpace c = Bool.false ∧ lexToken d mode c ptr = (do
        let (x,ptr) ← lexNumber d (c::ptr)
        return (.number,.number x,ptr)) := by
  simp only [numberStarts,mem_cons,not_mem_nil,or_false] at hc
  rcases hc with rfl | rfl | rfl | rfl | rfl | rfl | rfl | rfl | rfl | rfl | rfl <;> exact ⟨rfl,rfl⟩

theorem numberText_minusZero : NumberText minusZero := .number (.inr rfl) .zero .none .none

theorem lexToken_numberText {x : ν} (mode : ParserMode) (ht : NumberText text)
    (hr : EndsNumber rest) (hx : NumberValue d text rest x) :
    ∃ c ptr, text ++ rest = c :: ptr ∧ isJSONWhiteSpace c = Bool.false ∧
      ∃ type, lexToken d mode c ptr = .ok (type, .number x, rest) := by
  obtain ⟨x', hn, hv⟩ := lexNumber_complete d ht hr
  obtain ⟨c, text', rfl, hc⟩ := numberText_head ht
  obtain ⟨hw, htok⟩ := lexToken_number d mode (mem_numberStarts hc) (text' ++ rest)
  refine ⟨c, text' ++ rest, rfl, hw, .number, ?_⟩
  rw [cons_append] at hn
  rw [htok, hn, hv.trans hx.symm]
  rfl

/-- In strict mode every token of the grammar is read. -/
theorem lexToken_complete (h : ReadLexeme d text rest token)
    (hr : token.type = .number → EndsNumber rest) :
    ∃ c ptr, text ++ rest = c :: ptr ∧ isJSONWhiteSpace c = Bool.false ∧
      ∃ type, lexToken d .strictJSON c ptr = .ok (type, token, rest) := by
  unfold ReadLexeme at h
  split at h
  next hz =>
    subst h
    exact lexToken_numberText _ (hz.1 ▸ numberText_minusZero) (hr rfl) (if_pos hz).symm
  next hz =>
    cases h with
    | lBracket | rBracket | lBrace | rBrace | comma | colon | true
    | false | null => exact ⟨_,_,rfl,rfl,_,rfl⟩
    | @string text value ht =>
      refine ⟨quotationMark,text++quotationMark::rest,by simp,rfl,.string,?_⟩
      rw [← literalText_strictJSON] at ht
      have hs := lexStringFrom_complete (by decide) (by decide) (by decide) ht [] rest
      change (do
        let (s,ptr) ← lexStringFrom .strictJSON quotationMark [] (text++quotationMark::rest)
        return (TokenType.string,Token.string s,ptr) : Except String _) = _
      rw [hs]
      rfl
    | number ht => exact lexToken_numberText _ ht (hr rfl) (if_neg hz).symm

theorem dropWhile_whiteSpace {w : UString} (hw : WhiteSpace w) (hc : isJSONWhiteSpace c = Bool.false) :
    (w ++ c :: ptr).dropWhile isJSONWhiteSpace = c :: ptr := by
  rw [dropWhile_append_of_pos, dropWhile_cons_of_neg]
  · simp [hc]
  · exact fun x hx => isJSONWhiteSpace_iff.mpr (hw x hx)

/-- `next` takes the token behind white space. -/
theorem Lexer.next_of_lexToken {w : UString} (hw : WhiteSpace w) (hl : l.ptr = w ++ c :: ptr)
    (hc : isJSONWhiteSpace c = Bool.false) (ht : lexToken d mode c ptr = .ok (type, token, rest)) :
    (l.next d mode).2 = { l with ptr := rest, currentToken := token } := by
  unfold Lexer.next
  rw [hl, dropWhile_whiteSpace hw hc]
  simp [ht]

theorem Lexer.lexToken_of_next {w : UString} (hw : WhiteSpace w) (hl : l.ptr = w ++ c :: ptr)
    (hc : isJSONWhiteSpace c = Bool.false)
    (hr : (l.next d mode).2.currentToken.isRead = Bool.true) :
    ∃ type, lexToken d mode c ptr =
      .ok (type, (l.next d mode).2.currentToken, (l.next d mode).2.ptr) := by
  revert hr
  unfold Lexer.next
  rw [hl, dropWhile_whiteSpace hw hc]
  dsimp only
  split
  next ht => exact fun _ => ⟨_, ht⟩
  next => exact fun hr => absurd hr (by simp [Token.isRead])

theorem Lexer.next_complete {w : UString} (hw : WhiteSpace w) (h : ReadLexeme d text rest token)
    (hr : token.type = .number → EndsNumber rest) (hl : l.ptr = w ++ text ++ rest) :
    (l.next d .strictJSON).2 = { l with ptr := rest, currentToken := token } := by
  obtain ⟨c, ptr, hp, hc, type, ht⟩ := lexToken_complete h hr
  exact next_of_lexToken hw (by rw [hl, append_assoc, hp]) hc ht

theorem Lexer.next_of_whiteSpace
    (h : WhiteSpace l.ptr) : (l.next d mode).2 = {l with ptr := [], currentToken := .end} := by
  have hd : l.ptr.dropWhile isJSONWhiteSpace = [] :=
    dropWhile_eq_nil_iff.mpr fun c hc => isJSONWhiteSpace_iff.mpr (h c hc)
  unfold Lexer.next
  rw [hd]

end QPlusWeb.JSC
