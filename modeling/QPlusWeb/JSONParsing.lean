import QPlusWeb.LiteralSoundness
import Mathlib.Data.List.Chain

/-!
# JSON.parse reads JSON

The texts that `tryLiteralParse` accepts in strict mode are the texts of the JSON grammar, and it
returns what they denote, up to two things: it accepts a `;` after the text, and `-0` is read as 0 if
anything follows it.  With these two the texts that it accepts are described exactly.
-/

namespace QPlusWeb.JSC

open JSON ParserVariables List Lexer

variable {ν : Type} {d : Doubles ν}

variable {w s ptr a : UString} {ts us : List (Token ν)} {token t : Token ν} {text rest : UString}
    {l l' : Lexer ν} {v : JSONValue ν} {phrase : Phrase ν}
  {mode : ParserMode}

theorem memberKey_strictJSON : memberKey (ν := ν) .strictJSON = stringKey := by
  funext token
  cases token <;> rfl

/-! ### Texts and tokens -/

theorem whiteSpace_append {w' : UString} (h : WhiteSpace w) (h' : WhiteSpace w') :
    WhiteSpace (w++w') := fun c hc => (mem_append.mp hc).elim (h c) (h' c)

section
variable {lexeme : UString → Token ν → Prop}

theorem lexes_nil : Lexes lexeme [] [] := .done (by simp [WhiteSpace])

theorem lexes_whiteSpace (hw : WhiteSpace w) (h : Lexes lexeme s ts) : Lexes lexeme (w++s) ts := by
  cases h with
  | done hw' => exact .done (whiteSpace_append hw hw')
  | token hw' ht hr =>
    have hl := Lexes.token (whiteSpace_append hw hw') ht hr
    simpa only [append_assoc] using hl

theorem lexes_append {s' : UString} {ts' : List (Token ν)} (h : Lexes lexeme s ts)
    (h' : Lexes lexeme s' ts') : Lexes lexeme (s++s') (ts++ts') := by
  induction h with
  | done hw => exact lexes_whiteSpace hw h'
  | token hw ht _ ih =>
    have hl := Lexes.token hw ht ih
    simpa only [append_assoc,cons_append] using hl

theorem lexes_snoc (h : Lexes lexeme s ts) (hw : WhiteSpace w) (ht : lexeme text token) :
    Lexes lexeme (s++(w++text)) (ts++[token]) := by
  have hl := lexes_append h (.token hw ht lexes_nil)
  rwa [append_nil] at hl

end

/-- The types of the tokens of the grammar. -/
def TokenType.isJSON : TokenType → Bool
  | .lBracket | .rBracket | .lBrace | .rBrace | .string | .number | .colon | .comma | .true
  | .false | .null => Bool.true
  | _ => Bool.false

/-- The tokens of a phrase are tokens of the grammar and keys. -/
theorem forall_of_derives {key : Token ν → Option UString} {p : Token ν → Prop}
    (hjson : ∀ t, t.type.isJSON = Bool.true → p t) (hkey : ∀ t k, key t = some k → p t)
    (h : Derives key phrase ts) : ∀ t ∈ ts, p t := by
  induction h with
  | null | true | false | number | string =>
    rw [forall_mem_singleton]
    exact hjson _ rfl
  | emptyArray | emptyObject =>
    rw [forall_mem_cons,forall_mem_singleton]
    exact ⟨hjson _ rfl,hjson _ rfl⟩
  | array _ ih | object _ ih =>
    rw [forall_mem_cons,forall_mem_append,forall_mem_singleton]
    exact ⟨hjson _ rfl,ih,hjson _ rfl⟩
  | firstElement _ ih => exact ih
  | nextElement _ _ ihs ih =>
    rw [forall_mem_append,forall_mem_cons]
    exact ⟨ihs,hjson _ rfl,ih⟩
  | firstMember hk _ ih =>
    rw [forall_mem_cons,forall_mem_cons]
    exact ⟨hkey _ _ hk,hjson _ rfl,ih⟩
  | nextMember _ hk _ ihs ih =>
    rw [forall_mem_append,forall_mem_cons,forall_mem_cons,forall_mem_cons]
    exact ⟨ihs,hjson _ rfl,hkey _ _ hk,hjson _ rfl,ih⟩

theorem isJSON_of_derives (h : Derives stringKey phrase ts) :
    ∀ t ∈ ts, t.type.isJSON = Bool.true := by
  refine forall_of_derives (fun _ => id) (fun t k hk => ?_) h
  cases t <;> first | rfl | cases hk

/-- The tokens of a script. -/
inductive ScriptLexeme (d : Doubles ν) : UString → Token ν → Prop
  | json {text : UString} {token : Token ν} : Lexeme d text token → ScriptLexeme d text token
  | lParen : ScriptLexeme d [ch '('] .lParen
  | rParen : ScriptLexeme d [ch ')'] .rParen
  | dot : ScriptLexeme d [ch '.'] .dot
  | assign : ScriptLexeme d [ch '='] .assign
  | semi : ScriptLexeme d [ch ';'] .semi
  | identifier {c : UInt16} {text : UString} : isIdentifierStart c = true →
      (∀ c' ∈ text, isIdentifierPart c' = true) →
      ScriptLexeme d (c :: text) (.identifier (c :: text))

theorem punctuation_type {c : UInt16} (h : punctuation c = some token) :
    token.type ≠ .identifier ∧ token.type ≠ .string := by
  have hm := punctuation_cases h
  simp only [mem_cons,Prod.mk.injEq,not_mem_nil,or_false] at hm
  rcases hm with ⟨-,rfl⟩ | ⟨-,rfl⟩ | ⟨-,rfl⟩ | ⟨-,rfl⟩ | ⟨-,rfl⟩ | ⟨-,rfl⟩ | ⟨-,rfl⟩ | ⟨-,rfl⟩ <;>
    simp [Token.type]

theorem scriptLexeme_of_raw (h : RawLexeme d mode text rest token) :
    ScriptLexeme d text token ∨ token.type = .string ∨ text = minusZero ∧ rest ≠ [] := by
  cases h with
  | punctuation hpunc =>
    have hm := punctuation_cases hpunc
    simp only [mem_cons,Prod.mk.injEq,not_mem_nil,or_false] at hm
    rcases hm with ⟨rfl,rfl⟩ | ⟨rfl,rfl⟩ | ⟨rfl,rfl⟩ | ⟨rfl,rfl⟩ | ⟨rfl,rfl⟩ | ⟨rfl,rfl⟩ |
      ⟨rfl,rfl⟩ | ⟨rfl,rfl⟩
    · exact .inl (.json .lBracket)
    · exact .inl (.json .rBracket)
    · exact .inl .lParen
    · exact .inl .rParen
    · exact .inl (.json .lBrace)
    · exact .inl (.json .rBrace)
    · exact .inl (.json .comma)
    · exact .inl (.json .colon)
  | dot => exact .inl .dot
  | assign => exact .inl .assign
  | semi => exact .inl .semi
  | true => exact .inl (.json .true)
  | false => exact .inl (.json .false)
  | null => exact .inl (.json .null)
  | string _ _ => exact .inr (.inl rfl)
  | number ht hv =>
    by_cases hz : text = minusZero ∧ rest ≠ []
    · exact .inr (.inr hz)
    · rw [NumberValue,if_neg hz] at hv
      rw [hv]
      exact .inl (.json (.number ht))
  | identifier hs hp _ => exact .inl (.identifier hs hp)

/-- The strings that the strict lexer reads are JSON. -/
theorem lexeme_of_string
    (h : RawLexeme d .strictJSON text rest token) (htype : token.type = .string) :
    Lexeme d text token := by
  cases h with
  | punctuation hp => exact absurd htype (punctuation_type hp).2
  | string hterm ht =>
    obtain rfl : _ = quotationMark := by simpa using hterm
    rw [literalText_strictJSON] at ht
    exact .string ht
  | _ => cases htype

/-- A `-0` that something follows is read as 0. -/
theorem eq_zero_of_raw (h : RawLexeme d mode text rest token) (hz : text = minusZero ∧ rest ≠ []) :
    token = .number (d.round Bool.false 0) := by
  cases h with
  | number ht hv => rw [hv, if_pos hz]
  | punctuation => cases (cons.inj hz.1).2
  | string hq _ =>
    rw [(cons.inj hz.1).1] at hq
    exact absurd hq (by simp [quotationMark, apostrophe, ch])
  | identifier hs _ _ =>
    rw [(cons.inj hz.1).1] at hs
    exact absurd hs (by decide)
  | _ => exact absurd hz.1 (by decide)

/-- The tokens of the grammar that are read have a text of the grammar. -/
theorem readLexeme_of_raw (h : RawLexeme d .strictJSON text rest token)
    (hj : token.type.isJSON = Bool.true) : ReadLexeme d text rest token := by
  unfold ReadLexeme
  split
  next hz => exact eq_zero_of_raw h hz
  next hz =>
    rcases scriptLexeme_of_raw h with hl | hs | hz'
    · cases hl with
      | json hl => exact hl
      | _ => cases hj
    · exact lexeme_of_string h hs
    · exact absurd hz' hz

theorem isRead_of_isJSON (h : token.type.isJSON = Bool.true) : token.isRead = Bool.true := by
  cases token <;> first | rfl | cases h

/-! ### The tokens that are read -/

/-- A text of tokens as it is read before `behind`: every `-0` that something follows is 0. -/
inductive Readable (d : Doubles ν) (behind : UString) : UString → List (Token ν) → Prop
  | done {w : UString} : WhiteSpace w → Readable d behind w []
  | token {w text rest : UString} {token : Token ν} {tokens : List (Token ν)} : WhiteSpace w →
      ReadLexeme d text (rest ++ behind) token → Readable d behind rest tokens →
      Readable d behind (w ++ text ++ rest) (token :: tokens)

variable {behind : UString}

/-- The text of the tokens that are read up to the end or up to a `;`. -/
theorem readable_of_consumes (h : Consumes d .strictJSON (l.after d .strictJSON) ts l')
    (hj : ∀ t ∈ ts, t.type.isJSON = Bool.true)
    (hend : l'.currentToken = .end ∧ behind = [] ∨
      l'.currentToken = .semi ∧ behind = ch ';' :: l'.ptr) :
    ∃ ptr, l.ptr = ptr ++ behind ∧ Readable d behind ptr ts := by
  induction ts generalizing l with
  | nil =>
    obtain rfl : l.after d .strictJSON = l' := h
    rcases hend with ⟨he, rfl⟩ | ⟨hs, rfl⟩
    · exact ⟨l.ptr, (append_nil _).symm, .done (next_end he)⟩
    · obtain ⟨w, ptr, hw, hp, text, ht, -, hraw, -⟩ :=
        next_sound (congrArg Token.isRead hs : (l.after d .strictJSON).currentToken.isRead = _)
      rw [hs] at hraw
      cases hraw with
      | punctuation hpunc => simpa using punctuation_cases hpunc
      | semi => exact ⟨w, by rw [hp, ht]; rfl, .done hw⟩
  | cons t ts ih =>
    obtain ⟨ht, hrest⟩ := h
    rw [forall_mem_cons] at hj
    have hread : (l.after d .strictJSON).currentToken.isRead = Bool.true := by
      rw [ht]
      exact isRead_of_isJSON hj.1
    obtain ⟨w, ptr, hw, hp, text, htext, -, hr, -⟩ := next_sound hread
    rw [ht] at hr
    obtain ⟨rest, hrest', hreadable⟩ := ih hrest hj.2
    have hlexeme := readLexeme_of_raw hr hj.1
    rw [hrest'] at hlexeme
    refine ⟨w ++ text ++ rest, ?_, .token hw hlexeme hreadable⟩
    rw [hp, htext, show (l.next d .strictJSON).2.ptr = _ from hrest']
    simp

/-! ### The tokens of a text -/

/-- In a value a number is followed by a comma or a closing bracket. -/
def Separated (ts : List (Token ν)) : Prop :=
  List.IsChain (fun a b => a.type = .number → b.type = .comma ∨ b.type = .rBracket ∨
    b.type = .rBrace) ts

theorem separated_append (hts : Separated ts) (hus : Separated (t :: us))
    (ht : t.type = .comma ∨ t.type = .rBracket ∨ t.type = .rBrace) : Separated (ts ++ t :: us) := by
  refine isChain_append.mpr ⟨hts,hus,?_⟩
  intro x _ y hy _
  obtain rfl : t = y := Option.some.inj hy
  exact ht

theorem separated_cons (hts : Separated ts) (ht : t.type ≠ .number) : Separated (t::ts) := by
  cases ts with
  | nil => exact .singleton _
  | cons t' ts => exact .cons_cons (fun h => absurd h ht) hts

theorem separated_of_derives (h : Derives stringKey phrase ts) : Separated ts := by
  have hkey : ∀ {t : Token ν} {k : UString}, stringKey t = some k → t.type ≠ .number := by
    intro t k hk
    cases t with
    | number x => cases hk
    | _ => simp [Token.type]
  induction h with
  | null | true | false | number | string => exact .singleton _
  | emptyArray | emptyObject => exact separated_cons (.singleton _) (by simp [Token.type])
  | array _ ih =>
    refine separated_cons ?_ (by simp [Token.type])
    exact separated_append ih (.singleton _) (.inr (.inl rfl))
  | object _ ih =>
    refine separated_cons ?_ (by simp [Token.type])
    exact separated_append ih (.singleton _) (.inr (.inr rfl))
  | firstElement _ ih => exact ih
  | nextElement _ _ ihs ih =>
    exact separated_append ihs (separated_cons ih (by simp [Token.type])) (.inl rfl)
  | firstMember hk _ ih => exact separated_cons (separated_cons ih (by simp [Token.type])) (hkey hk)
  | @nextMember _ _ t _ _ us _ hk _ ihs ih =>
    have hm : Separated (t::.colon::us) :=
      separated_cons (separated_cons ih (by simp [Token.type])) (hkey hk)
    exact separated_append ihs (separated_cons hm (by simp [Token.type])) (.inl rfl)

theorem endsNumber_whiteSpace (hw : WhiteSpace w) (hr : EndsNumber rest) :
    EndsNumber (w++rest) := by
  cases w with
  | nil => exact hr
  | cons c w =>
    intro c' hc'
    obtain rfl : c = c' := Option.some.inj hc'
    rcases hw c (.head _) with rfl | rfl | rfl | rfl <;> decide

theorem endsNumber_of_readable {x : ν} (h : Readable d behind rest ts) (hb : EndsNumber behind)
    (hts : Separated (.number x :: ts)) : EndsNumber (rest ++ behind) := by
  cases h with
  | done hw => exact endsNumber_whiteSpace hw hb
  | @token w text rest token tokens hw ht _ =>
    rw [append_assoc, append_assoc]
    refine endsNumber_whiteSpace hw ?_
    have hn (c : UInt16)
        (hc : isASCIIDigit c = Bool.false ∧ c ≠ ch '.' ∧ c ≠ ch 'e' ∧ c ≠ ch 'E') :
        EndsNumber ([c] ++ (rest ++ behind)) := by
      intro c' hc'
      obtain rfl : c = c' := Option.some.inj hc'
      exact hc
    cases hts with
    | cons_cons hf _ =>
      unfold ReadLexeme at ht
      split at ht
      next =>
        subst ht
        simp [Token.type] at hf
      next =>
        have htype := hf rfl
        cases ht <;> first | exact hn _ (by decide) | simp [Token.type] at htype

/-- The lexer reads the tokens of a text up to what is behind it. -/
theorem consumes_of_readable (h : Readable d behind ptr ts) (hl : l.ptr = ptr ++ behind)
    (hb : EndsNumber behind) (hts : Separated ts) :
    ∃ (l' : Lexer ν) (w : UString), Consumes d .strictJSON (l.after d .strictJSON) ts
      (l'.after d .strictJSON) ∧ WhiteSpace w ∧ l'.ptr = w ++ behind := by
  induction h generalizing l with
  | @done w hw => exact ⟨l, w, rfl, hw, hl⟩
  | @token w text rest token tokens hw ht hr ih =>
    have hn : l.after d .strictJSON = { l with ptr := rest ++ behind, currentToken := token } := by
      refine next_complete hw ht (fun hnum => ?_) (by rw [hl, append_assoc])
      cases token <;> simp [Token.type] at hnum
      exact endsNumber_of_readable hr hb hts
    obtain ⟨l', w', hc, hw'⟩ := ih (l := l.after d .strictJSON) (by rw [hn]) hts.tail
    exact ⟨l', w', ⟨by rw [hn], hc⟩, hw'⟩

/-! ### JSON.parse -/

/-- The text before `behind`, as it is read, denotes the value. -/
def ReadText (d : Doubles ν) (behind s : UString) (v : JSONValue ν) : Prop :=
  ∃ ts, Readable d behind s ts ∧ Derives stringKey (.value v) ts

/-- The text is one that denotes the value, with a `;` and white space behind it. -/
def SemicolonText (d : Doubles ν) (s : UString) (v : JSONValue ν) : Prop :=
  ∃ t w, s = t ++ ch ';' :: w ∧ WhiteSpace w ∧ ReadText d (ch ';' :: w) t v

/-- The lexer after a `;`, which `tryLiteralParse` skips. -/
def skipSemicolon (d : Doubles ν) (l : Lexer ν) : Lexer ν :=
  if l.currentToken.type = .semi then l.after d .strictJSON else l

/-- `tryLiteralParse` keeps the value if the text ends after it. -/
theorem tryLiteralParse_value {result : ParseEnd ν}
    (h : parse d .strictJSON .startParseExpression ((start s).after d .strictJSON) = some result) :
    ∃ r, tryLiteralParse d .strictJSON s = some r ∧
      r.value = if (skipSemicolon d result.lexer).currentToken.type = .end then result.value
        else none := by
  change ∃ r, (parse d .strictJSON .startParseExpression
    ((start s).after d .strictJSON)).bind _ = some r ∧ _
  rw [h,Option.bind_some]
  by_cases he : (skipSemicolon d result.lexer).currentToken.type = .end
  · rw [if_pos he]
    exact ⟨_,if_neg (not_not_intro he),rfl⟩
  · rw [if_neg he]
    exact ⟨_,if_pos he,rfl⟩

theorem eq_end_of_type (h : t.type = .end) : t = .end := by
  cases t <;> first | rfl | cases h

theorem eq_semi_of_type (h : t.type = .semi) : t = .semi := by
  cases t <;> first | rfl | cases h

/-- The value of a text that is read up to what is behind it, if this ends the input. -/
theorem tryLiteralParse_readText (h : ReadText d behind ptr v) (hs : s = ptr ++ behind)
    (hb : EndsNumber behind) (hend : ∀ (l : Lexer ν) w, WhiteSpace w → l.ptr = w ++ behind →
      (skipSemicolon d (l.after d .strictJSON)).currentToken = .end) :
    ∃ r, tryLiteralParse d .strictJSON s = some r ∧ r.value = some v := by
  obtain ⟨ts, hr, hd⟩ := h
  obtain ⟨l', w, hc, hw, hl'⟩ :=
    consumes_of_readable (l := start s) hr hs hb (separated_of_derives hd)
  rw [← memberKey_strictJSON] at hd
  obtain ⟨r, hr, hv⟩ := tryLiteralParse_value (parse_complete hc hd)
  rw [if_pos (by rw [hend l' w hw hl']; rfl)] at hv
  exact ⟨r, hr, hv⟩

theorem endsNumber_nil : EndsNumber [] := fun c hc => by cases hc

theorem tryLiteralParse_readable (h : Readable d [] s ts) (hd : Derives stringKey (.value v) ts) :
    ∃ r, tryLiteralParse d .strictJSON s = some r ∧ r.value = some v := by
  refine tryLiteralParse_readText ⟨ts, h, hd⟩ (append_nil s).symm endsNumber_nil ?_
  intro l w hw hl
  rw [append_nil] at hl
  rw [skipSemicolon, Lexer.after, next_of_whiteSpace (hl ▸ hw), if_neg (by simp [Token.type])]

theorem after_semicolon (hw : WhiteSpace w) (hl : l.ptr = w ++ ch ';' :: rest) :
    l.after d .strictJSON = { l with ptr := rest, currentToken := .semi } :=
  next_of_lexToken hw hl rfl (rfl : lexToken d .strictJSON (ch ';') rest = .ok (.assign, .semi, rest))

theorem endsNumber_semicolon : EndsNumber (ch ';' :: rest) := by
  intro c hc
  obtain rfl : ch ';' = c := Option.some.inj hc
  decide

theorem tryLiteralParse_semicolonText (h : SemicolonText d s v) :
    ∃ r, tryLiteralParse d .strictJSON s = some r ∧ r.value = some v := by
  obtain ⟨t, w, hs, hw, ht⟩ := h
  refine tryLiteralParse_readText ht hs endsNumber_semicolon fun l w' hw' hl => ?_
  rw [after_semicolon hw' hl, skipSemicolon, if_pos (by rfl), Lexer.after, next_of_whiteSpace hw]

/-- What `tryLiteralParse` accepts, and the value that it returns. -/
theorem tryLiteralParse_value_iff (d : Doubles ν) (s : UString) :
    ∃ r, tryLiteralParse d .strictJSON s = some r ∧
      ∀ v, r.value = some v ↔ ReadText d [] s v ∨ SemicolonText d s v := by
  obtain ⟨result, hp, hsound⟩ := parse_sound d .strictJSON ((start s).after d .strictJSON)
  obtain ⟨r, hr, hval⟩ := tryLiteralParse_value hp
  refine ⟨r, hr, fun v => ⟨fun hv => ?_, fun h => ?_⟩⟩
  · rw [hval] at hv
    split at hv
    next he =>
      obtain ⟨ts, hc, hd⟩ := hsound v hv
      rw [memberKey_strictJSON] at hd
      have hj := isJSON_of_derives hd
      unfold skipSemicolon at he
      split at he
      next hsemi =>
        obtain ⟨t, ht, hread⟩ := readable_of_consumes hc hj (.inr ⟨eq_semi_of_type hsemi, rfl⟩)
        exact .inr ⟨t, _, ht, next_end (eq_end_of_type he), ts, hread, hd⟩
      next =>
        obtain ⟨t, ht, hread⟩ := readable_of_consumes hc hj (.inl ⟨eq_end_of_type he, rfl⟩)
        rw [append_nil] at ht
        obtain rfl : s = t := ht
        exact .inl ⟨ts, hread, hd⟩
    next => cases hv
  · obtain ⟨r', hr', hv⟩ : ∃ r, tryLiteralParse d .strictJSON s = some r ∧ r.value = some v :=
      h.elim (fun ⟨ts, hr, hd⟩ => tryLiteralParse_readable hr hd) tryLiteralParse_semicolonText
    obtain rfl : r = r' := Option.some.inj (hr.symm.trans hr')
    exact hv

/-! ### Texts that end with a semicolon -/

/-- A text of the grammar is read with the same types of tokens. -/
theorem exists_readable (h : Lexes (Lexeme d) s ts) :
    ∃ us, Readable d [] s us ∧ us.map Token.type = ts.map Token.type := by
  induction h with
  | done hw => exact ⟨[], .done hw, rfl⟩
  | @token w text rest token tokens hw ht _ ih =>
    obtain ⟨us, hus, htypes⟩ := ih
    by_cases hz : text = minusZero ∧ rest ++ [] ≠ []
    · have hread : ReadLexeme d text (rest ++ []) (.number (d.round Bool.false 0)) := by
        rw [ReadLexeme, if_pos hz]
      refine ⟨_ :: us, .token hw hread hus, ?_⟩
      obtain rfl := hz.1
      have htype : token.type = .number := by
        generalize hm : minusZero = text at ht
        cases ht <;> first | rfl | cases hm
      rw [map_cons, map_cons, htypes, htype]
      rfl
    · exact ⟨token :: us, .token hw (by rwa [ReadLexeme, if_neg hz]) hus, by simp [htypes]⟩

theorem isChain_of_types {R : TokenType → TokenType → Prop}
    (h : us.map Token.type = ts.map Token.type)
    (hts : List.IsChain (fun a b => R a.type b.type) ts) :
    List.IsChain (fun a b => R a.type b.type) us :=
  (isChain_map Token.type).mp (h ▸ (isChain_map Token.type).mpr hts)

/-- The tokens up to the end and up to a `;` are not the same. -/
theorem not_consumes_semi {l₁ l₂ : Lexer ν} (h : Consumes d mode l ts l₁)
    (he : l₁.currentToken = .end) (hts : ∀ t ∈ ts, t.type.isJSON = Bool.true)
    (h' : Consumes d mode l us l₂) (hs : l₂.currentToken = .semi)
    (hus : ∀ t ∈ us, t.type.isJSON = Bool.true) : False := by
  induction ts generalizing l us with
  | nil =>
    obtain rfl : l = l₁ := h
    cases us with
    | nil =>
      obtain rfl : l = l₂ := h'
      cases he.symm.trans hs
    | cons u us =>
      have hu := hus u (.head _)
      rw [← h'.1, he] at hu
      cases hu
  | cons t ts ih =>
    rw [forall_mem_cons] at hts
    cases us with
    | nil =>
      obtain rfl : l = l₂ := h'
      have ht := hts.1
      rw [← h.1, hs] at ht
      cases ht
    | cons u us => exact ih h.2 hts.2 h'.2 (forall_mem_cons.mp hus).2

theorem not_semicolonText (h : Text d s v) (w : JSONValue ν) : ¬ SemicolonText d s w := by
  rintro ⟨t, b, rfl, -, us, hus, hdu⟩
  obtain ⟨ts, hl, hd⟩ := h
  obtain ⟨ts', hts', htypes⟩ := exists_readable hl
  have hjson : ∀ t ∈ ts', t.type.isJSON = Bool.true := by
    have hall := isJSON_of_derives hd
    rw [← forall_mem_map (f := Token.type) (P := fun type => type.isJSON = Bool.true)] at hall ⊢
    rwa [htypes]
  obtain ⟨l₁, w₁, hc₁, hw₁, hl₁⟩ := consumes_of_readable (l := start (t ++ ch ';' :: b)) hts'
    (append_nil _).symm endsNumber_nil (isChain_of_types (R := fun a b => a = .number →
      b = .comma ∨ b = .rBracket ∨ b = .rBrace) htypes (separated_of_derives hd))
  obtain ⟨l₂, w₂, hc₂, hw₂, hl₂⟩ := consumes_of_readable (l := start (t ++ ch ';' :: b)) hus rfl
    endsNumber_semicolon (separated_of_derives hdu)
  rw [append_nil] at hl₁
  refine not_consumes_semi hc₁ ?_ hjson hc₂ ?_ (isJSON_of_derives hdu)
  · rw [Lexer.after, next_of_whiteSpace (hl₁ ▸ hw₁)]
  · rw [after_semicolon hw₂ hl₂]

/-- `JSON.parse` returns, with a value if and only if the text is a JSON text that denotes it: this
holds exactly if the text is not one with a `;` behind it and it makes no difference to read a `-0`
that something follows as 0. -/
theorem json_parse_accepts_json_iff (d : Doubles ν) (s : UString) :
    (∃ r, tryLiteralParse d .strictJSON s = some r ∧ ∀ v, r.value = some v ↔ Text d s v) ↔
      (¬ ∃ v, SemicolonText d s v) ∧ ∀ v, ReadText d [] s v ↔ Text d s v := by
  obtain ⟨r, hr, hval⟩ := tryLiteralParse_value_iff d s
  constructor
  · rintro ⟨r', hr', hiff⟩
    obtain rfl : r = r' := Option.some.inj (hr.symm.trans hr')
    have hsemi : ¬ ∃ v, SemicolonText d s v := by
      rintro ⟨v, hv⟩
      exact not_semicolonText ((hiff v).mp ((hval v).mpr (.inr hv))) v hv
    refine ⟨hsemi, fun v => ?_⟩
    rw [← hiff, hval]
    exact ⟨.inl, fun h => h.resolve_right fun hv => hsemi ⟨v, hv⟩⟩
  · rintro ⟨hsemi, hiff⟩
    refine ⟨r, hr, fun v => ?_⟩
    rw [hval, hiff]
    exact ⟨fun h => h.resolve_right fun hv => hsemi ⟨v, hv⟩, .inl⟩

/-- `1;` is not a JSON text. -/
theorem not_text_semicolon (v : JSONValue Bool) : ¬ Text signs ("1;".toList.map ch) v := by
  intro h
  have hn : WhiteSpace [] := by simp [WhiteSpace]
  have hone : IntegerText [ch '1'] := .digits (by decide) (by decide) (by simp)
  have hnum : ReadLexeme signs [ch '1'] [ch ';'] (.number (parseDouble signs [ch '1'])) := by
    rw [ReadLexeme, if_neg (by decide)]
    exact .number (.number (.inl rfl) hone .none .none)
  exact not_semicolonText h _ ⟨[ch '1'], [], rfl, hn, _, .token hn hnum (.done hn), .number⟩

theorem text_negativeZero :
    Text signs ("[-0]".toList.map ch) (.array [.number Bool.true]) := by
  have hn : WhiteSpace [] := by simp [WhiteSpace]
  have hnum : Lexeme signs minusZero (.number Bool.true) := .number numberText_minusZero
  refine ⟨[.lBracket,.number Bool.true,.rBracket],?_,.array (.firstElement .number)⟩
  exact .token hn .lBracket (.token hn hnum (.token hn .rBracket lexes_nil))

/-- `1;` is accepted, and the number in `[-0]` is not negative. -/
theorem json_parse_accepts_semicolon :
    (tryLiteralParse signs .strictJSON ("1;".toList.map ch)).bind ParseEnd.value =
        some (.number Bool.false) ∧
      (∀ v, ¬ Text signs ("1;".toList.map ch) v) ∧
    (tryLiteralParse signs .strictJSON ("[-0]".toList.map ch)).bind ParseEnd.value =
        some (.array [.number Bool.false]) ∧
      Text signs ("[-0]".toList.map ch) (.array [.number Bool.true]) :=
  ⟨rfl,not_text_semicolon,rfl,text_negativeZero⟩

end QPlusWeb.JSC
