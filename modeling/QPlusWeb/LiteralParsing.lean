import QPlusWeb.LiteralParser
import QPlusWeb.LiteralLexing

/-!
# The values that the automaton parses

The stacks of the automaton are a list of frames: the arrays and objects that have been opened, and the
keys that wait for a value.  What each label does to the frames is said once; from that follows, by
induction on the derivation, that the automaton parses every value of the grammar.
-/

namespace QPlusWeb.JSC

open JSON ProbeSequence ParserVariables Token

variable {ν : Type} {ts : List (Token ν)} {v : JSONValue ν} {ms : List (UString × JSONValue ν)}
  {token t : Token ν} {vs : List (JSONValue ν)} {phrase : Phrase ν} {k : UString}

/-- An array or an object under construction. -/
inductive Frame (ν : Type) where
  | array (elements : List (JSONValue ν))
  | object (members : List (UString × JSONValue ν)) (key : UString)

namespace Frame

/-- Where the automaton goes on when the value has been read. -/
def state : Frame ν → ParserState
  | .array _ => .doParseArrayEndExpression
  | .object _ _ => .doParseObjectEndExpression

def container : Frame ν → JSONValue ν
  | .array elements => .array elements
  | .object members _ => .object members

def key? : Frame ν → Option UString
  | .array _ => none
  | .object _ key => some key

end Frame

variable (frames : List (Frame ν))

/-- The variables with these frames on the stacks. -/
def framed (lastValue : Option (JSONValue ν)) (l : Lexer ν) : ParserVariables ν :=
  ⟨l, frames.map Frame.container, lastValue, frames.map Frame.state, frames.filterMap Frame.key?⟩

/-- The variables with an open array or object that no value is read for. -/
def opened (container : JSONValue ν) (frames : List (Frame ν)) (lastValue : Option (JSONValue ν))
    (l : Lexer ν) : ParserVariables ν :=
  ⟨l, container :: frames.map Frame.container, lastValue, frames.map Frame.state,
    frames.filterMap Frame.key?⟩

def atExpression (lastValue : Option (JSONValue ν)) (l : Lexer ν) :
    ParserState × ParserVariables ν :=
  (.startParseExpression, framed frames lastValue l)

/-- The value of a frame has been read. -/
def atEnd (frame : Frame ν) (frames : List (Frame ν)) (value : JSONValue ν) (l : Lexer ν) :
    ParserState × ParserVariables ν :=
  (frame.state,
    ⟨l, frame.container :: frames.map Frame.container, some value, frames.map Frame.state,
      (frame :: frames).filterMap Frame.key?⟩)

/-- A value is complete. -/
def completed (value : JSONValue ν) (l : Lexer ν) : ParserStep ν :=
  match frames with
  | [] => .inr (some ⟨some value, "", l⟩)
  | frame :: frames => .inl (atEnd frame frames value l)

theorem complete_framed (value : JSONValue ν) (l : Lexer ν) :
    (framed frames (some value) l).complete = completed frames value l := by
  cases frames with
  | nil | cons frame frames => rfl

/-! ### What the labels do -/

section
variable {d : Doubles ν} {mode : ParserMode} {frames : List (Frame ν)}
  {lastValue : Option (JSONValue ν)} {l : Lexer ν}

/-- The lexer after its current token. -/
abbrev Lexer.after (d : Doubles ν) (mode : ParserMode) (l : Lexer ν) : Lexer ν := (l.next d mode).2

/-- The types that `parse` compares with what `next()` returns. -/
theorem returnedType_eq_iff : (token.returnedType = .rBracket ↔ token.type = .rBracket) ∧
      (token.returnedType = .rBrace ↔ token.type = .rBrace) ∧
      (token.returnedType = .colon ↔ token.type = .colon) := by
  cases token <;> simp [returnedType,type]

theorem eq_of_type :
    (token.type = .comma → token = .comma) ∧ (token.type = .rBracket → token = .rBracket) ∧
      (token.type = .rBrace → token = .rBrace) ∧ (token.type = .colon → token = .colon) := by
  cases token <;> simp [type]

/-- The tokens that are values. -/
def literalValue : Token ν → Option (JSONValue ν)
  | .string s => some (.string s)
  | .number x => some (.number x)
  | .null => some .null
  | .true => some (.bool Bool.true)
  | .false => some (.bool Bool.false)
  | _ => none

theorem literal_framed (value : JSONValue ν) :
    (framed frames lastValue l).literal d mode value = completed frames value (l.after d mode) := by
  rw [← complete_framed]
  rfl

theorem step_literal {value : JSONValue ν} (h : literalValue l.currentToken = some value) :
    step d mode (atExpression frames lastValue l) = completed frames value (l.after d mode) := by
  change startParseExpression d mode (framed frames lastValue l) = _
  have ht : (framed frames lastValue l).lexer.currentToken = l.currentToken := rfl
  rw [startParseExpression,ht]
  cases hc : l.currentToken <;> rw [hc] at h <;>
    simp only [literalValue,Option.some.injEq,reduceCtorEq] at h <;> subst h <;>
    exact literal_framed _

theorem step_lBracket (h : l.currentToken = .lBracket) :
    step d mode (atExpression frames lastValue l) =
      .inl (.startParseArray,framed frames lastValue l) := by
  change startParseExpression d mode (framed frames lastValue l) = _
  have ht : (framed frames lastValue l).lexer.currentToken = .lBracket := h
  rw [startParseExpression,ht]

theorem step_lBrace (h : l.currentToken = .lBrace) : step d mode (atExpression frames lastValue l) =
      .inl (.startParseObject,framed frames lastValue l) := by
  change startParseExpression d mode (framed frames lastValue l) = _
  have ht : (framed frames lastValue l).lexer.currentToken = .lBrace := h
  rw [startParseExpression,ht]

/-- No other token starts a value. -/
theorem step_unexpected (hv : literalValue l.currentToken = none)
    (hbrac : l.currentToken ≠ .lBracket) (hb : l.currentToken ≠ .lBrace) :
    ∃ message, step d mode (atExpression frames lastValue l) = .inr (some ⟨none,message,l⟩) := by
  change ∃ message, startParseExpression d mode (framed frames lastValue l) = _
  have ht : (framed frames lastValue l).lexer.currentToken = l.currentToken := rfl
  rw [startParseExpression,ht]
  cases hc : l.currentToken <;> rw [hc] at hv hbrac hb <;>
    first
      | exact ⟨_,rfl⟩
      | exact absurd rfl hbrac
      | exact absurd rfl hb
      | exact absurd hv (by simp [literalValue])

theorem closeObject_opened (container : JSONValue ν) :
    (opened container frames lastValue l).closeObject d mode =
      completed frames container (l.after d mode) := literal_framed container

theorem step_arrayStart (elements : List (JSONValue ν)) :
    step d mode (.doParseArrayStartExpression,opened (.array elements) frames lastValue l) =
      if (l.after d mode).currentToken.type = .rBracket then
        if l.currentToken.type = .comma then
          .inr (some ⟨none, "Unexpected comma at the end of array expression",l.after d mode⟩)
        else completed frames (.array elements) ((l.after d mode).after d mode)
      else .inl (atExpression (.array elements::frames) lastValue (l.after d mode)) := by
  change (if (l.next d mode).1 = .rBracket then
      if l.currentToken.type = .comma then _ else
        (opened (.array elements) frames lastValue (l.after d mode)).closeObject d mode
    else _) = _
  simp only [Lexer.next_type,returnedType_eq_iff.1,closeObject_opened]
  rfl

theorem step_arrayEnd (elements : List (JSONValue ν)) (value : JSONValue ν) :
    step d mode (atEnd (.array elements) frames value l) =
      if l.currentToken.type = .comma then
        .inl (.doParseArrayStartExpression,
          opened (.array (elements++[value])) frames (some value) l)
      else if l.currentToken.type ≠ .rBracket then .inr (some ⟨none, "Expected ']'",l⟩)
      else completed frames (.array (elements++[value])) (l.after d mode) := by
  rw [← closeObject_opened]
  rfl

variable (members : List (UString × JSONValue ν))

theorem member_opened (key : UString) (message : String) :
    (opened (.object members) frames lastValue l).member d mode key message =
      if (l.after d mode).currentToken.type ≠ .colon then
        .inr (some ⟨none,message,l.after d mode⟩)
      else
        .inl (atExpression (.object members key::frames) lastValue
          ((l.after d mode).after d mode)) := by
  change (if (l.next d mode).1 ≠ .colon then _ else _) = _
  simp only [Lexer.next_type,ne_eq,returnedType_eq_iff.2.2]
  rfl

theorem step_objectStart : step d mode (.startParseObject,framed frames lastValue l) =
      match memberKey mode (l.after d mode).currentToken with
      | some key =>
        (opened (.object []) frames lastValue (l.after d mode)).member d mode key
          "Expected ':' before value in object property definition"
      | none =>
        if (l.after d mode).currentToken.type ≠ .rBrace then
          .inr (some ⟨none, "Expected '\x7d'",l.after d mode⟩)
        else completed frames (.object []) ((l.after d mode).after d mode) := by
  change (match memberKey mode (l.after d mode).currentToken with
    | some key =>
      (opened (.object []) frames lastValue (l.after d mode)).member d mode key
        "Expected ':' before value in object property definition"
    | none =>
      if (l.next d mode).1 ≠ TokenType.rBrace then _
      else (opened (.object []) frames lastValue (l.after d mode)).closeObject d mode) = _
  simp only [Lexer.next_type,ne_eq,returnedType_eq_iff.2.1,closeObject_opened]
  rfl

theorem step_objectNext :
    step d mode (.doParseObjectStartExpression,opened (.object members) frames lastValue l) =
      match memberKey mode (l.after d mode).currentToken with
      | some key =>
        (opened (.object members) frames lastValue (l.after d mode)).member d mode key "Expected ':'"
      | none =>
        .inr (some ⟨none, "Property name must be a string literal",l.after d mode⟩) := rfl

theorem step_objectEnd (key : UString) (value : JSONValue ν) :
    step d mode (atEnd (.object members key) frames value l) =
      if l.currentToken.type = .comma then
        .inl (.doParseObjectStartExpression,
          opened (.object (putMember members key value)) frames (some value) l)
      else if l.currentToken.type ≠ .rBrace then .inr (some ⟨none, "Expected '\x7d'",l⟩)
      else completed frames (.object (putMember members key value)) (l.after d mode) := by
  rw [← closeObject_opened]
  rfl

end

/-! ### Reading tokens -/

/-- The lexer comes from one place to another by reading the tokens. -/
def Consumes (d : Doubles ν) (mode : ParserMode) : Lexer ν → List (Token ν) → Lexer ν → Prop
  | l, [], l' => l = l'
  | l, token :: tokens, l' => l.currentToken = token ∧ Consumes d mode (l.after d mode) tokens l'

section
variable {d : Doubles ν} {mode : ParserMode} {l l' l'' : Lexer ν} {ts us : List (Token ν)}

theorem consumes_append : Consumes d mode l (ts++us) l'' ↔
      ∃ l', Consumes d mode l ts l' ∧ Consumes d mode l' us l'' := by
  induction ts generalizing l with
  | nil =>
    constructor
    · exact fun h => ⟨l,rfl,h⟩
    · rintro ⟨l',rfl,h⟩
      exact h
  | cons token ts ih =>
    constructor
    · rintro ⟨ht,h⟩
      obtain ⟨l',hts,hus⟩ := ih.mp h
      exact ⟨l',⟨ht,hts⟩,hus⟩
    · rintro ⟨l',⟨ht,hts⟩,hus⟩
      exact ⟨ht,ih.mpr ⟨l',hts,hus⟩⟩

theorem Consumes.append (h : Consumes d mode l ts l') (h' : Consumes d mode l' us l'') :
    Consumes d mode l (ts++us) l'' := consumes_append.mpr ⟨l',h,h'⟩

theorem Consumes.snoc (h : Consumes d mode l ts l')
    (ht : l'.currentToken = token) : Consumes d mode l (ts++[token]) (l'.after d mode) :=
  h.append ⟨ht,rfl⟩

end

/-! ### Every value is parsed -/

section
variable {d : Doubles ν} {mode : ParserMode}

/-- The first token of a phrase. -/
def StartsPhrase (mode : ParserMode) : Phrase ν → Token ν → Prop
  | .value _, token => token.type ≠ .rBracket
  | .elements _, token => token.type ≠ .rBracket
  | .members _, token => ∃ key, memberKey mode token = some key

theorem exists_first {ts : List (Token ν)} (h : Derives (memberKey mode) phrase ts) :
    ∃ token us, ts = token::us ∧ StartsPhrase mode phrase token := by
  induction h with
  | null | true | false | number | string | emptyArray | array | emptyObject | object =>
    exact ⟨_,_,rfl,by simp [StartsPhrase,type]⟩
  | firstElement _ ih => exact ih
  | nextElement _ _ ih _ =>
    obtain ⟨token,us,rfl,hs⟩ := ih
    exact ⟨token,_,rfl,hs⟩
  | firstMember hk _ _ => exact ⟨_,_,rfl,_,hk⟩
  | nextMember _ _ _ ih _ =>
    obtain ⟨token,us,rfl,hs⟩ := ih
    exact ⟨token,_,rfl,hs⟩

/-- What the automaton does with the tokens of a phrase: after the last element or member it is at the
end of an expression. -/
def Parses (d : Doubles ν) (mode : ParserMode) : Phrase ν → List (Token ν) → Prop
  | .value v, ts => ∀ frames last l l' r, Consumes d mode l ts l' →
      Yields (step d mode) (completed frames v l') r →
      Ends (step d mode) (atExpression frames last l) r
  | .elements vs, ts => ∃ init v, vs = init ++ [v] ∧ ∀ frames last l l' r, Consumes d mode l ts l' →
      Ends (step d mode) (atEnd (.array init) frames v l') r →
      Ends (step d mode) (atExpression (.array [] :: frames) last l) r
  | .members ms, ts => ∃ init k v, ms = init ++ [(k, v)] ∧ ∀ frames last l l' r message key,
      Consumes d mode l ts l' → memberKey mode l.currentToken = some key →
      Ends (step d mode) (atEnd (.object (objectOf init) k) frames v l') r →
      Yields (step d mode) ((opened (.object []) frames last l).member d mode key message) r

theorem parses_literal (h : literalValue token = some v) : Parses d mode (.value v) [token] := by
  rintro frames last l l' r ⟨ht,rfl⟩ hr
  refine ends_of_yields ?_
  rwa [step_literal (by rw [ht]; exact h)]

theorem ends_lBracket {frames : List (Frame ν)} {last : Option (JSONValue ν)} {l : Lexer ν}
    {r : Option (ParseEnd ν)} (ho : l.currentToken = .lBracket)
    (h : Yields (step d mode)
      (step d mode (.doParseArrayStartExpression,opened (.array []) frames last l)) r) :
    Ends (step d mode) (atExpression frames last l) r := by
  refine ends_of_yields ?_
  rw [step_lBracket ho]
  refine ends_of_yields ?_
  exact ends_of_yields h

theorem parses_emptyArray : Parses d mode (.value (.array [])) [.lBracket,.rBracket] := by
  rintro frames last l l' r ⟨ho,hc,rfl⟩ hr
  refine ends_lBracket ho ?_
  rw [step_arrayStart,if_pos (by rw [hc]; rfl),if_neg (by rw [ho]; simp [type])]
  exact hr

theorem parses_array
    (h : Derives (memberKey mode) (.elements vs) ts) (ih : Parses d mode (.elements vs) ts) :
    Parses d mode (.value (.array vs)) (.lBracket::(ts++[.rBracket])) := by
  obtain ⟨init,v,rfl,he⟩ := ih
  obtain ⟨token,us,rfl,hs⟩ := exists_first h
  rintro frames last l l'' r ⟨ho,hrest⟩ hr
  obtain ⟨l',ht,hc,rfl⟩ := consumes_append.mp hrest
  refine ends_lBracket ho ?_
  rw [step_arrayStart,if_neg (by rw [ht.1]; exact hs)]
  refine he frames last _ l' r ht (ends_of_yields ?_)
  rw [step_arrayEnd,if_neg (by rw [hc]; simp [type]),if_neg (by rw [hc]; simp [type])]
  exact hr

theorem parses_nextElement {ts us : List (Token ν)}
    (h : Derives (memberKey mode) (.value v) us) (ihs : Parses d mode (.elements vs) ts)
    (ih : Parses d mode (.value v) us) :
    Parses d mode (.elements (vs++[v])) (ts++.comma::us) := by
  obtain ⟨init,w,rfl,he⟩ := ihs
  obtain ⟨token,us,rfl,hs⟩ := exists_first h
  refine ⟨init++[w],v,rfl,fun frames last l l'' r ht hr => ?_⟩
  obtain ⟨l',hts,hc,hus⟩ := consumes_append.mp ht
  refine he frames last l l' r hts (ends_of_yields ?_)
  rw [step_arrayEnd,if_pos (by rw [hc]; rfl)]
  refine ends_of_yields ?_
  rw [step_arrayStart,if_neg (by rw [hus.1]; exact hs)]
  exact ih _ _ _ _ _ hus hr

theorem parses_firstMember (hkey : memberKey mode t = some k) (ih : Parses d mode (.value v) ts) :
    Parses d mode (.members [(k,v)]) (t::.colon::ts) := by
  refine ⟨[],k,v,rfl,?_⟩
  rintro frames last l l' r message key ⟨ht,hc,hts⟩ hk hr
  obtain rfl : k = key := by
    rw [ht,hkey,Option.some.injEq] at hk
    exact hk
  rw [member_opened,if_neg (by rw [hc]; simp [type])]
  exact ih _ _ _ _ _ hts hr

theorem parses_nextMember {ts us : List (Token ν)}
    (hkey : memberKey mode t = some k) (ihs : Parses d mode (.members ms) ts)
    (ih : Parses d mode (.value v) us) :
    Parses d mode (.members (ms++[(k,v)])) (ts++.comma::t::.colon::us) := by
  obtain ⟨init,k',v',rfl,hm⟩ := ihs
  refine ⟨init++[(k',v')],k,v,rfl,fun frames last l l'' r message key htoks hk hr => ?_⟩
  obtain ⟨l',hts,hcomma,ht,hc,hus⟩ := consumes_append.mp htoks
  refine hm frames last l l' r message key hts hk (ends_of_yields ?_)
  rw [step_objectEnd,if_pos (by rw [hcomma]; rfl),← objectOf_append]
  refine ends_of_yields ?_
  rw [step_objectNext,ht,hkey]
  simp only
  rw [member_opened,if_neg (by rw [hc]; simp [type])]
  exact ih _ _ _ _ _ hus hr

theorem parses_emptyObject : Parses d mode (.value (.object [])) [.lBrace,.rBrace] := by
  rintro frames last l l' r ⟨ho,hc,rfl⟩ hr
  refine ends_of_yields ?_
  rw [step_lBrace ho]
  refine ends_of_yields ?_
  rw [step_objectStart,hc]
  exact hr

theorem parses_object
    (h : Derives (memberKey mode) (.members ms) ts) (ih : Parses d mode (.members ms) ts) :
    Parses d mode (.value (.object (objectOf ms))) (.lBrace::(ts++[.rBrace])) := by
  obtain ⟨init,k,v,rfl,hm⟩ := ih
  obtain ⟨token,us,rfl,key,hk⟩ := exists_first h
  rintro frames last l l'' r ⟨ho,hrest⟩ hr
  obtain ⟨l',ht,hc,rfl⟩ := consumes_append.mp hrest
  refine ends_of_yields ?_
  rw [step_lBrace ho]
  refine ends_of_yields ?_
  rw [step_objectStart,ht.1,hk]
  refine hm frames last _ l' r _ key ht (by rw [ht.1]; exact hk) (ends_of_yields ?_)
  rw [step_objectEnd,if_neg (by rw [hc]; simp [type]),
    if_neg (by rw [hc]; simp [type]),← objectOf_append]
  exact hr

/-- The automaton parses every phrase of the grammar. -/
theorem parses_of_derives (h : Derives (memberKey mode) phrase ts) : Parses d mode phrase ts := by
  induction h with
  | null | true | false | number | string => exact parses_literal rfl
  | emptyArray => exact parses_emptyArray
  | array h ih => exact parses_array h ih
  | emptyObject => exact parses_emptyObject
  | object h ih => exact parses_object h ih
  | firstElement _ ih => exact ⟨[],_,rfl,fun frames last l l' r ht hr => ih _ _ _ _ _ ht hr⟩
  | nextElement _ h ihs ih => exact parses_nextElement h ihs ih
  | firstMember hk _ ih => exact parses_firstMember hk ih
  | nextMember _ hk _ ihs ih => exact parses_nextMember hk ihs ih

end

end QPlusWeb.JSC
