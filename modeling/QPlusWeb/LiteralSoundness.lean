import QPlusWeb.LiteralParsing

/-!
# What the automaton returns

The invariant of a run: the tokens that have been read open the frames on the stacks.  Every round keeps
it and makes a measure smaller, so a run ends, and the tokens it has read derive the value it returns.
-/

namespace QPlusWeb.JSC

open JSON ProbeSequence ParserVariables List

variable {ν : Type}

variable {d : Doubles ν} {mode : ParserMode} {l₀ : Lexer ν}

/-- The tokens that have opened the frames. -/
inductive Opens (mode : ParserMode) : List (Frame ν) → List (Token ν) → Prop
  | nil : Opens mode [] []
  | firstElement {frames ts} : Opens mode frames ts →
      Opens mode (.array [] :: frames) (ts ++ [.lBracket])
  | nextElement {frames vs ts us} :
      Opens mode frames ts → Derives (memberKey mode) (.elements vs) us →
      Opens mode (.array vs :: frames) (ts ++ .lBracket :: us ++ [.comma])
  | firstMember {frames ts t k} :
      Opens mode frames ts → memberKey mode t = some k →
      Opens mode (.object [] k :: frames) (ts ++ [.lBrace, t, .colon])
  | nextMember {frames ms ts us t k} : Opens mode frames ts →
      Derives (memberKey mode) (.members ms) us → memberKey mode t = some k →
      Opens mode (.object (objectOf ms) k :: frames) (ts ++ .lBrace :: us ++ [.comma, t, .colon])

/-- The states that the automaton comes to, with the tokens it has read since `l₀`. -/
inductive Reached (d : Doubles ν) (mode : ParserMode) (l₀ : Lexer ν) :
    ParserState × ParserVariables ν → Prop
  | expression {frames ts last l} : Opens mode frames ts → Consumes d mode l₀ ts l →
      Reached d mode l₀ (atExpression frames last l)
  | array {frames ts last l} : Opens mode frames ts → Consumes d mode l₀ ts l →
      l.currentToken = .lBracket → Reached d mode l₀ (.startParseArray, framed frames last l)
  | firstElement {frames ts last l} : Opens mode frames ts → Consumes d mode l₀ ts l →
      l.currentToken = .lBracket →
      Reached d mode l₀ (.doParseArrayStartExpression, opened (.array []) frames last l)
  | nextElement {frames vs ts us last l} : Opens mode frames ts →
      Derives (memberKey mode) (.elements vs) us → Consumes d mode l₀ (ts ++ .lBracket :: us) l →
      l.currentToken = .comma →
      Reached d mode l₀ (.doParseArrayStartExpression, opened (.array vs) frames last l)
  | object {frames ts last l} : Opens mode frames ts → Consumes d mode l₀ ts l →
      l.currentToken = .lBrace → Reached d mode l₀ (.startParseObject, framed frames last l)
  | nextMember {frames ms ts us last l} : Opens mode frames ts →
      Derives (memberKey mode) (.members ms) us → Consumes d mode l₀ (ts ++ .lBrace :: us) l →
      l.currentToken = .comma →
      Reached d mode l₀ (.doParseObjectStartExpression, opened (.object (objectOf ms)) frames last l)
  | ended {frame frames v ts us l} : Opens mode (frame :: frames) ts →
      Derives (memberKey mode) (.value v) us → Consumes d mode l₀ (ts ++ us) l →
      Reached d mode l₀ (atEnd frame frames v l)

/-- The tokens that have been read derive the value that is returned. -/
def Returned (d : Doubles ν) (mode : ParserMode) (l₀ : Lexer ν) (r : Option (ParseEnd ν)) : Prop :=
  ∃ result, r = some result ∧ ∀ v, result.value = some v →
    ∃ ts, Consumes d mode l₀ ts result.lexer ∧ Derives (memberKey mode) (.value v) ts

/-- Either outcome of a round. -/
def Stepped (d : Doubles ν) (mode : ParserMode) (l₀ : Lexer ν) : ParserStep ν → Prop
  | .inl s => Reached d mode l₀ s
  | .inr r => Returned d mode l₀ r

variable {frames : List (Frame ν)} {v : JSONValue ν} {ts us : List (Token ν)} {l : Lexer ν}
    {ms : List (UString × JSONValue ν)} {last : Option (JSONValue ν)}
    {s : ParserState × ParserVariables ν} {n : ℕ}

/-! ### What is left to read -/

/-- The characters and tokens that are left to read. -/
def pending (l : Lexer ν) : ℕ := l.ptr.length + if l.currentToken.isRead then 1 else 0

theorem Lexer.next_length_le (l : Lexer ν) : (l.after d mode).ptr.length ≤ l.ptr.length := by
  have hd : (l.ptr.dropWhile isJSONWhiteSpace).length ≤ l.ptr.length :=
    (dropWhile_suffix _).length_le
  unfold Lexer.after Lexer.next
  split
  next => exact Nat.zero_le _
  next c ptr hp =>
    rw [hp] at hd
    split
    next ht =>
      obtain ⟨text,htext,-⟩ := lexToken_sound ht
      rw [htext,length_append] at hd
      simp only
      omega
    next => exact hd

theorem Lexer.next_length_lt (hr : (l.after d mode).currentToken.isRead = Bool.true) :
    (l.after d mode).ptr.length < l.ptr.length := by
  obtain ⟨w,ptr,-,hp,text,ht,hne,-⟩ := Lexer.next_sound hr
  have hl : l.ptr.length = (w++(text++(l.after d mode).ptr)).length :=
    congrArg List.length (ht ▸ hp)
  have hpos := length_pos_iff.mpr hne
  rw [length_append,length_append] at hl
  omega

theorem pending_after (h : l.currentToken.isRead = Bool.true) :
    pending (l.after d mode) < pending l := by
  have hle : (l.after d mode).ptr.length ≤ l.ptr.length := l.next_length_le
  unfold pending
  rw [if_pos h]
  by_cases hr : (l.after d mode).currentToken.isRead = Bool.true
  · have hlt := Lexer.next_length_lt hr
    rw [if_pos hr]
    omega
  · rw [if_neg hr]
    omega

/-- How many labels there may be before the next token is read. -/
def rank : ParserState → ℕ
  | .startParseExpression => 2
  | .startParseArray => 1
  | .doParseArrayEndExpression => 1
  | .doParseObjectEndExpression => 1
  | _ => 0

def remaining (s : ParserState × ParserVariables ν) : ℕ := 4 * pending s.2.lexer + rank s.1

theorem remaining_atExpression (frames : List (Frame ν)) (last : Option (JSONValue ν))
    (l : Lexer ν) :
    remaining (atExpression frames last l) = 4*pending l+2 := rfl

/-! ### Rounds -/

/-- Either outcome of a round that leaves less than `n` to do. -/
def Progress (d : Doubles ν) (mode : ParserMode) (l₀ : Lexer ν) (n : ℕ) (x : ParserStep ν) : Prop :=
  Stepped d mode l₀ x ∧ ∀ s, x = .inl s → remaining s < n

theorem progress_fail (message : String) (l : Lexer ν) :
    Progress d mode l₀ n (.inr (some ⟨none,message,l⟩)) :=
  ⟨⟨_,rfl,fun _ hv => by cases hv⟩,nofun⟩

theorem progress_next (h : Reached d mode l₀ s) (hlt : remaining s < n) :
    Progress d mode l₀ n (.inl s) := by
  refine ⟨h,?_⟩
  rintro _ ⟨⟩
  exact hlt

theorem progress_completed (hopens : Opens mode frames ts)
    (hv : Derives (memberKey mode) (.value v) us) (hl : Consumes d mode l₀ (ts++us) l)
    (hlt : 4*pending l+1 < n) : Progress d mode l₀ n (completed frames v l) := by
  cases frames with
  | nil =>
    cases hopens
    refine ⟨⟨_,rfl,fun v' hv' => ?_⟩,nofun⟩
    obtain rfl : v = v' := Option.some.inj hv'
    exact ⟨us,hl,hv⟩
  | cons frame frames =>
    refine progress_next (.ended hopens hv hl) ?_
    cases frame <;> exact hlt

theorem progress_member {key : UString} (hk : memberKey mode l.currentToken = some key)
    (hopens : Opens mode (.object ms key::frames) (ts++[l.currentToken,.colon]))
    (hl : Consumes d mode l₀ ts l) (message : String) (hlt : 4*pending l+1 < n) :
    Progress d mode l₀ n ((opened (.object ms) frames last l).member d mode key message) := by
  have hr : l.currentToken.isRead = Bool.true := by
    cases ht : l.currentToken <;> rw [ht] at hk <;> simp [memberKey] at hk <;> rfl
  rw [member_opened]
  split
  next => exact progress_fail _ _
  next hcol =>
    have hcol' := eq_of_type.2.2.2 (not_not.mp hcol)
    refine progress_next (.expression hopens (hl.append ⟨rfl,hcol',rfl⟩)) ?_
    have h1 : pending (l.after d mode) < pending l := pending_after hr
    have h2 : pending ((l.after d mode).after d mode) < pending (l.after d mode) :=
      pending_after (by rw [hcol']; rfl)
    rw [remaining_atExpression]
    omega

section
variable (hopens : Opens mode frames ts)
include hopens

theorem progress_expression (hl : Consumes d mode l₀ ts l) :
    Progress d mode l₀ (4*pending l+2) (step d mode (atExpression frames last l)) := by
  cases hval : literalValue l.currentToken with
  | some v =>
    obtain ⟨hr,hv⟩ : l.currentToken.isRead = Bool.true ∧
        Derives (memberKey mode) (.value v) [l.currentToken] := by
      cases ht : l.currentToken <;> rw [ht] at hval <;>
        simp only [literalValue,Option.some.injEq,reduceCtorEq] at hval <;> subst hval <;>
        exact ⟨rfl,by constructor⟩
    have hlt : pending (l.after d mode) < pending l := pending_after hr
    rw [step_literal hval]
    exact progress_completed hopens hv (hl.snoc rfl) (by omega)
  | none =>
    by_cases hbrac : l.currentToken = .lBracket
    · rw [step_lBracket hbrac]
      exact progress_next (.array hopens hl hbrac) (Nat.lt_succ_self _)
    · by_cases hb : l.currentToken = .lBrace
      · rw [step_lBrace hb]
        exact progress_next (.object hopens hl hb) (Nat.lt_add_of_pos_right (by omega))
      · obtain ⟨message,hf⟩ : ∃ message, step d mode (atExpression frames last l) =
            .inr (some ⟨none,message,l⟩) := step_unexpected hval hbrac hb
        rw [hf]
        exact progress_fail _ _

theorem progress_firstElement (hl : Consumes d mode l₀ ts l) (hb : l.currentToken = .lBracket) :
    Progress d mode l₀ (4*pending l)
      (step d mode (.doParseArrayStartExpression,opened (.array []) frames last l)) := by
  have hlt : pending (l.after d mode) < pending l := pending_after (by rw [hb]; rfl)
  rw [step_arrayStart]
  split
  next hclose =>
    have hclose' := eq_of_type.2.1 hclose
    have hlt' : pending ((l.after d mode).after d mode) < pending (l.after d mode) :=
      pending_after (by rw [hclose']; rfl)
    rw [if_neg (by rw [hb]; simp [Token.type])]
    exact progress_completed hopens .emptyArray (hl.append ⟨hb,hclose',rfl⟩) (by omega)
  next =>
    refine progress_next (.expression (.firstElement hopens) (hl.snoc hb)) ?_
    rw [remaining_atExpression]
    omega

theorem progress_nextElement {vs : List (JSONValue ν)}
    (hvs : Derives (memberKey mode) (.elements vs) us)
    (hl : Consumes d mode l₀ (ts++.lBracket::us) l) (hc : l.currentToken = .comma) :
    Progress d mode l₀ (4*pending l)
      (step d mode (.doParseArrayStartExpression,opened (.array vs) frames last l)) := by
  have hlt : pending (l.after d mode) < pending l := pending_after (by rw [hc]; rfl)
  rw [step_arrayStart]
  split
  next =>
    rw [if_pos (by rw [hc]; rfl)]
    exact progress_fail _ _
  next =>
    refine progress_next (.expression (.nextElement hopens hvs) (hl.snoc hc)) ?_
    rw [remaining_atExpression]
    omega

theorem progress_object (hl : Consumes d mode l₀ ts l) (hb : l.currentToken = .lBrace) :
    Progress d mode l₀ (4*pending l) (step d mode (.startParseObject,framed frames last l)) := by
  have hlt : pending (l.after d mode) < pending l := pending_after (by rw [hb]; rfl)
  rw [step_objectStart]
  split
  next key hk =>
    refine progress_member hk ?_ (hl.snoc hb) _ (by omega)
    rw [append_assoc]
    exact .firstMember hopens hk
  next =>
    split
    next => exact progress_fail _ _
    next hclose =>
      have hclose' := eq_of_type.2.2.1 (not_not.mp hclose)
      have hlt' : pending ((l.after d mode).after d mode) < pending (l.after d mode) :=
        pending_after (by rw [hclose']; rfl)
      exact progress_completed hopens .emptyObject (hl.append ⟨hb,hclose',rfl⟩) (by omega)

theorem progress_nextMember (hms : Derives (memberKey mode) (.members ms) us)
    (hl : Consumes d mode l₀ (ts++.lBrace::us) l) (hc : l.currentToken = .comma) :
    Progress d mode l₀ (4*pending l)
      (step d mode (.doParseObjectStartExpression,opened (.object (objectOf ms)) frames last l)) :=
        by
  have hlt : pending (l.after d mode) < pending l := pending_after (by rw [hc]; rfl)
  rw [step_objectNext]
  split
  next key hk =>
    refine progress_member hk ?_ (hl.snoc hc) _ (by omega)
    rw [append_assoc]
    exact .nextMember hopens hms hk
  next => exact progress_fail _ _

end

/-- The elements of an array, with the one that has just been read. -/
theorem opens_array {es : List (JSONValue ν)} (hopens : Opens mode (.array es::frames) ts)
    (hv : Derives (memberKey mode) (.value v) us) :
    ∃ ts' us', ts++us = ts'++.lBracket::us' ∧ Opens mode frames ts' ∧
      Derives (memberKey mode) (.elements (es++[v])) us' := by
  cases hopens with
  | @firstElement _ ts' h => exact ⟨ts',us,by simp,h,.firstElement hv⟩
  | @nextElement _ _ ts' us' h hes =>
    exact ⟨ts',us'++.comma::us,by simp,h,.nextElement hes hv⟩

/-- The members of an object, with the one that has just been read. -/
theorem opens_object {k : UString} (hopens : Opens mode (.object ms k::frames) ts)
    (hv : Derives (memberKey mode) (.value v) us) :
    ∃ ts' us' ms', ts++us = ts'++.lBrace::us' ∧ Opens mode frames ts' ∧
      Derives (memberKey mode) (.members ms') us' ∧ putMember ms k v = objectOf ms' := by
  cases hopens with
  | @firstMember _ ts' t _ h hk =>
    exact ⟨ts',t::.colon::us,[(k,v)],by simp,h,.firstMember hk hv,rfl⟩
  | @nextMember _ ms' ts' us' t _ h hms hk =>
    exact ⟨ts',us'++.comma::t::.colon::us,ms'++[(k,v)],by simp,h,
      .nextMember hms hk hv,(objectOf_append ms' k v).symm⟩

theorem progress_ended {frame : Frame ν} (hopens : Opens mode (frame::frames) ts)
    (hv : Derives (memberKey mode) (.value v) us) (hl : Consumes d mode l₀ (ts++us) l) :
    Progress d mode l₀ (4*pending l+1) (step d mode (atEnd frame frames v l)) := by
  cases frame with
  | array es =>
    obtain ⟨ts',us',heq,hopens',hes⟩ := opens_array hopens hv
    rw [heq] at hl
    rw [step_arrayEnd]
    split_ifs with hcomma hclose
    · exact progress_next (.nextElement hopens' hes hl (eq_of_type.1 hcomma)) (Nat.lt_succ_self _)
    · exact progress_fail _ _
    · have hclose' := eq_of_type.2.1 (not_not.mp hclose)
      have hlt : pending (l.after d mode) < pending l := pending_after (by rw [hclose']; rfl)
      refine progress_completed hopens' (.array hes) ?_ (by omega)
      simpa using hl.snoc hclose'
  | object ms k =>
    obtain ⟨ts',us',ms',heq,hopens',hms,hp⟩ := opens_object hopens hv
    rw [heq] at hl
    rw [step_objectEnd,hp]
    split_ifs with hcomma hclose
    · exact progress_next (.nextMember hopens' hms hl (eq_of_type.1 hcomma)) (Nat.lt_succ_self _)
    · exact progress_fail _ _
    · have hclose' := eq_of_type.2.2.1 (not_not.mp hclose)
      have hlt : pending (l.after d mode) < pending l := pending_after (by rw [hclose']; rfl)
      refine progress_completed hopens' (.object hms) ?_ (by omega)
      simpa using hl.snoc hclose'

section
variable (h : Reached d mode l₀ s)
include h

/-- Every round keeps the invariant and leaves less to do. -/
theorem Reached.progress : Progress d mode l₀ (remaining s) (step d mode s) := by
  cases h with
  | expression hopens hl => exact progress_expression hopens hl
  | array hopens hl hb =>
    exact progress_next (.firstElement hopens hl hb) (Nat.lt_succ_self _)
  | firstElement hopens hl hb => exact progress_firstElement hopens hl hb
  | nextElement hopens hvs hl hc => exact progress_nextElement hopens hvs hl hc
  | object hopens hl hbrace => exact progress_object hopens hl hbrace
  | nextMember hopens hms hl hc => exact progress_nextMember hopens hms hl hc
  | @ended frame _ _ _ _ _ hopens hv hl => cases frame <;> exact progress_ended hopens hv hl

theorem Reached.next {s' : ParserState × ParserVariables ν}
    (hstep : step d mode s = .inl s') : Reached d mode l₀ s' := by
  have hs := h.progress.1
  rwa [hstep] at hs

theorem Reached.returned {r : Option (ParseEnd ν)} (hstep : step d mode s = .inr r) :
    Returned d mode l₀ r := by
  have hs := h.progress.1
  rwa [hstep] at hs

end

/-! ### The results of `parse` -/

theorem reached_start (l : Lexer ν) : Reached d mode l (atExpression [] none l) :=
  .expression .nil rfl

theorem exists_loop (d : Doubles ν) (mode : ParserMode) (l : Lexer ν) :
    ∃ r, loop (step d mode) (4*l.ptr.length+8) (atExpression [] none l) = some r := by
  refine exists_loop_of_measure (P := Reached d mode l) remaining ?_ (reached_start l) ?_
  · exact fun s s' hs hstep => ⟨hs.next hstep,hs.progress.2 s' hstep⟩
  · rw [remaining_atExpression,pending]
    split <;> omega

/-- `parse` returns, and the tokens it has read derive the value it returns. -/
theorem parse_sound (d : Doubles ν) (mode : ParserMode) (l : Lexer ν) :
    ∃ result, parse d mode .startParseExpression l = some result ∧ ∀ v, result.value = some v →
        ∃ ts, Consumes d mode l ts result.lexer ∧ Derives (memberKey mode) (.value v) ts := by
  obtain ⟨r,hr⟩ := exists_loop d mode l
  have hretd : Returned d mode l r :=
    loop_induction (fun _ _ hs => hs.next) (fun _ _ hs => hs.returned) (reached_start l) hr
  obtain ⟨result,rfl,hres⟩ := hretd
  refine ⟨result,?_,hres⟩
  change (loop (step d mode) _ (atExpression [] none l)).join = _
  rw [hr,Option.join_some]

/-- `parse` returns the value that the next tokens derive. -/
theorem parse_complete {l' : Lexer ν}
    (hl : Consumes d mode l ts l') (hv : Derives (memberKey mode) (.value v) ts) :
    parse d mode .startParseExpression l = some ⟨some v, "",l'⟩ := by
  obtain ⟨r,hr⟩ := exists_loop d mode l
  have he : Ends (step d mode) (atExpression [] none l) (some ⟨some v,"",l'⟩) :=
    parses_of_derives hv [] none l l' _ hl rfl
  rw [he.eq_of_loop hr] at hr
  change (loop (step d mode) _ (atExpression [] none l)).join = _
  rw [hr,Option.join_some]

end QPlusWeb.JSC
