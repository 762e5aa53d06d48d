import QPlusWeb.JSONParsing

/-!
# The scripts that tryJSONPParse reads

A script is a sequence of statements with a `;` between them: a declaration, an assignment to a path
or a call with one argument, each with a JSON text as its value.  The driver looks at the type that
`next()` returns, and for a `;` that is the type of a `=`; so what it accepts is described first with
the tokens that it takes for a `=`, and the scripts are the case in which no `;` is one of them.
-/

namespace QPlusWeb.JSC

open JSON ParserVariables List Option Lexer

variable {ν : Type} {d : Doubles ν}

/-! ### Statements -/

def varKeyword : UString := [ch 'v', ch 'a', ch 'r']

section
variable (d : Doubles ν) (isKeyword : UString → Bool) (key : Token ν → Option UString)
  (assigns : Token ν → Prop) (calls : Prop)

/-- A name, `.name` or `[index]` after a path. -/
inductive Path : List (Token ν) → List JSONPPathEntry → Prop
  | name {n} : n ≠ varKeyword → isKeyword n = false → Path [.identifier n] [.dot n]
  | dot {ts path n} : Path ts path →
      Path (ts ++ [.dot, .identifier n]) (path ++ [.dot n])
  | lookup {ts path x index} : Path ts path →
      d.toInt? x = some index → 0 ≤ index →
      Path (ts ++ [.lBracket, .number x, .rBracket]) (path ++ [.lookup index])

/-- `var x = value`, `path = value` and, where there are calls, `path(value)` -/
inductive Statement : List (Token ν) → JSONPData ν → Prop
  | declare {x v t ts} :
      isKeyword x = false → assigns t → Derives key (.value v) ts →
      Statement ([.identifier varKeyword, .identifier x, t] ++ ts) ⟨[.declare x], v⟩
  | assign {path v t ps ts} :
      Path d isKeyword ps path → assigns t → Derives key (.value v) ts →
      Statement (ps ++ t :: ts) ⟨path, v⟩
  | call {path n v ps ts} : calls →
      Path d isKeyword ps (path ++ [.dot n]) → Derives key (.value v) ts →
      Statement (ps ++ .lParen :: (ts ++ [.rParen])) ⟨path ++ [.call n], v⟩

/-- Statements with a `;` between them, and one that may stand after the last. -/
inductive Program : List (Token ν) → List (JSONPData ν) → Prop
  | last {ts data} : Statement d isKeyword key assigns calls ts data →
      Program ts [data]
  | lastSemicolon {ts data} :
      Statement d isKeyword key assigns calls ts data → Program (ts ++ [.semi]) [data]
  | next {ts us data results} :
      Statement d isKeyword key assigns calls ts data → Program us results →
      Program (ts ++ .semi :: us) (data :: results)

end

/-- What the driver takes for a `=`. -/
def takenForAssign (t : Token ν) : Prop := t.returnedType = .assign

variable {t token : Token ν} {entry : JSONPPathEntry} {path : List JSONPPathEntry} {ts : List (Token ν)}
    {v : JSONValue ν} {data : JSONPData ν} {results : List (JSONPData ν)} {s : UString}
    {w text rest : UString} {type : TokenType} {l l' : Lexer ν} {isKeyword : UString → Bool}
    {needsFullSourceInfo : Bool} {us : List (Token ν)}

/-- The tokens are read up to the end of the text, and they make up a program of the driver. -/
def Accepted (d : Doubles ν) (isKeyword : UString → Bool) (needsFullSourceInfo : Bool) (s : UString)
    (ts : List (Token ν)) (results : List (JSONPData ν)) : Prop :=
  ∃ l', Consumes d .jsonp ((start s).after d .jsonp) ts l' ∧ l'.currentToken = .end ∧
    Program d isKeyword (memberKey .jsonp) takenForAssign (needsFullSourceInfo = false) ts results

/-! ### What is accepted -/

theorem eq_identifier_of_type (h : t.returnedType = .identifier) :
    t = .identifier (identifierText t) := by
  cases t <;> first | rfl | cases h

theorem eq_of_returnedType :
    (t.returnedType = .dot → t = .dot) ∧ (t.returnedType = .lBracket → t = .lBracket) ∧
      (t.returnedType = .rBracket → t = .rBracket) ∧ (t.returnedType = .lParen → t = .lParen) := by
  cases t <;> simp [Token.returnedType,Token.type]

theorem pathDot_sound (h : pathDot d l = some (entry,l')) :
    ∃ n, entry = .dot n ∧ l' = l.after d .jsonp ∧ l'.currentToken = .identifier n := by
  unfold pathDot at h
  dsimp only at h
  split at h
  next => cases h
  next ht =>
    rw [not_not,next_type] at ht
    cases h
    exact ⟨_,rfl,rfl,eq_identifier_of_type ht⟩

theorem pathLookup_sound (h : pathLookup d l = some (entry,l')) :
    ∃ x index, entry = .lookup index ∧ (l.after d .jsonp).currentToken = .number x ∧
      d.toInt? x = some index ∧ 0 ≤ index ∧ l' = (l.after d .jsonp).after d .jsonp ∧
      l'.currentToken = .rBracket := by
  unfold pathLookup at h
  dsimp only at h
  split at h
  next x _ htok =>
    obtain ⟨index,hi,h⟩ := bind_eq_some_iff.mp h
    split at h
    next => cases h
    next hn =>
      split at h
      next => cases h
      next ht =>
        rw [not_not,next_type] at ht
        cases h
        exact ⟨x,index,rfl,htok,hi,by omega,rfl,eq_of_returnedType.2.2.1 ht⟩
  next => cases h

/-- How a path ends: before a `=`, or before the parenthesis of a call. -/
def PathEnds (d : Doubles ν) (isKeyword : UString → Bool) (calls : Prop) (ts : List (Token ν))
    (path : List JSONPPathEntry) (t : Token ν) : Prop :=
  Path d isKeyword ts path ∧ takenForAssign t ∨
    calls ∧ ∃ init n, Path d isKeyword ts (init ++ [.dot n]) ∧ path = init ++ [.call n] ∧ t = .lParen

theorem pathFrom_sound {l₀ : Lexer ν} {fuel : ℕ} {path' : List JSONPPathEntry}
    (hl : Consumes d .jsonp l₀ ts l) (hp : Path d isKeyword ts path)
    (ht : type = l.currentToken.returnedType)
    (h : pathFrom d needsFullSourceInfo fuel path type l = some (path',l')) :
    ∃ us, Consumes d .jsonp l₀ us l' ∧
      PathEnds d isKeyword (needsFullSourceInfo = false) us path' l'.currentToken := by
  induction fuel generalizing path type l ts with
  | zero => cases h
  | succ fuel ih =>
    unfold pathFrom at h
    split at h
    next =>
      cases h
      exact ⟨ts,hl,.inl ⟨hp,ht.symm⟩⟩
    next =>
      obtain ⟨⟨entry,l₁⟩,hlookup,h⟩ := bind_eq_some_iff.mp h
      obtain ⟨x,index,rfl,hnum,hi,hn,rfl,hb⟩ := pathLookup_sound hlookup
      have hr : Consumes d .jsonp l [.lBracket,.number x,.rBracket]
          (((l.after d .jsonp).after d .jsonp).after d .jsonp) :=
        ⟨eq_of_returnedType.2.1 ht.symm,hnum,hb,rfl⟩
      exact ih (hl.append hr) (.lookup hp hi hn) next_type h
    next =>
      obtain ⟨⟨entry,l₁⟩,hd,h⟩ := bind_eq_some_iff.mp h
      obtain ⟨n,rfl,rfl,hname⟩ := pathDot_sound hd
      have hr : Consumes d .jsonp l [.dot,.identifier n] ((l.after d .jsonp).after d .jsonp) :=
        ⟨eq_of_returnedType.1 ht.symm,hname,rfl⟩
      exact ih (hl.append hr) (.dot hp) next_type h
    next =>
      split at h
      next n hlast =>
        split at h
        next => cases h
        next hinfo =>
          cases h
          have hsplit : path = path.dropLast++[.dot n] := by
            rw [← dropLast_append_getLast? _ hlast]
            simp
          refine ⟨ts,hl,.inr ⟨by simpa using hinfo,path.dropLast,n,?_,rfl,?_⟩⟩
          · rwa [← hsplit]
          · exact eq_of_returnedType.2.2.2 ht.symm
      next => cases h
    next => cases h

theorem pathStart_sound (hl : l.currentToken.type = .identifier)
    (h : pathStart d isKeyword l = some (entry,type,l')) :
    type = l'.currentToken.returnedType ∧
      ((∃ x, entry = .declare x ∧ isKeyword x = false ∧ type = .assign ∧
          Consumes d .jsonp l [.identifier varKeyword,.identifier x] l') ∨
        ∃ n, Path d isKeyword [.identifier n] [entry] ∧
          Consumes d .jsonp l [.identifier n] l') := by
  have hn : l.currentToken = .identifier (identifierText l.currentToken) := by
    cases hc : l.currentToken <;> simp [hc,Token.type] at hl
    rfl
  unfold pathStart at h
  dsimp only at h
  split at h
  next hv =>
    split at h
    next => cases h
    next ht =>
      split at h
      next => cases h
      next ha =>
        rw [not_not,next_type] at ht
        rw [not_or,not_not,Bool.not_eq_true] at ha
        cases h
        refine ⟨next_type,.inl ⟨_,rfl,ha.1,ha.2,?_⟩⟩
        rw [hv] at hn
        exact ⟨hn,eq_identifier_of_type ht,rfl⟩
  next hv =>
    split at h
    next => cases h
    next hk =>
      cases h
      rw [Bool.not_eq_true] at hk
      exact ⟨next_type,.inr ⟨_,.name hv hk,hn,rfl⟩⟩

theorem Path.getLast_ne_call
    (h : Path d isKeyword ts path) (n : UString) : path.getLast? ≠ some (.call n) := by
  cases h <;> simp

theorem eq_rParen_of_type (h : t.type = .rParen) : t = .rParen := by
  cases t <;> first | rfl | cases h

/-- The value after a path, with the token before it. -/
theorem value_sound {result : ParseEnd ν}
    (hparse : parse d .jsonp .startParseExpression (l.after d .jsonp) = some result)
    (hv : result.value = some v) :
    ∃ ts, Consumes d .jsonp l (l.currentToken::ts) result.lexer ∧
      Derives (memberKey .jsonp) (.value v) ts := by
  obtain ⟨result',hparse',hsound⟩ := parse_sound d .jsonp (l.after d .jsonp)
  obtain rfl : result' = result := Option.some.inj (hparse'.symm.trans hparse)
  obtain ⟨ts,hts,hd⟩ := hsound v hv
  exact ⟨ts,⟨rfl,hts⟩,hd⟩

theorem jsonpStatement_sound (hl : l.currentToken.type = .identifier)
    (h : jsonpStatement d isKeyword needsFullSourceInfo l = some (data,l')) :
    ∃ ts, Consumes d .jsonp l ts l' ∧
      Statement d isKeyword (memberKey .jsonp) takenForAssign (needsFullSourceInfo = false) ts data := by
  obtain ⟨⟨entry,type,l₁⟩,hstart,h₁⟩ := bind_eq_some_iff.mp h
  obtain ⟨⟨path,l₂⟩,hpath,h₂⟩ := bind_eq_some_iff.mp h₁
  obtain ⟨result,hparse,h₃⟩ := bind_eq_some_iff.mp h₂
  obtain ⟨v,hv,he⟩ := bind_eq_some_iff.mp h₃
  obtain ⟨ts,hval,hd⟩ := value_sound hparse hv
  obtain ⟨htype,⟨x,rfl,hx,rfl,hl₁⟩ | ⟨n,hn,hl₁⟩⟩ := pathStart_sound hl hstart
  · obtain ⟨rfl,rfl⟩ := hpath
    obtain ⟨rfl,rfl⟩ := he
    exact ⟨_,hl₁.append hval,.declare hx htype.symm hd⟩
  · obtain ⟨ps,hps,⟨ha,ht⟩ | ⟨hinfo,init,n',hc,rfl,ht⟩⟩ := pathFrom_sound hl₁ hn htype hpath
    · split at he
      next n' hn' => exact absurd hn' (ha.getLast_ne_call n')
      next =>
        cases he
        exact ⟨_,hps.append hval,.assign ha ht hd⟩
    · rw [getLast?_concat] at he
      dsimp only at he
      split at he
      next => cases he
      next hp =>
        cases he
        rw [not_not] at hp
        rw [ht] at hval
        exact ⟨_,hps.append (hval.snoc (eq_rParen_of_type hp)),.call hinfo hc hd⟩

theorem jsonpFrom_sound {fuel : ℕ} {results' : List (JSONPData ν)}
    (hl : l.currentToken.type = .identifier)
    (h : jsonpFrom d isKeyword needsFullSourceInfo fuel results l = some results') :
    ∃ ts l' rest, results' = results++rest ∧ Consumes d .jsonp l ts l' ∧ l'.currentToken = .end ∧
      Program d isKeyword (memberKey .jsonp) takenForAssign (needsFullSourceInfo = false) ts rest := by
  induction fuel generalizing l results with
  | zero => cases h
  | succ fuel ih =>
    obtain ⟨⟨data,l₁⟩,hstmt,h⟩ := bind_eq_some_iff.mp h
    obtain ⟨ts,hts,hd⟩ := jsonpStatement_sound hl hstmt
    by_cases hsemi : l₁.currentToken.type = .semi
    · have hr := hts.snoc (eq_semi_of_type hsemi)
      simp only [hsemi,if_true,true_and] at h
      split at h
      next hn =>
        obtain ⟨us,l',rest,rfl,hus,he,hp⟩ := ih hn h
        refine ⟨ts++.semi::us,l',data::rest,by simp,?_,he,.next hd hp⟩
        rw [append_cons]
        exact hr.append hus
      next =>
        split at h
        next he =>
          obtain rfl := Option.some.inj h
          exact ⟨_,_,[data],rfl,hr,eq_end_of_type he,.lastSemicolon hd⟩
        next => cases h
    · simp only [hsemi,if_false,false_and] at h
      split at h
      next he =>
        obtain rfl := Option.some.inj h
        exact ⟨_,_,[data],rfl,hts,eq_end_of_type he,.last hd⟩
      next => cases h

/-! ### What is accepted is all of it -/

/-- The loop over the entries of a path comes to its end. -/
theorem path_complete (needsFullSourceInfo : Bool) (hp : Path d isKeyword ts path)
    (hl : Consumes d .jsonp l ts l') :
    ∃ n, pathStart d isKeyword l = some (.dot n, (l.after d .jsonp).currentToken.returnedType,
        l.after d .jsonp) ∧
      ∃ k, k + l'.ptr.length ≤ (l.after d .jsonp).ptr.length ∧ ∀ fuel,
        pathFrom d needsFullSourceInfo (fuel + k) [.dot n]
            (l.after d .jsonp).currentToken.returnedType (l.after d .jsonp) =
          pathFrom d needsFullSourceInfo fuel path l'.currentToken.returnedType l' := by
  induction hp generalizing l' with
  | @name n hv hk =>
    obtain ⟨hn, rfl⟩ := hl
    refine ⟨n, ?_, 0, by simp, fun fuel => rfl⟩
    have hname : identifierText l.currentToken = n := by rw [hn]; rfl
    unfold pathStart
    dsimp only
    rw [hname, if_neg (show ¬ n = [ch 'v', ch 'a', ch 'r'] from hv), if_neg (by simp [hk]), next_type]
  | dot _ ih =>
    obtain ⟨l₁, hl₁, hdot, hname, rfl⟩ := consumes_append.mp hl
    obtain ⟨n, hstart, k, hk, hfrom⟩ := ih hl₁
    have hlt : (l₁.after d .jsonp).ptr.length < l₁.ptr.length := next_length_lt (by rw [hname]; rfl)
    have hle : ((l₁.after d .jsonp).after d .jsonp).ptr.length ≤ _ := next_length_le _
    refine ⟨n, hstart, k + 1, by omega, fun fuel => ?_⟩
    rw [show fuel + (k + 1) = fuel + 1 + k by omega, hfrom, hdot]
    have ht : (l₁.next d .jsonp).1 = .identifier := by rw [next_type, hname]; rfl
    simp [pathFrom, pathDot, ht, hname, identifierText, next_type, Token.returnedType, Token.type]
  | lookup _ hi hn ih =>
    obtain ⟨l₁, hl₁, hopen, hnum, hclose, rfl⟩ := consumes_append.mp hl
    obtain ⟨n, hstart, k, hk, hfrom⟩ := ih hl₁
    have hlt : (l₁.after d .jsonp).ptr.length < l₁.ptr.length := next_length_lt (by rw [hnum]; rfl)
    have hle : ((l₁.after d .jsonp).after d .jsonp).ptr.length ≤ _ := next_length_le _
    have hle' : (((l₁.after d .jsonp).after d .jsonp).after d .jsonp).ptr.length ≤ _ :=
      next_length_le _
    refine ⟨n, hstart, k + 1, by omega, fun fuel => ?_⟩
    rw [show fuel + (k + 1) = fuel + 1 + k by omega, hfrom, hopen]
    have ht : (l₁.next d .jsonp).1 = .number := by rw [next_type, hnum]; rfl
    have hr : ((l₁.after d .jsonp).next d .jsonp).1 = .rBracket := by rw [next_type, hclose]; rfl
    simp [pathFrom, pathLookup, ht, hnum, hi, hr, not_lt.mpr hn, next_type, Token.returnedType,
      Token.type]

/-- The bound of the loop is enough. -/
theorem pathEnds_complete (needsFullSourceInfo : Bool) (hl : Consumes d .jsonp l ts l')
    (h : PathEnds d isKeyword (needsFullSourceInfo = false) ts path l'.currentToken) :
    ∃ n, pathStart d isKeyword l = some (.dot n, (l.after d .jsonp).currentToken.returnedType,
        l.after d .jsonp) ∧
      pathFrom d needsFullSourceInfo ((l.after d .jsonp).ptr.length + 1) [.dot n]
        (l.after d .jsonp).currentToken.returnedType (l.after d .jsonp) = some (path, l') := by
  obtain ⟨path', hp, hend⟩ : ∃ path', Path d isKeyword ts path' ∧ ∀ fuel,
      pathFrom d needsFullSourceInfo (fuel + 1) path' l'.currentToken.returnedType l' =
        some (path, l') := by
    rcases h with ⟨hp, ht⟩ | ⟨hinfo, init, n, hp, rfl, ht⟩
    · refine ⟨path, hp, fun fuel => ?_⟩
      rw [show l'.currentToken.returnedType = .assign from ht, pathFrom]
    · refine ⟨_, hp, fun fuel => ?_⟩
      simp [ht, Token.returnedType, Token.type, pathFrom, hinfo]
  obtain ⟨n, hstart, k, hk, hfrom⟩ := path_complete needsFullSourceInfo hp hl
  refine ⟨n, hstart, ?_⟩
  rw [← hend ((l.after d .jsonp).ptr.length - k), ← hfrom]
  congr 1
  omega

theorem jsonpStatement_complete (hl : Consumes d .jsonp l ts l')
    (h : Statement d isKeyword (memberKey .jsonp) takenForAssign (needsFullSourceInfo = false) ts data) :
    jsonpStatement d isKeyword needsFullSourceInfo l = some (data, l') := by
  unfold jsonpStatement
  cases h with
  | @declare x v t ts hx ht hv =>
    obtain ⟨hvar, hname, htok, hval⟩ := hl
    have hstart : pathStart d isKeyword l = some (.declare x, .assign,
        (l.after d .jsonp).after d .jsonp) := by
      have ha : t.returnedType = .assign := ht
      have hi : (Token.identifier x : Token ν).returnedType = .identifier := rfl
      unfold pathStart
      simp [hvar, identifierText, varKeyword, next_type, hname, htok, hx, ha, hi]
    rw [hstart]
    simp [pathFrom, parse_complete hval hv]
  | @assign path v t ps ts hp ht hv =>
    obtain ⟨l₁, hps, htok, hval⟩ := consumes_append.mp hl
    rw [← htok] at ht
    obtain ⟨n, hstart, hfrom⟩ := pathEnds_complete needsFullSourceInfo hps (.inl ⟨hp, ht⟩)
    simp only [hstart, hfrom, bind_some, Option.bind_eq_bind, parse_complete hval hv]
    split
    next n' hn' => exact absurd hn' (hp.getLast_ne_call n')
    next => rfl
  | @call path n v ps ts hinfo hp hv =>
    obtain ⟨l₁, hps, htok, harg⟩ := consumes_append.mp hl
    obtain ⟨l₂, hval, hparen, rfl⟩ := consumes_append.mp harg
    obtain ⟨n', hstart, hfrom⟩ := pathEnds_complete needsFullSourceInfo hps
      (.inr ⟨hinfo, path, n, hp, rfl, htok⟩)
    simp [hstart, hfrom, parse_complete hval hv, hparen, Token.type]

theorem exists_identifier_of_path (h : Path d isKeyword ts path) :
    ∃ n us, ts = .identifier n :: us := by
  induction h with
  | name => exact ⟨_, _, rfl⟩
  | dot _ ih | lookup _ _ _ ih =>
    obtain ⟨n, us, rfl⟩ := ih
    exact ⟨n, _, rfl⟩

section
variable {key : Token ν → Option UString} {assigns : Token ν → Prop} {calls : Prop}

theorem exists_identifier_of_statement (h : Statement d isKeyword key assigns calls ts data) :
    ∃ n us, ts = .identifier n :: us := by
  cases h with
  | declare => exact ⟨_, _, rfl⟩
  | assign hp | call _ hp =>
    obtain ⟨n, us, rfl⟩ := exists_identifier_of_path hp
    exact ⟨n, _, rfl⟩

theorem exists_identifier_of_program (h : Program d isKeyword key assigns calls ts results) :
    ∃ n us, ts = .identifier n :: us := by
  cases h with
  | last hd => exact exists_identifier_of_statement hd
  | lastSemicolon hd | next hd _ =>
    obtain ⟨n, us, rfl⟩ := exists_identifier_of_statement hd
    exact ⟨n, _, rfl⟩

end

theorem consumes_length_le (h : Consumes d .jsonp l ts l') : l'.ptr.length ≤ l.ptr.length := by
  induction ts generalizing l with
  | nil => exact (congrArg (fun l : Lexer ν => l.ptr.length) h).ge
  | cons t ts ih => exact (ih h.2).trans (next_length_le l)

theorem jsonpFrom_complete {fuel : ℕ} {results' : List (JSONPData ν)}
    (h : Program d isKeyword (memberKey .jsonp) takenForAssign (needsFullSourceInfo = false) ts results)
    (hl : Consumes d .jsonp l ts l') (he : l'.currentToken = .end) (hfuel : l.ptr.length ≤ fuel) :
    jsonpFrom d isKeyword needsFullSourceInfo (fuel + 1) results' l = some (results' ++ results) := by
  induction h generalizing l fuel results' with
  | last hd =>
    rw [jsonpFrom]
    simp [jsonpStatement_complete hl hd, he, Token.type]
  | lastSemicolon hd =>
    obtain ⟨l₁, hts, hsemi, rfl⟩ := consumes_append.mp hl
    rw [jsonpFrom]
    simp [jsonpStatement_complete hts hd, hsemi, he, Token.type]
  | next hd hp ih =>
    obtain ⟨l₁, hts, hsemi, hus⟩ := consumes_append.mp hl
    obtain ⟨n, us, rfl⟩ := exists_identifier_of_program hp
    have hle := consumes_length_le hts
    have hlt : (l₁.after d .jsonp).ptr.length < l₁.ptr.length := next_length_lt (by rw [hus.1]; rfl)
    obtain ⟨fuel, rfl⟩ := Nat.exists_eq_add_one_of_ne_zero (by omega : fuel ≠ 0)
    rw [jsonpFrom]
    have hrest := fun results' => @ih _ fuel results' hus (by omega)
    simp [jsonpStatement_complete hts hd, hsemi, hus.1, Token.type, hrest]

/-- `tryJSONPParse` returns true for the texts whose tokens make up a program of the driver. -/
theorem tryJSONPParse_iff : tryJSONPParse d isKeyword needsFullSourceInfo s = some results ↔
    ∃ ts, Accepted d isKeyword needsFullSourceInfo s ts results := by
  unfold tryJSONPParse
  dsimp only
  constructor
  · intro h
    split at h
    next => cases h
    next ht =>
      rw [not_not, next_type] at ht
      have hf : ((start s).after d .jsonp).currentToken.type = .identifier := by
        rw [eq_identifier_of_type ht]
        rfl
      obtain ⟨ts, l', rest, rfl, hc, he, hp⟩ := jsonpFrom_sound hf h
      exact ⟨ts, l', hc, he, hp⟩
  · rintro ⟨ts, l', hc, he, hp⟩
    obtain ⟨n, us, rfl⟩ := exists_identifier_of_program hp
    have ht : ((start s : Lexer ν).next d .jsonp).1 = .identifier := by
      rw [next_type, hc.1]
      rfl
    have hle : ((start s : Lexer ν).after d .jsonp).ptr.length ≤ s.length := next_length_le _
    rw [if_neg (by simp [ht])]
    exact jsonpFrom_complete hp hc he hle

/-! ### Scripts -/

/-- A number and an identifier go on as far as they can, and no identifier starts with a literal. -/
def LongestMatch (text rest : UString) (token : Token ν) : Prop :=
  (token.type = .number → EndsNumber rest) ∧
    (token.type = .identifier → (∀ c ∈ rest.head?, isIdentifierPart c = false) ∧
      (keywordToken (text ++ rest) : Option (Token ν × UString)) = none)

/-- A text of tokens with white space around them. -/
inductive Script (d : Doubles ν) : UString → List (Token ν) → Prop
  | done {w : UString} : WhiteSpace w → Script d w []
  | token {w text rest : UString} {token : Token ν} {tokens : List (Token ν)} :
      WhiteSpace w → ScriptLexeme d text token →
      LongestMatch text rest token → Script d rest tokens →
      Script d (w ++ text ++ rest) (token :: tokens)

theorem lexToken_identifier {c : UInt16} (hc : isIdentifierStart c = true)
    (ht : ∀ c' ∈ text, isIdentifierPart c' = true)
    (hr : ∀ c' ∈ rest.head?, isIdentifierPart c' = false)
    (hk : (keywordToken (c :: text ++ rest) : Option (Token ν × UString)) = none) :
    lexToken d .jsonp c (text ++ rest) = .ok (.identifier, .identifier (c :: text), rest) := by
  have hne : ∀ x, isIdentifierStart x = false → c ≠ x := by
    rintro x hx rfl
    exact absurd hc (by simp [hx])
  have hnum : ¬ (c = ch '-' ∨ isASCIIDigit c = true) := by
    intro h
    have hall : numberStarts.all (! isIdentifierStart ·) = true := rfl
    exact hne c (by simpa using all_eq_true.mp hall c (mem_numberStarts h)) rfl
  have hp : (punctuation c : Option (Token ν)) = none := by
    simp [punctuation, hne (ch '[') rfl, hne (ch ']') rfl, hne (ch '(') rfl, hne (ch ')') rfl,
      hne 0x7B rfl, hne 0x7D rfl, hne (ch ',') rfl, hne (ch ':') rfl]
  obtain ⟨htake, hdrop⟩ := ListScans.takeWhile_dropWhile_append
    (forall_mem_cons.mpr ⟨isIdentifierPart_of_start hc, ht⟩) hr
  rw [cons_append] at htake hdrop hk
  unfold lexToken
  simp only [hp, if_neg (hne quotationMark rfl), hk]
  rw [if_neg (by simpa using hnum), if_neg (hne _ rfl), if_neg (hne _ rfl), if_neg (hne _ rfl),
    if_pos hc, htake, hdrop]

/-- Where the text stands, the lexer reads it or fails. -/
def ReadOrFails (d : Doubles ν) (text rest : UString) (p : Token ν → Prop) : Prop :=
  ∃ c ptr, text ++ rest = c :: ptr ∧ isJSONWhiteSpace c = false ∧ ∀ type token rest',
    lexToken d .jsonp c ptr = .ok (type, token, rest') → rest' = rest ∧ p token

theorem readOrFails_string {value : UString} (h : StringText StringCharacter escapeCharacters text value) :
    ReadOrFails d (quotationMark :: (text ++ [quotationMark])) rest (· = .string value) := by
  refine ⟨quotationMark, text ++ quotationMark :: rest, by simp, rfl, fun type token rest' ht => ?_⟩
  rw [← literalText_strictJSON] at h
  obtain ⟨text', value', heq, htext, rfl, -⟩ :=
    @stringToken_eq_ok ν token (text ++ quotationMark :: rest) rest' .jsonp type quotationMark ht
  obtain ⟨-, rfl, rfl⟩ := literalText_unique (by decide) (by decide) h htext heq
  exact ⟨rfl, rfl⟩

theorem readOrFails_of_script (h : ScriptLexeme d text token) (hm : LongestMatch text rest token)
    (hn : token.type ≠ .number) : ReadOrFails d text rest (· = token) := by
  cases h with
  | json h =>
    cases h with
    | number => exact absurd rfl hn
    | string ht => exact readOrFails_string ht
    | _ => exact ⟨_, _, rfl, rfl, fun _ _ _ h => by cases h; exact ⟨rfl, rfl⟩⟩
  | @identifier c text hc ht =>
    obtain ⟨hr, hk⟩ := hm.2 rfl
    refine ⟨c, text ++ rest, rfl, ?_, fun type token' rest' h => ?_⟩
    · by_contra hw
      rcases isJSONWhiteSpace_iff.mp (by simpa using hw) with rfl | rfl | rfl | rfl <;> cases hc
    · rw [lexToken_identifier hc ht hr hk] at h
      cases h
      exact ⟨rfl, rfl⟩
  | _ => exact ⟨_, _, rfl, rfl, fun _ _ _ h => by cases h; exact ⟨rfl, rfl⟩⟩

/-- What the lexer reads where a token of a script stands. -/
theorem lexToken_script (h : ScriptLexeme d text token) (hm : LongestMatch text rest token) :
    ReadOrFails d text rest (·.type = token.type) := by
  by_cases hn : token.type = .number
  · have ht : NumberText text := by
      cases h with
      | json h => cases h <;> first | assumption | cases hn
      | _ => cases hn
    obtain ⟨c, ptr, heq, hc, type', hlex⟩ := lexToken_numberText (d := d) .jsonp ht (hm.1 hn) rfl
    refine ⟨c, ptr, heq, hc, fun type token' rest' h => ?_⟩
    rw [hlex] at h
    cases h
    exact ⟨rfl, hn.symm⟩
  · obtain ⟨c, ptr, heq, hc, hlex⟩ := readOrFails_of_script h hm hn
    refine ⟨c, ptr, heq, hc, fun type token' rest' ht => ?_⟩
    obtain ⟨rfl, rfl⟩ := hlex _ _ _ ht
    exact ⟨rfl, rfl⟩

/-- What is read of a script are its tokens, up to the numbers. -/
theorem types_of_consumes (h : Script d s us) (hs : l.ptr = s)
    (hc : Consumes d .jsonp (l.after d .jsonp) ts l') (he : l'.currentToken = .end)
    (hr : ∀ t ∈ ts, t.isRead = true) : ts.map Token.type = us.map Token.type := by
  induction h generalizing l ts with
  | @done w hw =>
    cases ts with
    | nil => rfl
    | cons t ts =>
      have ht := hr t (.head _)
      rw [← hc.1, Lexer.after, next_of_whiteSpace (hs ▸ hw)] at ht
      cases ht
  | @token w text rest token tokens hw ht hm _ ih =>
    obtain ⟨c, ptr, heq, hws, hlex⟩ := lexToken_script ht hm
    rw [append_assoc, heq] at hs
    cases ts with
    | nil =>
      obtain rfl : l.after d .jsonp = l' := hc
      have hwhite := isJSONWhiteSpace_iff.mpr (next_end he c (by simp [hs]))
      cases hws.symm.trans hwhite
    | cons t ts =>
      obtain ⟨rfl, hrest⟩ := hc
      rw [forall_mem_cons] at hr
      obtain ⟨type, hlex'⟩ := lexToken_of_next hw hs hws hr.1
      obtain ⟨hptr, htype⟩ := hlex _ _ _ hlex'
      rw [map_cons, map_cons, ih hptr hrest hr.2, htype]

/-! ### Programs without deviations -/

def TokenType.startsValue : TokenType → Bool
  | .lBracket | .lBrace | .string | .number | .true | .false | .null => Bool.true
  | _ => Bool.false

/-- A value does not follow a `;`, and a key is not an identifier. -/
def Follows (t u : Token ν) : Prop :=
  (t.type = .semi → u.type.startsValue = false) ∧ (t.type = .identifier → u.type ≠ .colon)

theorem follows_of_types (h : us.map Token.type = ts.map Token.type)
    (hts : List.IsChain Follows ts) : List.IsChain Follows us :=
  isChain_of_types (R := fun a b => (a = .semi → b.startsValue = false) ∧
    (a = .identifier → b ≠ .colon)) h hts

theorem stringKey_of_follows {k : UString} (hk : memberKey .jsonp t = some k)
    (hf : Follows t .colon) : stringKey t = some k := by
  cases t with
  | string value => exact hk
  | identifier n => exact absurd rfl (hf.2 rfl)
  | _ => cases hk

theorem derives_of_chain {phrase : Phrase ν}
    (h : Derives (memberKey .jsonp) phrase ts) (hc : List.IsChain Follows ts) :
    Derives stringKey phrase ts := by
  induction h with
  | null | true | false | number | string | emptyArray | emptyObject => constructor
  | array _ ih => exact .array (ih hc.tail.left_of_append)
  | object _ ih => exact .object (ih hc.tail.left_of_append)
  | firstElement _ ih => exact .firstElement (ih hc)
  | nextElement _ _ ihs ih =>
    exact .nextElement (ihs hc.left_of_append) (ih hc.right_of_append.tail)
  | firstMember hk _ ih =>
    exact .firstMember (stringKey_of_follows hk hc.rel) (ih hc.tail.tail)
  | nextMember _ hk _ ihs ih =>
    have hm := hc.right_of_append.tail
    exact .nextMember (ihs hc.left_of_append) (stringKey_of_follows hk hm.rel) (ih hm.tail.tail)

theorem startsValue_first {key : Token ν → Option UString}
    (h : Derives key (.value v) ts) : ∃ t us, ts = t::us ∧ t.type.startsValue := by
  cases h <;> exact ⟨_,_,rfl,rfl⟩

theorem eq_assign_of_chain (ht : takenForAssign t) (h : Derives (memberKey .jsonp) (.value v) ts)
    (hc : List.IsChain Follows (t::ts)) : t = .assign := by
  obtain ⟨u,us,rfl,hstarts⟩ := startsValue_first h
  have hf : Follows t u := hc.rel
  cases t with
  | semi => rw [hf.1 rfl] at hstarts; cases hstarts
  | assign => rfl
  | _ => cases ht

theorem statement_of_chain {calls : Prop}
    (h : Statement d isKeyword (memberKey .jsonp) takenForAssign calls ts data)
    (hc : List.IsChain Follows ts) : Statement d isKeyword stringKey (· = .assign) True ts data := by
  cases h with
  | declare hx ht hv =>
    have hr := hc.tail.tail
    exact .declare hx (eq_assign_of_chain ht hv hr) (derives_of_chain hv hr.tail)
  | assign hp ht hv =>
    have hr := hc.right_of_append
    exact .assign hp (eq_assign_of_chain ht hv hr) (derives_of_chain hv hr.tail)
  | call _ hp hv =>
    exact .call trivial hp (derives_of_chain hv hc.right_of_append.tail.left_of_append)

theorem program_of_chain {calls : Prop}
    (h : Program d isKeyword (memberKey .jsonp) takenForAssign calls ts results)
    (hc : List.IsChain Follows ts) : Program d isKeyword stringKey (· = .assign) True ts results := by
  induction h with
  | last hd => exact .last (statement_of_chain hd hc)
  | lastSemicolon hd => exact .lastSemicolon (statement_of_chain hd hc.left_of_append)
  | next hd _ ih =>
    exact .next (statement_of_chain hd hc.left_of_append) (ih hc.right_of_append.tail)

theorem isRead_of_path (h : Path d isKeyword ts path) :
    ∀ t ∈ ts, t.isRead = true ∧ t.type ≠ .semi ∧ t.type ≠ .colon := by
  induction h with
  | name => simp [Token.isRead, Token.type]
  | dot _ ih | lookup _ _ _ ih =>
    exact forall_mem_append.mpr ⟨ih, by simp [Token.isRead, Token.type]⟩

section
variable {calls : Prop}

theorem isRead_of_value (h : Derives (memberKey .jsonp) (.value v) ts) : ∀ t ∈ ts, t.isRead = true :=
  forall_of_derives (fun _ => isRead_of_isJSON) (fun t k hk => by cases t <;> first | rfl | cases hk) h

theorem isRead_of_statement
    (h : Statement d isKeyword (memberKey .jsonp) takenForAssign calls ts data) :
    ∀ t ∈ ts, t.isRead = true := by
  have hassign {t : Token ν} (ht : takenForAssign t) : t.isRead = true := by
    cases t <;> first | rfl | cases ht
  cases h with
  | declare _ ht hv =>
    rw [forall_mem_append, forall_mem_cons, forall_mem_cons, forall_mem_singleton]
    exact ⟨⟨rfl, rfl, hassign ht⟩, isRead_of_value hv⟩
  | assign hp ht hv =>
    rw [forall_mem_append, forall_mem_cons]
    exact ⟨fun t ht => (isRead_of_path hp t ht).1, hassign ht, isRead_of_value hv⟩
  | call _ hp hv =>
    rw [forall_mem_append, forall_mem_cons, forall_mem_append, forall_mem_singleton]
    exact ⟨fun t ht => (isRead_of_path hp t ht).1, rfl, isRead_of_value hv, rfl⟩

theorem isRead_of_program (h : Program d isKeyword (memberKey .jsonp) takenForAssign calls ts results) :
    ∀ t ∈ ts, t.isRead = true := by
  induction h with
  | last hd => exact isRead_of_statement hd
  | lastSemicolon hd =>
    rw [forall_mem_append, forall_mem_singleton]
    exact ⟨isRead_of_statement hd, rfl⟩
  | next hd _ ih =>
    rw [forall_mem_append, forall_mem_cons]
    exact ⟨isRead_of_statement hd, rfl, ih⟩

theorem follows_append {p : List (Token ν)} (hps : ∀ t ∈ p, t.type ≠ .semi ∧ t.type ≠ .colon)
    (ht : t.type ≠ .semi ∧ t.type ≠ .identifier ∧ t.type ≠ .colon)
    (hts : ∀ t ∈ ts, t.type ≠ .semi ∧ t.type ≠ .identifier) :
    List.IsChain Follows (p ++ t :: ts) ∧ ∀ u ∈ p ++ t :: ts, u.type ≠ .semi := by
  have hvalue : ∀ u ∈ t :: ts, u.type ≠ .semi ∧ u.type ≠ .identifier :=
    forall_mem_cons.mpr ⟨⟨ht.1, ht.2.1⟩, hts⟩
  refine ⟨isChain_append.mpr ⟨?_, ?_, ?_⟩, ?_⟩
  · refine (pairwise_of_forall_mem_list fun a ha b hb => ?_).isChain
    exact ⟨fun h => absurd h (hps a ha).1, fun _ => (hps b hb).2⟩
  · refine (pairwise_of_forall_mem_list fun a ha b _ => ?_).isChain
    exact ⟨fun h => absurd h (hvalue a ha).1, fun h => absurd h (hvalue a ha).2⟩
  · intro a ha b hb
    obtain rfl : t = b := Option.some.inj hb
    exact ⟨fun h => absurd h (hps a (mem_of_getLast? ha)).1, fun _ => ht.2.2⟩
  · exact forall_mem_append.mpr ⟨fun u hu => (hps u hu).1, fun u hu => (hvalue u hu).1⟩

theorem follows_of_statement (h : Statement d isKeyword stringKey (· = .assign) calls ts data) :
    List.IsChain Follows ts ∧ ∀ t ∈ ts, t.type ≠ .semi := by
  have hval {v : JSONValue ν} {ts : List (Token ν)} (h : Derives stringKey (.value v) ts) :
      ∀ t ∈ ts, t.type ≠ .semi ∧ t.type ≠ .identifier := by
    intro t ht
    have hj := isJSON_of_derives h t ht
    cases t <;> simp [Token.type, TokenType.isJSON] at hj ⊢
  cases h with
  | @declare x v t ts _ ht hv =>
    subst ht
    exact follows_append (p := [_, _]) (by simp [Token.type]) (by simp [Token.type]) (hval hv)
  | assign hp ht hv =>
    subst ht
    exact follows_append (fun t ht => (isRead_of_path hp t ht).2) (by simp [Token.type]) (hval hv)
  | call _ hp hv =>
    refine follows_append (fun t ht => (isRead_of_path hp t ht).2) (by simp [Token.type]) ?_
    exact forall_mem_append.mpr ⟨hval hv, by simp [Token.type]⟩

/-- In a program no value follows a `;` and no `:` an identifier. -/
theorem follows_of_program (h : Program d isKeyword stringKey (· = .assign) calls ts results) :
    List.IsChain Follows ts := by
  have hsemi {ts us : List (Token ν)} {data : JSONPData ν}
      (hd : Statement d isKeyword stringKey (· = .assign) calls ts data)
      (hus : List.IsChain Follows (.semi :: us)) : List.IsChain Follows (ts ++ .semi :: us) := by
    obtain ⟨hc, hne⟩ := follows_of_statement hd
    refine isChain_append.mpr ⟨hc, hus, fun a ha b hb => ?_⟩
    obtain rfl : .semi = b := Option.some.inj hb
    exact ⟨fun h => absurd h (hne a (mem_of_getLast? ha)), by simp [Token.type]⟩
  induction h with
  | last hd => exact (follows_of_statement hd).1
  | lastSemicolon hd => exact hsemi hd (.singleton _)
  | next hd hp ih =>
    obtain ⟨n, us, rfl⟩ := exists_identifier_of_program hp
    exact hsemi hd (.cons_cons (by simp [Follows, Token.type, TokenType.startsValue]) ih)

end

theorem derives_memberKey {phrase : Phrase ν} (h : Derives stringKey phrase ts) :
    Derives (memberKey .jsonp) phrase ts := by
  have hkey {t : Token ν} {k : UString} (hk : stringKey t = some k) :
      memberKey .jsonp t = some k := by
    cases t <;> first | exact hk | cases hk
  induction h with
  | null | true | false | number | string | emptyArray | emptyObject => constructor
  | array _ ih => exact .array ih
  | object _ ih => exact .object ih
  | firstElement _ ih => exact .firstElement ih
  | nextElement _ _ ihs ih => exact .nextElement ihs ih
  | firstMember hk _ ih => exact .firstMember (hkey hk) ih
  | nextMember _ hk _ ihs ih => exact .nextMember ihs (hkey hk) ih

/-- The driver would accept every script. -/
theorem program_of_script (h : Program d isKeyword stringKey (· = .assign) True ts results) :
    Program d isKeyword (memberKey .jsonp) takenForAssign True ts results := by
  have hstatement {ts : List (Token ν)} {data : JSONPData ν}
      (hd : Statement d isKeyword stringKey (· = .assign) True ts data) :
      Statement d isKeyword (memberKey .jsonp) takenForAssign True ts data := by
    cases hd with
    | declare hx ht hv => exact .declare hx (ht ▸ rfl) (derives_memberKey hv)
    | assign hp ht hv => exact .assign hp (ht ▸ rfl) (derives_memberKey hv)
    | call hc hp hv => exact .call hc hp (derives_memberKey hv)
  induction h with
  | last hd => exact .last (hstatement hd)
  | lastSemicolon hd => exact .lastSemicolon (hstatement hd)
  | next hd _ ih => exact .next (hstatement hd) ih

/-- A script whose text has the results. -/
def ScriptWith (d : Doubles ν) (isKeyword : UString → Bool) (s : UString)
    (results : List (JSONPData ν)) : Prop :=
  ∃ ts, Script d s ts ∧ Program d isKeyword stringKey (· = .assign) True ts results

theorem mem_of_script (h : Script d s ts)
    {c : UInt16} (hc : ∀ text, ScriptLexeme d text t → c ∈ text) (ht : t ∈ ts) : c ∈ s := by
  induction h with
  | done => cases ht
  | token _ htext _ _ ih =>
    rcases mem_cons.mp ht with rfl | ht
    · exact mem_append_left _ (mem_append_right _ (hc _ htext))
    · exact mem_append_right _ (ih ht)

theorem assign_or_lParen_mem {isKeyword : UString → Bool}
    (h : Program d isKeyword stringKey (· = .assign) True ts results) :
    .assign ∈ ts ∨ .lParen ∈ ts := by
  have hstmt : ∀ {ts : List (Token ν)} {data : JSONPData ν},
      Statement d isKeyword stringKey (· = .assign) True ts data → .assign ∈ ts ∨ .lParen ∈ ts := by
    intro ts data h
    cases h with
    | declare _ ht _ | assign _ ht _ => exact .inl (by simp [ht])
    | call => exact .inr (by simp)
  cases h with
  | last hd => exact hstmt hd
  | lastSemicolon hd | next hd _ =>
    exact (hstmt hd).imp (mem_append_left _) (mem_append_left _)

theorem not_script_expression_statements (results : List (JSONPData Bool)) :
    ¬ ScriptWith signs (fun _ => false) ("a;1".toList.map ch) results := by
  rintro ⟨ts, hscript, h⟩
  rcases assign_or_lParen_mem h with ha | hp
  · have hm : ch '=' ∈ "a;1".toList.map ch := by
      refine mem_of_script hscript (fun text ht => ?_) ha
      cases ht with
      | json h => cases h
      | assign => simp
    exact absurd hm (by decide)
  · have hm : ch '(' ∈ "a;1".toList.map ch := by
      refine mem_of_script hscript (fun text ht => ?_) hp
      cases ht with
      | json h => cases h
      | lParen => simp
    exact absurd hm (by decide)

end QPlusWeb.JSC
