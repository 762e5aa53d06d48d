import Mathlib.Data.Fin.SuccPred
import Mathlib.Data.List.Forall2
import Mathlib.Data.List.Induction
import Mathlib.Data.List.Permutation
import Mathlib.Tactic.Linarith

/-!
# The source ranges of a code block

The bytecode generator records where the expression of an instruction stands in the source, packed
into bit fields: the line and the column share 30 bits in one of two layouts, or stand in a table.
A lookup searches for the last record at the instruction or before it.
-/

namespace QPlusWeb.ExpressionRanges

open List

def maxOffset : ℕ := 2 ^ 7 - 1
def maxDivot : ℕ := 2 ^ 25 - 1
def maxFatLineModeLine : ℕ := 2 ^ 22 - 1
def maxFatLineModeColumn : ℕ := 2 ^ 8 - 1
def maxFatColumnModeLine : ℕ := 2 ^ 8 - 1
def maxFatColumnModeColumn : ℕ := 2 ^ 22 - 1

inductive Mode where
  | fatLineMode | fatColumnMode | fatLineAndColumnMode

/-- An assignment to a bit field keeps the low bits. -/
structure ExpressionRangeInfo where
  instructionOffset : BitVec 25
  startOffset : BitVec 7
  divotPoint : BitVec 25
  endOffset : BitVec 7
  mode : Mode
  position : BitVec 30

/-- Both layouts, with the number of bits for the line and for the column. -/
def encodePosition (lineBits columnBits line column : ℕ) : BitVec 30 :=
  .ofNat 30 ((line &&& (2 ^ lineBits - 1)) <<< columnBits ||| (column &&& (2 ^ columnBits - 1)))

def decodePosition (lineBits columnBits : ℕ) (position : BitVec 30) : ℕ × ℕ :=
  ((position.toNat >>> columnBits) &&& (2 ^ lineBits - 1), position.toNat &&& (2 ^ columnBits - 1))

def encodeFatLineMode : ℕ → ℕ → BitVec 30 := encodePosition 22 8
def encodeFatColumnMode : ℕ → ℕ → BitVec 30 := encodePosition 8 22
def decodeFatLineMode : BitVec 30 → ℕ × ℕ := decodePosition 22 8
def decodeFatColumnMode : BitVec 30 → ℕ × ℕ := decodePosition 8 22

@[ext]
structure ExpressionRange where
  divot : ℤ
  startOffset : ℤ
  endOffset : ℤ
  line : ℕ
  column : ℕ

/-- The arguments of `addExpressionInfo`. -/
structure ExpressionInfo extends ExpressionRange where
  instructionOffset : ℕ

structure UnlinkedCodeBlock where
  expressionInfo : List ExpressionRangeInfo := []
  fatPositions : List (ℕ × ℕ) := []

variable {c : UnlinkedCodeBlock} {e : ExpressionInfo} {entries : List ExpressionInfo}
  {info : ExpressionRangeInfo} {r : ExpressionRange}

/-- The first `if` of `addExpressionInfo`: what is kept of the range. -/
def limitRange (e : ExpressionRange) : ExpressionRange :=
  if e.divot > maxDivot then { e with divot := 0, startOffset := 0, endOffset := 0 }
  else if e.startOffset > maxOffset then { e with startOffset := 0, endOffset := 0 }
  else if e.endOffset > maxOffset then { e with endOffset := 0 }
  else e

def addExpressionInfo (c : UnlinkedCodeBlock) (e : ExpressionInfo) : UnlinkedCodeBlock :=
  let kept := limitRange e.toExpressionRange
  let info := ExpressionRangeInfo.mk (.ofNat 25 e.instructionOffset) (.ofInt 7 kept.startOffset)
    (.ofInt 25 kept.divot) (.ofInt 7 kept.endOffset)
  if e.line ≤ maxFatLineModeLine ∧ e.column ≤ maxFatLineModeColumn then
    { c with expressionInfo := c.expressionInfo ++
        [info .fatLineMode (encodeFatLineMode e.line e.column)] }
  else if e.line ≤ maxFatColumnModeLine ∧ e.column ≤ maxFatColumnModeColumn then
    { c with expressionInfo := c.expressionInfo ++
        [info .fatColumnMode (encodeFatColumnMode e.line e.column)] }
  else
    { expressionInfo := c.expressionInfo ++
        [info .fatLineAndColumnMode (.ofNat 30 c.fatPositions.length)]
      fatPositions := c.fatPositions ++ [(e.line, e.column)] }

/-- The loop of the binary search. -/
def search (startsBefore : ℕ → Bool) (low high : ℕ) : ℕ :=
  if low < high then
    let mid := low + (high - low) / 2
    if startsBefore mid then search startsBefore (mid + 1) high else search startsBefore low mid
  else low
termination_by high - low

/-- What the record says; a table index that is out of range has no answer. -/
def rangeOf (fat : List (ℕ × ℕ)) (info : ExpressionRangeInfo) : Option ExpressionRange := do
  let (line, column) ← match info.mode with
    | .fatLineMode => some (decodeFatLineMode info.position)
    | .fatColumnMode => some (decodeFatColumnMode info.position)
    | .fatLineAndColumnMode => fat[info.position.toNat]?
  some ⟨info.divotPoint.toNat, info.startOffset.toNat, info.endOffset.toNat, line, column⟩

def expressionRangeForBytecodeOffset (c : UnlinkedCodeBlock) (bytecodeOffset : ℕ) :
    Option ExpressionRange :=
  if c.expressionInfo = [] then some ⟨0, 0, 0, 0, 0⟩
  else do
    let low := search
      (fun i => (c.expressionInfo[i]?).any (·.instructionOffset.toNat ≤ bytecodeOffset))
      0 c.expressionInfo.length
    let low := if low = 0 then 1 else low
    let info ← c.expressionInfo[low - 1]?
    rangeOf c.fatPositions info

/-! ### One record -/

theorem decodePosition_encodePosition {l k line column : ℕ} (h : l+k = 30) (hl : line < 2^l)
    (hc : column < 2^k) : decodePosition l k (encodePosition l k line column) = (line,column) := by
  have hlt : line*2^k+column < 2^30 := by
    calc line*2^k+column < (line+1)*2^k := by rw [Nat.succ_mul]; omega
      _ ≤ 2^l*2^k := Nat.mul_le_mul_right _ hl
      _ = 2^30 := by rw [← Nat.pow_add,h]
  have hp : (encodePosition l k line column).toNat = line*2^k+column := by
    rw [encodePosition,Nat.and_two_pow_sub_one_of_lt_two_pow hl,
      Nat.and_two_pow_sub_one_of_lt_two_pow hc,← Nat.shiftLeft_add_eq_or_of_lt hc,
      Nat.shiftLeft_eq,BitVec.toNat_ofNat,Nat.mod_eq_of_lt hlt]
  have hq : (line*2^k+column)/2^k = line := by
    rw [Nat.add_comm,Nat.add_mul_div_right _ _ (Nat.two_pow_pos k),Nat.div_eq_of_lt hc,Nat.zero_add]
  rw [decodePosition,hp,Nat.shiftRight_eq_div_pow,hq,Nat.and_two_pow_sub_one_of_lt_two_pow hl,
    Nat.and_two_pow_sub_one_eq_mod,Nat.mul_add_mod_of_lt hc]

/-- The fields can hold what the call gives, or the call drops it. -/
@[mk_iff]
structure Fits (e : ExpressionInfo) : Prop where
  instructionOffset : e.instructionOffset < 2 ^ 25
  divot : 0 ≤ e.divot
  startOffset : 0 ≤ e.startOffset
  endOffset : 0 ≤ e.endOffset

def Records (fat : List (ℕ × ℕ)) (e : ExpressionInfo) (info : ExpressionRangeInfo) : Prop :=
  info.instructionOffset.toNat = e.instructionOffset ∧
    rangeOf fat info = some (limitRange e.toExpressionRange)

theorem fields_limitRange (h : Fits e) {kept : ExpressionRange}
    (hk : limitRange e.toExpressionRange = kept) :
    ⟨(BitVec.ofInt 25 kept.divot).toNat,(BitVec.ofInt 7 kept.startOffset).toNat,
      (BitVec.ofInt 7 kept.endOffset).toNat,e.line,e.column⟩ = kept := by
  obtain ⟨_,hd,hs,he⟩ := h
  rw [limitRange] at hk
  split_ifs at hk
  all_goals
    subst hk
    ext <;> simp only [maxDivot,maxOffset,BitVec.toNat_ofInt] at * <;> omega

theorem isPrefix_fatPositions : c.fatPositions <+: (addExpressionInfo c e).fatPositions := by
  rw [addExpressionInfo]
  split_ifs
  · exact prefix_rfl
  · exact prefix_rfl
  · exact prefix_append _ _

theorem rangeOf_mono {l l' : List (ℕ × ℕ)} (hl : l <+: l') (h : rangeOf l info = some r) :
    rangeOf l' info = some r := by
  obtain ⟨t,rfl⟩ := hl
  rw [rangeOf] at h ⊢
  cases hm : info.mode with rw [hm] at h
  | fatLineMode | fatColumnMode => exact h
  | fatLineAndColumnMode =>
    obtain ⟨p,hp,hr⟩ := Option.bind_eq_some_iff.mp h
    obtain ⟨hlt,_⟩ := List.getElem?_eq_some_iff.mp hp
    rw [getElem?_append_left hlt,hp]
    exact hr

/-- A call adds one record, which says what the call was given. -/
theorem addExpressionInfo_records (h : Fits e)
    (hn : (addExpressionInfo c e).fatPositions.length ≤ 2^30) :
    ∃ info, (addExpressionInfo c e).expressionInfo = c.expressionInfo++[info] ∧
      Records (addExpressionInfo c e).fatPositions e info := by
  have ho : (BitVec.ofNat 25 e.instructionOffset).toNat = e.instructionOffset :=
    Nat.mod_eq_of_lt h.instructionOffset
  have hk := congrArg some (fields_limitRange h rfl)
  rw [addExpressionInfo] at hn ⊢
  split_ifs at hn ⊢ with hl hc
  · have hp : decodeFatLineMode (encodeFatLineMode e.line e.column) = (e.line,e.column) :=
      decodePosition_encodePosition rfl (Nat.lt_succ_of_le hl.1) (Nat.lt_succ_of_le hl.2)
    exact ⟨_,rfl,ho,by simp only [rangeOf,hp]; exact hk⟩
  · have hp : decodeFatColumnMode (encodeFatColumnMode e.line e.column) = (e.line,e.column) :=
      decodePosition_encodePosition rfl (Nat.lt_succ_of_le hc.1) (Nat.lt_succ_of_le hc.2)
    exact ⟨_,rfl,ho,by simp only [rangeOf,hp]; exact hk⟩
  · have hp : (BitVec.ofNat 30 c.fatPositions.length).toNat = c.fatPositions.length :=
      Nat.mod_eq_of_lt (by rwa [length_append] at hn)
    exact ⟨_,rfl,ho,by simpa [rangeOf,hp] using hk⟩

/-! ### All records -/

def codeBlockOf (entries : List ExpressionInfo) : UnlinkedCodeBlock :=
  entries.foldl addExpressionInfo {}

/-- Neither packed mode has room for the position. -/
def needsFatPosition (e : ExpressionInfo) : Bool :=
  ¬(e.line ≤ maxFatLineModeLine ∧ e.column ≤ maxFatLineModeColumn) ∧
    ¬(e.line ≤ maxFatColumnModeLine ∧ e.column ≤ maxFatColumnModeColumn)

theorem length_fatPositions :
    (codeBlockOf entries).fatPositions.length = entries.countP needsFatPosition := by
  induction entries using reverseRecOn with
  | nil => rfl
  | append_singleton entries e ih =>
    rw [codeBlockOf, foldl_append, countP_append, ← ih, foldl_cons, foldl_nil, addExpressionInfo]
    split_ifs with hl hc
    · simp [codeBlockOf, needsFatPosition, hl]
    · simp [codeBlockOf, needsFatPosition, hc]
    · simp [codeBlockOf, needsFatPosition, hl, hc]

theorem records_codeBlockOf (h : ∀ e ∈ entries, Fits e)
    (hn : (codeBlockOf entries).fatPositions.length ≤ 2^30) :
    Forall₂ (Records (codeBlockOf entries).fatPositions) entries
      (codeBlockOf entries).expressionInfo := by
  induction entries using reverseRecOn with
  | nil => exact .nil
  | append_singleton entries e ih =>
    rw [codeBlockOf,foldl_append] at hn ⊢
    have hp := @isPrefix_fatPositions (codeBlockOf entries) e
    obtain ⟨info,hi,hr⟩ := addExpressionInfo_records (h e (by simp)) hn
    have ha := ih (fun e he => h e (mem_append_left _ he)) (Nat.le_trans hp.length_le hn)
    refine hi ▸ rel_append ?_ (.cons hr .nil)
    exact ha.imp fun e info hr => hr.imp_right (rangeOf_mono hp)

theorem search_eq {p : ℕ → Bool} {low high k : ℕ} (hp : ∀ i < high, p i ↔ i < k) (hl : low ≤ k)
    (hh : k ≤ high) : search p low high = k := by
  fun_induction search p low high with
  | case1 low high hlt mid hm ih =>
    have := (hp mid (by omega)).mp hm
    exact ih hp (by omega) hh
  | case2 low high hlt mid hm ih =>
    have := mt (hp mid (by omega)).mpr hm
    exact ih (fun i hi => hp i (by omega)) hl (by omega)
  | case3 low high hlt => omega

/-- The lookup finds the last record at the instruction or before it. -/
theorem range_of_last (entries before after : List ExpressionInfo) (e : ExpressionInfo)
    (bytecodeOffset : ℕ) (hentries : entries = before ++ e :: after)
    (hsorted : entries.Pairwise (·.instructionOffset ≤ ·.instructionOffset))
    (hfits : ∀ e' ∈ entries, Fits e') (hfat : entries.countP needsFatPosition ≤ 2 ^ 30)
    (hle : e.instructionOffset ≤ bytecodeOffset)
    (hlast : ∀ e' ∈ after, bytecodeOffset < e'.instructionOffset) :
    expressionRangeForBytecodeOffset (codeBlockOf entries) bytecodeOffset =
      some (limitRange e.toExpressionRange) := by
  have hr := records_codeBlockOf hfits (length_fatPositions.trans_le hfat)
  generalize codeBlockOf entries = c at hr ⊢
  subst hentries
  have hl := hr.length_eq
  have hb : ∀ e' ∈ before, e'.instructionOffset ≤ bytecodeOffset := fun e' he' =>
    Nat.le_trans ((pairwise_append.mp hsorted).2.2 e' he' e mem_cons_self) hle
  have hs : search
      (fun i => (c.expressionInfo[i]?).any (·.instructionOffset.toNat ≤ bytecodeOffset)) 0
      c.expressionInfo.length = before.length+1 := by
    refine search_eq (fun i hi => ?_) (Nat.zero_le _) (by simp [← hl])
    have ho := (hr.get (hl ▸ hi) hi).1
    rw [getElem?_eq_getElem hi]
    grind
  have hi : before.length < c.expressionInfo.length := by simp [← hl]
  rw [expressionRangeForBytecodeOffset,if_neg (ne_nil_of_length_pos (by omega)),hs]
  simpa [getElem?_eq_getElem hi] using (hr.get (hl ▸ hi) hi).2

theorem range_of_last_of_two :
    expressionRangeForBytecodeOffset
      (codeBlockOf [⟨⟨5, 1, 200, 3, 4⟩, 6⟩, ⟨⟨9, 1, 2, 3, 8⟩, 10⟩]) 7 = some ⟨5, 1, 0, 3, 4⟩ := by
  have hf : ∀ e ∈ [(⟨⟨5,1,200,3,4⟩,6⟩ : ExpressionInfo),⟨⟨9,1,2,3,8⟩,10⟩], Fits e := by
    simp [fits_iff]
  exact range_of_last _ [] [⟨⟨9,1,2,3,8⟩,10⟩] ⟨⟨5,1,200,3,4⟩,6⟩ 7 rfl (by simp) hf (by decide)
    (by decide) (by simp)

/-- The instruction offset 2 ^ 25 is kept as 0, and the divot -1 as 2 ^ 25 - 1. -/
theorem range_of_truncated :
    (expressionRangeForBytecodeOffset
      (codeBlockOf [⟨⟨0, 0, 0, 1, 0⟩, 0⟩, ⟨⟨0, 0, 0, 2, 0⟩, 2 ^ 25⟩]) 5).map (·.line) = some 2 ∧
    (expressionRangeForBytecodeOffset (codeBlockOf [⟨⟨-1, 0, 0, 1, 0⟩, 0⟩]) 0).map (·.divot) =
      some (2 ^ 25 - 1) := by
  simp [expressionRangeForBytecodeOffset,codeBlockOf,addExpressionInfo,search,maxFatLineModeLine]
  decide

end QPlusWeb.ExpressionRanges
