import Mathlib.Data.List.InsertIdx
import Mathlib.Data.Nat.Bitwise

/-!
# Characters that match whatever their case

In a case-insensitive pattern a literal character, a class of one character and a back-reference
decide in three ways which characters they accept: by the case mappings, by the canonicalization
table when the class is built, and by the table when texts are compared.  A literal takes the case
mappings also where the table has a character alone.  Characters are numbers below `2 ^ 16`.
-/
namespace QPlusWeb.Yarr

/-- `!(c & ~0x7F)` -/
def isASCII (c : ℕ) : Bool := c ≤ 0x7F

def isASCIILower (c : ℕ) : Bool := 0x61 ≤ c && c ≤ 0x7A

def isASCIIUpper (c : ℕ) : Bool := 0x41 ≤ c && c ≤ 0x5A

def isASCIIAlpha (c : ℕ) : Bool := isASCIILower c || isASCIIUpper c

def toASCIIUpper (c : ℕ) : ℕ := if isASCIILower c then c - 0x20 else c

def toASCIILower (c : ℕ) : ℕ := if isASCIIUpper c then c + 0x20 else c

inductive UCS2CanonicalizationType where
  | unique
  | set
  | rangeLo
  | rangeHi
  | alternatingAligned
  | alternatingUnaligned

structure UCS2CanonicalizationRange where
  type : UCS2CanonicalizationType
  value : ℕ

/-- The case mappings and the generated table: the entry of a character in it, and the sets. -/
structure UnicodeData where
  tolower : ℕ → ℕ
  toupper : ℕ → ℕ
  rangeInfoFor : ℕ → UCS2CanonicalizationRange
  characterSetInfo : ℕ → List ℕ
  ascii : ∀ c, isASCII c = true → tolower c = toASCIILower c ∧ toupper c = toASCIIUpper c
  case_fits : ∀ c < 2 ^ 16, tolower c < 2 ^ 16 ∧ toupper c < 2 ^ 16
  mem_set : ∀ c, (rangeInfoFor c).type = .set → c ∈ characterSetInfo (rangeInfoFor c).value
  rangeLo_fits : ∀ c, (rangeInfoFor c).type = .rangeLo → c + (rangeInfoFor c).value < 2 ^ 16
  rangeHi_fits : ∀ c, (rangeInfoFor c).type = .rangeHi → (rangeInfoFor c).value ≤ c

variable (D : UnicodeData)

def getCanonicalPair (info : UCS2CanonicalizationRange) (ch : ℕ) : ℕ :=
  match info.type with
  | .rangeLo => (ch + info.value) % 2 ^ 16
  | .rangeHi => (ch + 2 ^ 16 - info.value) % 2 ^ 16
  | .alternatingAligned => ch ^^^ 1
  | .alternatingUnaligned => ((ch - 1) ^^^ 1) + 1
  -- not reached
  | .unique | .set => ch

def areCanonicallyEquivalent (a b : ℕ) : Bool :=
  let info := D.rangeInfoFor a
  match info.type with
  | .unique => a = b
  | .set => b ∈ D.characterSetInfo info.value
  | .rangeLo => a = b || a + info.value = b
  | .rangeHi => a = b || (a : ℤ) - info.value = b
  | .alternatingAligned => a ||| 1 = b ||| 1
  | .alternatingUnaligned => (a - 1) ||| 1 = (b - 1) ||| 1

/-! ### Character classes -/

structure CharacterRange where
  first : ℕ
  last : ℕ

structure CharacterClass where
  asciiMatches : List ℕ := []
  ranges : List CharacterRange := []
  matchesUnicode : List ℕ := []
  rangesUnicode : List CharacterRange := []

/-- The binary chop of `addSorted`: the place of a new character, `none` if it is there. -/
def chop (characters : List ℕ) (ch : ℕ) (pos range : ℕ) : Option ℕ :=
  if range = 0 then some pos
  else
    let index := range / 2
    let entry := characters.getD (pos + index) 0
    if entry = ch then none
    else if entry > ch then chop characters ch pos index
    else chop characters ch (pos + (index + 1)) (range - (index + 1))
termination_by range

def addSorted (characters : List ℕ) (ch : ℕ) : List ℕ :=
  match chop characters ch 0 characters.length with
  | some pos => characters.insertIdx pos ch
  | none => characters

def putUnicodeIgnoreCase (k : CharacterClass) (ch : ℕ) (info : UCS2CanonicalizationRange) :
    CharacterClass :=
  { k with
    matchesUnicode := match info.type with
      | .set => (D.characterSetInfo info.value).foldl addSorted k.matchesUnicode
      | _ => addSorted (addSorted k.matchesUnicode ch) (getCanonicalPair info ch) }

def putChar (isCaseInsensitive : Bool) (k : CharacterClass) (ch : ℕ) : CharacterClass :=
  if ch ≤ 0x7F then
    { k with
      asciiMatches :=
        if isCaseInsensitive && isASCIIAlpha ch then
          addSorted (addSorted k.asciiMatches (toASCIIUpper ch)) (toASCIILower ch)
        else addSorted k.asciiMatches ch }
  else if !isCaseInsensitive then { k with matchesUnicode := addSorted k.matchesUnicode ch }
  else
    match (D.rangeInfoFor ch).type with
    | .unique => { k with matchesUnicode := addSorted k.matchesUnicode ch }
    | _ => putUnicodeIgnoreCase D k ch (D.rangeInfoFor ch)

def testCharacterClass (k : CharacterClass) (ch : ℕ) : Bool :=
  let inside (r : CharacterRange) : Bool := r.first ≤ ch && ch ≤ r.last
  if !isASCII ch then ch ∈ k.matchesUnicode || k.rangesUnicode.any inside
  else ch ∈ k.asciiMatches || k.ranges.any inside

/-! ### Literals and back-references -/

inductive ByteTerm where
  | patternCharacter (ch : ℕ)
  | patternCasedCharacter (lo hi : ℕ)
  | characterClass (k : CharacterClass)

/-- `ByteCompiler::atomPatternCharacter` -/
def byteAtomPatternCharacter (ch : ℕ) : ByteTerm :=
  let lo := D.tolower ch
  let hi := D.toupper ch
  if lo ≠ hi then .patternCasedCharacter lo hi else .patternCharacter ch

/-- `YarrPatternConstructor::atomPatternCharacter` and the term that is compiled from it. -/
def atomPatternCharacter (ch : ℕ) : ByteTerm :=
  if isASCII ch then byteAtomPatternCharacter D ch
  else
    match (D.rangeInfoFor ch).type with
    | .unique => byteAtomPatternCharacter D ch
    | _ => .characterClass (putUnicodeIgnoreCase D {} ch (D.rangeInfoFor ch))

def ByteTerm.accepts (ch : ℕ) : ByteTerm → Bool
  | .patternCharacter testChar => testChar = ch
  | .patternCasedCharacter lo hi => lo = ch || hi = ch
  | .characterClass k => testCharacterClass k ch

/-- Whether the input starts with the captured text. -/
def tryConsumeBackReference (captured input : List ℕ) : Bool :=
  decide (captured.length ≤ input.length) && (captured.zip input).all fun (oldCh, ch) =>
    oldCh = ch ||
      if isASCII oldCh || isASCII ch then toASCIIUpper oldCh = toASCIIUpper ch
      else areCanonicallyEquivalent D oldCh ch

/-! ### The accepted characters -/

variable {D} {characters set : List ℕ} {ch x c d : ℕ}

theorem chop_spec {pos range : ℕ} (h : pos+range ≤ characters.length) :
    match chop characters ch pos range with
    | some place => place ≤ characters.length
    | none => ch ∈ characters := by
  fun_induction chop characters ch pos range with
  | case1 pos => exact h
  | case2 pos range hr index entry heq =>
    have hlt : pos+index < characters.length := by omega
    have he : entry = characters[pos+index] := List.getD_eq_getElem _ _ hlt
    rw [← heq,he]
    exact List.getElem_mem hlt
  | case3 pos range hr index entry hne hlt ih
  | case4 pos range hr index entry hne hlt ih => exact ih (by omega)

theorem mem_addSorted : x ∈ addSorted characters ch ↔ x = ch ∨ x ∈ characters := by
  have hs := @chop_spec characters ch 0 characters.length (by simp)
  unfold addSorted
  split at hs
  next place hp => exact List.mem_insertIdx hs
  next => exact (or_iff_right_of_imp fun h => h ▸ hs).symm

theorem mem_foldl_addSorted : x ∈ set.foldl addSorted characters ↔ x ∈ set ∨ x ∈ characters := by
  induction set generalizing characters with
  | nil => simp
  | cons ch set ih =>
    rw [List.foldl_cons,ih,mem_addSorted,List.mem_cons]
    tauto

theorem or_one_eq_iff : c ||| 1 = d ||| 1 ↔ d = c ^^^ 1 ∨ d = c := by
  have hb : ∀ n : ℕ, (n ||| 1) / 2 = n / 2 ∧ (n ^^^ 1) / 2 = n / 2 ∧ (n ||| 1) % 2 = 1 ∧
      (n ^^^ 1) % 2 = (n+1) % 2 := by
    intro n
    simp [Nat.or_div_two,Nat.xor_div_two]
  have hc := hb c
  have hd := hb d
  omega

/-- A class that is built from the table has the characters that the table makes equivalent. -/
theorem mem_putUnicodeIgnoreCase (hc : 0x7F < c) (hlt : c < 2^16) (hd : 0x7F < d)
    (h : (D.rangeInfoFor c).type ≠ .unique) :
    d ∈ (putUnicodeIgnoreCase D {} c (D.rangeInfoFor c)).matchesUnicode ↔
      c = d ∨ areCanonicallyEquivalent D c d := by
  unfold putUnicodeIgnoreCase areCanonicallyEquivalent getCanonicalPair
  cases ht : (D.rangeInfoFor c).type with
  | unique => exact absurd ht h
  | set =>
    have hm := D.mem_set c ht
    simp only [ht,mem_foldl_addSorted,List.not_mem_nil,or_false,decide_eq_true_eq]
    exact (or_iff_right_of_imp fun heq => heq ▸ hm).symm
  | rangeLo =>
    have hf := D.rangeLo_fits c ht
    simp [ht,mem_addSorted]
    omega
  | rangeHi =>
    have hf := D.rangeHi_fits c ht
    simp [ht,mem_addSorted]
    omega
  | alternatingAligned | alternatingUnaligned =>
    simp [ht,mem_addSorted,or_one_eq_iff]
    omega

theorem toASCIIUpper_eq_iff :
    toASCIIUpper c = toASCIIUpper d ↔ d = toASCIIUpper c ∨ d = toASCIILower c := by
  unfold toASCIIUpper toASCIILower isASCIILower isASCIIUpper
  simp only [Bool.and_eq_true,decide_eq_true_eq]
  split_ifs <;> omega

theorem isASCII_of_toASCIIUpper_eq (h : toASCIIUpper c = toASCIIUpper d) :
    isASCII c = isASCII d := by
  unfold toASCIIUpper isASCIILower at h
  simp only [Bool.and_eq_true,decide_eq_true_eq] at h
  unfold isASCII
  rw [decide_eq_decide]
  split_ifs at h <;> omega

theorem toASCII_of_not_alpha (h : isASCIIAlpha c = false) :
    toASCIIUpper c = c ∧ toASCIILower c = c := by
  rw [isASCIIAlpha,Bool.or_eq_false_iff] at h
  simp [toASCIIUpper,toASCIILower,h]

theorem test_putChar_of_isASCII (h : isASCII c) :
    testCharacterClass (putChar D true {} c) d ↔ toASCIIUpper c = toASCIIUpper d := by
  have hle := of_decide_eq_true h
  have hm : d ∈ (putChar D true {} c).asciiMatches ↔ d = toASCIILower c ∨ d = toASCIIUpper c := by
    rw [putChar,if_pos hle]
    cases ha : isASCIIAlpha c with
    | true => simp [mem_addSorted]
    | false => simp [mem_addSorted,toASCII_of_not_alpha ha]
  cases hd : isASCII d with
  | true =>
    rw [toASCIIUpper_eq_iff,or_comm,← hm]
    simp [testCharacterClass,hd,putChar,hle]
  | false =>
    have hne := mt (@isASCII_of_toASCIIUpper_eq c d) (by simp [h,hd])
    simp [testCharacterClass,hd,putChar,hle,hne]

theorem test_putChar_of_not_isASCII (h : isASCII c = false) (hlt : c < 2^16) :
    testCharacterClass (putChar D true {} c) d ↔
      isASCII d = false ∧ (c = d ∨ areCanonicallyEquivalent D c d) := by
  have hc := of_decide_eq_false h
  simp only [putChar,hc,if_false,Bool.not_true,Bool.false_eq_true]
  split
  next ht =>
    simp [testCharacterClass,mem_addSorted,areCanonicallyEquivalent,ht,eq_comm (a := c)]
  next ht =>
    cases hd : isASCII d with
    | true => simp [testCharacterClass,hd,putUnicodeIgnoreCase]
    | false =>
      rw [← mem_putUnicodeIgnoreCase (not_le.mp hc) hlt (not_le.mp (of_decide_eq_false hd)) ht]
      simp [testCharacterClass,hd,putUnicodeIgnoreCase]
      exact decide_eq_true_iff

theorem test_putChar_eq (hlt : c < 2^16) :
    testCharacterClass (putChar D true {} c) d = tryConsumeBackReference D [c] [d] := by
  rw [Bool.eq_iff_iff]
  cases hc : isASCII c with
  | true =>
    rw [test_putChar_of_isASCII hc]
    simp [tryConsumeBackReference,hc]
    exact congrArg _
  | false =>
    rw [test_putChar_of_not_isASCII hc hlt]
    cases hd : isASCII d with
    | true =>
      have hne := mt (@isASCII_of_toASCIIUpper_eq c d) (by simp [hc,hd])
      have hne' : c ≠ d := fun heq => hne (congrArg _ heq)
      simp [tryConsumeBackReference,hd,hne,hne']
    | false => simp [tryConsumeBackReference,hc,hd]

theorem accepts_eq_test (hlt : c < 2 ^ 16) (h : isASCII c = true ∨
      (D.rangeInfoFor c).type ≠ .unique ∨ D.tolower c = D.toupper c) :
    (atomPatternCharacter D c).accepts d = testCharacterClass (putChar D true {} c) d := by
  cases hc : isASCII c with
  | true =>
    obtain ⟨hl,hu⟩ := D.ascii c hc
    rw [Bool.eq_iff_iff,test_putChar_of_isASCII hc,toASCIIUpper_eq_iff,atomPatternCharacter,
      if_pos hc,byteAtomPatternCharacter,hl,hu]
    by_cases heq : toASCIILower c = toASCIIUpper c
    · have hs : toASCIIUpper c = c := by
        have hs := (@toASCIIUpper_eq_iff c c).mp rfl
        rw [heq,or_self] at hs
        exact hs.symm
      rw [heq,hs]
      simp [ByteTerm.accepts]
      omega
    · simp [heq,ByteTerm.accepts]
      omega
  | false =>
    cases ht : (D.rangeInfoFor c).type with
    | unique =>
      have heq : D.tolower c = D.toupper c := by simpa [hc,ht] using h
      rw [Bool.eq_iff_iff,test_putChar_of_not_isASCII hc hlt]
      simp [atomPatternCharacter,ht,byteAtomPatternCharacter,heq,ByteTerm.accepts,
        areCanonicallyEquivalent]
      rintro rfl
      exact hc
    | _ => simp [atomPatternCharacter,hc,ht,putChar,of_decide_eq_false hc,ByteTerm.accepts]

/-- A literal whose two cases differ accepts both of them. -/
theorem accepts_cases (hc : isASCII c = false) (ht : (D.rangeInfoFor c).type = .unique)
    (hne : D.tolower c ≠ D.toupper c) :
    (atomPatternCharacter D c).accepts (D.tolower c) ∧
      (atomPatternCharacter D c).accepts (D.toupper c) := by
  simp [atomPatternCharacter, hc, ht, byteAtomPatternCharacter, hne, ByteTerm.accepts]

theorem eq_of_test_putChar (hc : isASCII c = false) (hlt : c < 2 ^ 16)
    (ht : (D.rangeInfoFor c).type = .unique)
    (h : testCharacterClass (putChar D true {} c) d = true) : c = d := by
  simpa [areCanonicallyEquivalent, ht] using ((test_putChar_of_not_isASCII hc hlt).mp h).2

/-- The three ways to compare agree on a character exactly if the table does not have it alone or it
has no other case. -/
theorem accepts_eq_iff (hlt : c < 2 ^ 16) :
    (∀ d < 2 ^ 16,
      (atomPatternCharacter D c).accepts d = testCharacterClass (putChar D true {} c) d ∧
        testCharacterClass (putChar D true {} c) d = tryConsumeBackReference D [c] [d]) ↔
    isASCII c = true ∨ (D.rangeInfoFor c).type ≠ .unique ∨ D.tolower c = D.toupper c := by
  refine ⟨fun h => ?_, fun h d _ => ⟨accepts_eq_test hlt h, test_putChar_eq hlt⟩⟩
  by_contra hcond
  simp only [not_or, Bool.not_eq_true, not_not] at hcond
  obtain ⟨hc, ht, hne⟩ := hcond
  obtain ⟨hl, hu⟩ := D.case_fits c hlt
  obtain ⟨hlo, hhi⟩ := accepts_cases hc ht hne
  -- the class has `c` alone, so that both cases would be `c`
  have hlo' := eq_of_test_putChar hc hlt ht ((h _ hl).1 ▸ hlo)
  have hhi' := eq_of_test_putChar hc hlt ht ((h _ hu).1 ▸ hhi)
  exact hne (hlo'.symm.trans hhi')

/-- Data in which U+00C9 and U+00E9 are a pair, as they are for the table, and U+0131 has the upper
case `I` but stands alone in the table. -/
def dotlessI : UnicodeData where
  tolower c := if c = 0xC9 then 0xE9 else toASCIILower c
  toupper c := if c = 0xE9 then 0xC9 else if c = 0x131 then 0x49 else toASCIIUpper c
  rangeInfoFor c :=
    if c = 0xC9 then ⟨.rangeLo, 0x20⟩ else if c = 0xE9 then ⟨.rangeHi, 0x20⟩ else ⟨.unique, 0⟩
  characterSetInfo _ := []
  ascii c hc := by
    have hle := of_decide_eq_true hc
    rw [if_neg (by omega), if_neg (by omega), if_neg (by omega)]
    exact ⟨rfl, rfl⟩
  case_fits c hc := by
    simp only [toASCIILower, toASCIIUpper, isASCIILower, isASCIIUpper, Bool.and_eq_true,
      decide_eq_true_eq]
    split_ifs <;> omega
  mem_set c := by split_ifs <;> nofun
  rangeLo_fits c := by split_ifs <;> simp_all
  rangeHi_fits c := by split_ifs <;> simp_all

theorem accepts_eq_iff_eAcute :
    (∀ d < 2 ^ 16, (atomPatternCharacter dotlessI 0xE9).accepts d =
        testCharacterClass (putChar dotlessI true {} 0xE9) d ∧
      testCharacterClass (putChar dotlessI true {} 0xE9) d =
        tryConsumeBackReference dotlessI [0xE9] [d]) ∧
    (atomPatternCharacter dotlessI 0xE9).accepts 0xC9 = true ∧
    (atomPatternCharacter dotlessI 0xE9).accepts 0x131 = false := by
  refine ⟨(accepts_eq_iff (by decide)).mpr (.inr (.inl ?_)), by decide +kernel, by decide +kernel⟩
  simp [dotlessI]

/-- The literal U+0131 accepts `I`, the class does not. -/
theorem literal_accepts_more :
    (atomPatternCharacter dotlessI 0x131).accepts 0x49 = true ∧
      testCharacterClass (putChar dotlessI true {} 0x131) 0x49 = false := by
  decide +kernel

end QPlusWeb.Yarr
