import QPlusWeb.HashTableProbing
import Mathlib.Algebra.Order.Group.Multiset
import Mathlib.Tactic.Abel

/-!
# What a table contains

The contents of a table are the values in its live buckets, as a multiset; the
keys of a sound table make it a set. Writing one bucket exchanges one value,
and the counts of live and deleted buckets leave an empty one as long as they
are below the size. Rehashing moves the contents of a table into a new one and
knows where the entry it was asked about has gone.
-/
namespace QPlusWeb.WTF
open ProbeSequence List

variable {Key Value : Type}

namespace HashTable

variable (T : HashTraits Key Value)

def isLive (value : Value) : Bool := !isEmptyOrDeletedBucket T value

/-- Deleted, and not empty at the same time. -/
def isTombstone (value : Value) : Bool :=
  !isEmptyBucket T value && isDeletedBucket T value

def entries (table : List Value) : List Value := table.filter (isLive T)

def contents (table : List Value) : Multiset Value := entries T table

def tombstones (table : List Value) : ℕ := table.countP (isTombstone T)

variable {T : HashTraits Key Value} {table : List Value} {m p : ℕ} {value : Value}

theorem isLive_iff (value : Value) : isLive T value ↔ T.IsKey (T.extract value) := by
  simp [isLive,isEmptyOrDeletedBucket,isEmptyBucket,isDeletedBucket,HashTraits.IsKey]

theorem liveAt_iff (p : ℕ) : LiveAt T table p ↔ p < table.length ∧ isLive T (bucket T table p) := by
  rw [isLive_iff]
  rfl

theorem mem_contents :
    value ∈ contents T table ↔ ∃ p, LiveAt T table p ∧ bucket T table p = value := by
  unfold contents entries
  rw [Multiset.mem_coe,mem_filter]
  constructor
  · intro h
    obtain ⟨p,hp,he⟩ := getElem_of_mem h.1
    have hb : bucket T table p = value := by simp [bucket,hp,he]
    exact ⟨p,(liveAt_iff p).mpr ⟨hp,by rw [hb]; exact h.2⟩,hb⟩
  · intro h
    obtain ⟨p,hp,he⟩ := h
    rw [liveAt_iff,he] at hp
    have hg : table[p]? = some value := by
      simp only [bucket,getD_eq_getElem?_getD,getElem?_eq_getElem hp.1,Option.getD_some] at he
      rw [getElem?_eq_getElem hp.1,he]
    exact ⟨mem_of_getElem? hg,hp.2⟩

theorem bucket_set_self (hp : p < table.length) (value : Value) :
    bucket T (table.set p value) p = value := by
  simp [bucket,hp]

theorem bucket_set_of_ne {p q : ℕ} (h : q ≠ p) (value : Value) :
    bucket T (table.set p value) q = bucket T table q := by
  simp [bucket,getElem?_set_ne h.symm]

/-- The part of a value in the contents. -/
def share (T : HashTraits Key Value) (value : Value) : Multiset Value :=
  if isLive T value then {value} else 0

theorem contents_cons (value : Value) (table : List Value) :
    contents T (value::table) = share T value+contents T table := by
  unfold contents entries share
  rw [filter_cons]
  split
  · rfl
  · rw [zero_add]

theorem contents_append (s t : List Value) : contents T (s++t) = contents T s+contents T t := by
  simp [contents,entries]

theorem table_split (hp : p < table.length) :
    table = table.take p++bucket T table p::table.drop (p+1) := by
  have hb : bucket T table p = table[p] := by simp [bucket,hp]
  rw [hb,← drop_eq_getElem_cons hp,take_append_drop]

section
variable (hp : p < table.length) (value : Value)
include hp

theorem set_split : table.set p value = table.take p++value::table.drop (p+1) :=
  set_eq_take_append_cons_drop.trans (if_pos hp)

theorem contents_set : contents T (table.set p value)+share T (bucket T table p) =
      contents T table+share T value := by
  have ht : contents T table = contents T (table.take p) +
      (share T (bucket T table p)+contents T (table.drop (p+1))) := by
    rw [← contents_cons,← contents_append,← table_split hp]
  rw [set_split hp,contents_append,contents_cons,ht]
  abel

theorem tombstones_set :
    tombstones T (table.set p value)+(if isTombstone T (bucket T table p) then 1 else 0) =
      tombstones T table+(if isTombstone T value then 1 else 0) := by
  have ht : tombstones T table = (table.take p).countP (isTombstone T) +
      ((table.drop (p+1)).countP (isTombstone T) +
        (if isTombstone T (bucket T table p) then 1 else 0)) := by
    unfold tombstones
    conv_lhs => rw [table_split (T := T) hp,countP_append,countP_cons]
  rw [set_split hp,ht]
  unfold tombstones
  rw [countP_append,countP_cons]
  omega

end

theorem card_contents (table : List Value) :
    Multiset.card (contents T table) = table.countP (isLive T) := by
  simp [contents,entries,countP_eq_length_filter]

/-- Fewer live and deleted buckets than buckets leave an empty one. -/
theorem hasEmpty_of_lt (h : Multiset.card (contents T table)+tombstones T table < table.length) :
    HasEmpty T table := by
  by_contra hn
  have hnot : ∀ v ∈ table, ¬isEmptyBucket T v := by
    intro v hv he
    obtain ⟨p,hp,hg⟩ := getElem_of_mem hv
    apply hn
    refine ⟨p,hp,?_⟩
    simpa [EmptyAt,keyAt,bucket,hp,hg,isEmptyBucket] using he
  have hc : table.countP (fun v => ¬isLive T v) = tombstones T table := by
    apply countP_congr
    intro v hv
    have hempty := hnot v hv
    simp [isLive,isTombstone,isEmptyOrDeletedBucket,hempty]
  have hl := length_eq_countP_add_countP (isLive T) (l := table)
  rw [card_contents] at h
  omega

theorem isTombstone_of_deletedAt (h : DeletedAt T table p) : isTombstone T (bucket T table p) := by
  have he : T.isEmptyValue (keyAt T table p) = false := by simpa [EmptyAt] using h.1
  have hd := h.2
  unfold keyAt at he hd
  simp [isTombstone,isEmptyBucket,isDeletedBucket,he,hd]

theorem isTombstone_of_emptyAt (h : EmptyAt T table p) :
    isTombstone T (bucket T table p) = false := by
  unfold EmptyAt keyAt at h
  simp [isTombstone,isEmptyBucket,h]

theorem isTombstone_of_isKey (h : T.IsKey (T.extract value)) : isTombstone T value = false := by
  simp [isTombstone,isDeletedBucket,h.2]

theorem tombstones_pos (hp : p < table.length) (h : DeletedAt T table p) :
    0 < tombstones T table := by
  unfold tombstones
  rw [countP_pos_iff]
  refine ⟨table[p],getElem_mem hp,?_⟩
  have ht := isTombstone_of_deletedAt h
  simpa [bucket,hp] using ht

theorem contents_set_of_not_live (hp : p < table.length) (hl : ¬LiveAt T table p)
    (hk : T.IsKey (T.extract value)) :
    contents T (table.set p value) = value ::ₘ contents T table := by
  have h := contents_set (T := T) hp value
  have hold : isLive T (bucket T table p) = false := by
    by_contra hc
    exact hl ((liveAt_iff p).mpr ⟨hp,by simpa using hc⟩)
  rw [share,share,hold,(isLive_iff value).mpr hk] at h
  simpa [add_comm] using h

theorem contents_set_deletedValue (hT : T.Lawful) (hl : LiveAt T table p) :
    contents T table = bucket T table p ::ₘ contents T (table.set p T.deletedValue) := by
  have h := contents_set (T := T) hl.1 T.deletedValue
  have hd : isLive T T.deletedValue = false := by
    by_contra hc
    have hk := ((isLive_iff (T := T) T.deletedValue).mp (by simpa using hc)).2
    rw [hT.isDeletedValue_deletedValue] at hk
    cases hk
  rw [share,share,hd,((liveAt_iff p).mp hl).2] at h
  simpa [add_comm] using h.symm

/-- No two of the values have equal keys. -/
abbrev Differ (T : HashTraits Key Value) (L : List Value) : Prop :=
  L.Pairwise fun a b => ¬ T.equal (T.extract a) (T.extract b) = true

theorem Sound.differ (hS : Sound T table m) : Differ T (entries T table) := by
  unfold Differ entries
  rw [pairwise_filter,pairwise_iff_getElem]
  intro i j hi hj hij hl hlivej he
  have hb : ∀ k (hk : k < table.length), bucket T table k = table[k] :=
    fun k hk => by simp [bucket,hk]
  have hij' := hS.unique i j ((liveAt_iff i).mpr ⟨hi,by rw [hb i hi]; exact hl⟩)
    ((liveAt_iff j).mpr ⟨hj,by rw [hb j hj]; exact hlivej⟩)
    (by unfold keyAt; rw [hb i hi,hb j hj]; exact he)
  omega

/-! ### Rehashing -/

theorem reinsert_spec (hT : T.Lawful) (hS : Sound T table m) (hc : tombstones T table = 0)
    (hroom : Multiset.card (contents T table) < 2^m)
    (hk : T.IsKey (T.extract value)) (ha : ∀ q, ¬Holds T table (T.extract value) q) :
    ∃ p, reinsert T table (2^m-1) value = some (table.set p value,p) ∧
      Free T table m (T.hash (T.extract value)) p ∧ EmptyAt T table p := by
  have hempty : HasEmpty T table := hasEmpty_of_lt (by rw [hc,hS.length_eq]; omega)
  obtain ⟨r,hr,hs⟩ := hS.probeForWriting_spec hT hempty (hT.asks hk)
  simp only [reinsert,lookupForWriting,hr]
  cases hs with
  | found hp => exact absurd hp (ha _)
  | empty _ hf he => exact ⟨_,rfl,hf,he⟩
  | deleted _ hf hd =>
    have := tombstones_pos hf.lt hd
    omega

/-- The entry with value `value` is where the pointer says. -/
def Tracks (T : HashTraits Key Value) (table : List Value) (entry : Option ℕ) (value : Value) :
    Prop :=
  ∃ p, entry = some p ∧ LiveAt T table p ∧ bucket T table p = value

theorem Tracks.set {entry : Option ℕ} {value value' : Value}
    (h : Tracks T table entry value) (hp : ¬LiveAt T table p) :
    Tracks T (table.set p value') entry value := by
  obtain ⟨q,hq,hl,hb⟩ := h
  have hne : q ≠ p := fun he => hp (he ▸ hl)
  exact ⟨q,hq,(liveAt_set_of_ne hne _).mpr hl,by rw [bucket_set_of_ne hne,hb]⟩

/-- The pointer is already right, or the loop has yet to come to its entry. -/
def WillTrack (T : HashTraits Key Value) (table : List Value) (entry newEntry : Option ℕ)
    (i : ℕ) (rest : List Value) (value : Value) : Prop :=
  (∃ k, entry = some (i + k) ∧ rest[k]? = some value ∧ isLive T value = true) ∨
    ((∀ k, entry ≠ some (i + k)) ∧ Tracks T table newEntry value)

/-- The invariant of the loop: the new table holds what was moved so far, and
nothing that is still to come. -/
theorem rehashLoop_spec (hT : T.Lawful) (entry : Option ℕ) (rest : List Value) (i : ℕ)
    (newEntry : Option ℕ) (hS : Sound T table m) (hclean : tombstones T table = 0)
    (hr : Multiset.card (contents T table+contents T rest) < 2^m)
    (hd : Differ T (entries T rest))
    (habs : ∀ v ∈ entries T rest, ∀ q, ¬Holds T table (T.extract v) q) :
    ∃ table' newEntry', rehashLoop T (2^m-1) entry i rest table newEntry = some (table',newEntry') ∧
      Sound T table' m ∧ tombstones T table' = 0 ∧
      contents T table' = contents T table+contents T rest ∧
      ∀ value, WillTrack T table entry newEntry i rest value → Tracks T table' newEntry' value := by
  induction rest generalizing table i newEntry with
  | nil =>
    refine ⟨table,newEntry,rfl,hS,hclean,by simp [contents,entries],?_⟩
    intro value hval
    rcases hval with ⟨k,-,hk,-⟩ | ⟨-,h⟩
    · simp at hk
    · exact h
  | cons v rest ih =>
    by_cases hv : isLive T v
    · have hkey := (isLive_iff v).mp hv
      have hskip : isEmptyOrDeletedBucket T v = false := by simpa [isLive] using hv
      have hents : entries T (v::rest) = v::entries T rest := by simp [entries,hv]
      rw [hents] at hd habs
      have hs : contents T (v::rest) = v ::ₘ contents T rest := by
        rw [contents_cons,share,if_pos hv,Multiset.singleton_add]
      rw [hs] at hr ⊢
      have ha := habs v mem_cons_self
      obtain ⟨p,hp,hf,hempty⟩ := reinsert_spec hT hS hclean (by simp at hr; omega) hkey ha
      have hS' := hS.set_free hT hkey ha hf
      have hcont := contents_set_of_not_live hf.lt hf.not_liveAt hkey
      have hclean' : tombstones T (table.set p v) = 0 := by
        have h := tombstones_set (T := T) hf.lt v
        simpa [hclean,isTombstone_of_emptyAt hempty,isTombstone_of_isKey hkey] using h
      have habs' : ∀ w ∈ entries T rest, ∀ q, ¬Holds T (table.set p v) (T.extract w) q := by
        intro w hw q hq
        by_cases hqp : q = p
        · subst hqp
          have he := hq.2
          rw [keyAt_set_self hf.lt] at he
          exact (pairwise_cons.mp hd).1 w hw he
        · apply habs w (mem_cons_of_mem v hw) q
          exact ⟨(liveAt_set_of_ne hqp v).mp hq.1,by rw [← keyAt_set_of_ne hqp v]; exact hq.2⟩
      obtain ⟨table',newEntry',hrun,hS'',hclean'',hall,ht⟩ := ih (i+1)
        (if some i = entry then some p else newEntry) hS' hclean'
        (by rw [hcont,Multiset.cons_add,← Multiset.add_cons]; exact hr)
        (pairwise_cons.mp hd).2 habs'
      refine ⟨table',newEntry',?_,hS'',hclean'',?_,?_⟩
      · simp only [rehashLoop,hskip,hp,Option.bind_some]
        exact hrun
      · rw [hall,hcont,Multiset.cons_add,Multiset.add_cons]
      · intro value hval
        apply ht
        rcases hval with ⟨k,hk,hg,hl⟩ | ⟨hno,h⟩
        · cases k with
          | zero =>
            obtain rfl : v = value := by simpa using hg
            refine Or.inr ⟨fun k hc => ?_,?_⟩
            · rw [hk] at hc
              have := Option.some.inj hc
              omega
            · rw [if_pos (by rw [hk]; rfl)]
              exact ⟨p,rfl,(liveAt_iff p).mpr ⟨by simpa using hf.lt,
                by rw [bucket_set_self hf.lt]; exact hv⟩,bucket_set_self hf.lt v⟩
          | succ k => exact Or.inl ⟨k,by rw [hk]; congr 1; omega,by simpa using hg,hl⟩
        · refine Or.inr ⟨fun k hc => hno (k+1) (by rw [hc]; congr 1; omega),?_⟩
          rw [if_neg (fun hc => hno 0 (by rw [← hc]; rfl))]
          exact h.set hf.not_liveAt
    · have hskip : isEmptyOrDeletedBucket T v := by simpa [isLive] using hv
      have hents : entries T (v::rest) = entries T rest := by simp [entries,hv]
      have hs : contents T (v::rest) = contents T rest := by simp [contents,hents]
      rw [hents] at hd habs
      rw [hs] at hr ⊢
      obtain ⟨table',newEntry',hrun,hS',hclean',hall,ht⟩ := ih (i+1) newEntry hS hclean hr hd habs
      refine ⟨table',newEntry',?_,hS',hclean',hall,?_⟩
      · simp only [rehashLoop,hskip,if_true]
        exact hrun
      · intro value hval
        apply ht
        rcases hval with ⟨k,hk,hg,hl⟩ | ⟨hno,h⟩
        · cases k with
          | zero =>
            obtain rfl : v = value := by simpa using hg
            exact absurd hl hv
          | succ k => exact Or.inl ⟨k,by rw [hk]; congr 1; omega,by simpa using hg,hl⟩
        · exact Or.inr ⟨fun k hc => hno (k+1) (by rw [hc]; congr 1; omega),h⟩

end HashTable

end QPlusWeb.WTF
