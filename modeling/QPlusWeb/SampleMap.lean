import Mathlib.Algebra.Order.Ring.Rat
import Mathlib.Data.List.Induction
import Mathlib.Data.List.Nodup
import Mathlib.Data.List.TakeWhile

/-!
# The samples of a media source

`SampleMap` keeps the samples of a track in the order of their presentation and in that of their
decoding.  Times are rational numbers.
-/

namespace QPlusWeb.MediaSource

structure MediaSample where
  presentationTime : ℚ
  decodeTime : ℚ
  duration : ℚ
  flags : ℕ
  deriving DecidableEq

namespace MediaSample

def isSync : ℕ := 1

def presentationEndTime (s : MediaSample) : ℚ := s.presentationTime + s.duration

def sampleIsRandomAccess (s : MediaSample) : Bool := s.flags = isSync

end MediaSample

/-- The samples from an iterator to the end, or from a reverse iterator back to the first. -/
abbrev Iterator := List MediaSample

/-- The insertion of `std::map`, which keeps the value of a key that is present. -/
def insertSample (key : MediaSample → ℚ) (sample : MediaSample) : Iterator → Iterator
  | [] => [sample]
  | s :: samples =>
    if key sample < key s then sample :: s :: samples
    else if key s < key sample then s :: insertSample key sample samples
    else s :: samples

structure SampleMap where
  presentationSamples : Iterator := []
  decodeSamples : Iterator := []

open MediaSample

namespace SampleMap

def addSample (m : SampleMap) (sample : MediaSample) : SampleMap :=
  ⟨insertSample presentationTime sample m.presentationSamples,
    insertSample decodeTime sample m.decodeSamples⟩

variable (m : SampleMap) (time : ℚ)

/-- `std::lower_bound` and the first part of `std::equal_range`: the end of the samples that the
comparator puts before the time. -/
def lowerBound (less : MediaSample → Bool) (samples : Iterator) : Iterator :=
  samples.dropWhile less

def findSampleAfterPresentationTime : Iterator :=
  lowerBound (·.presentationEndTime ≤ time) m.presentationSamples

def findSampleContainingPresentationTime : Iterator :=
  lowerBound (·.presentationEndTime ≤ time) m.presentationSamples

def reverseFindSampleBeforePresentationTime : Iterator :=
  lowerBound (·.presentationTime > time) m.presentationSamples.reverse

def reverseFindSampleContainingPresentationTime : Iterator :=
  lowerBound (·.presentationTime > time) m.presentationSamples.reverse

def findSampleWithDecodeTime : Iterator := m.decodeSamples.dropWhile (·.decodeTime ≠ time)

def reverseFindSampleWithDecodeTime : Iterator :=
  match m.findSampleWithDecodeTime time with
  | [] => []
  | _ :: _ => m.decodeSamples.reverse.dropWhile (·.decodeTime ≠ time)

def findSyncSamplePriorToDecodeIterator (iterator : Iterator) : Iterator :=
  iterator.dropWhile (!·.sampleIsRandomAccess)

/-- The search for a sync sample from the current one on; `beyond` is the test of the threshold. -/
def findSyncSample (current : Iterator) (decodeIterator : MediaSample → Iterator)
    (beyond : MediaSample → Bool) : Iterator :=
  match current with
  | [] => []
  | sample :: _ =>
    match decodeIterator sample with
    | [] => []
    | found :: rest => if beyond found then [] else found :: rest

/-- An infinite threshold is none. -/
def findSyncSamplePriorToPresentationTime (threshold : Option ℚ) : Iterator :=
  findSyncSample (m.reverseFindSampleBeforePresentationTime time)
    (fun sample => findSyncSamplePriorToDecodeIterator
      (m.reverseFindSampleWithDecodeTime sample.decodeTime))
    fun found => threshold.any (found.presentationTime < time - ·)

def findSyncSampleAfterPresentationTime (threshold : Option ℚ) : Iterator :=
  findSyncSample (m.findSampleAfterPresentationTime time)
    (fun sample =>
      (m.findSampleWithDecodeTime sample.decodeTime).dropWhile (!·.sampleIsRandomAccess))
    fun found => threshold.any (found.presentationTime > time + ·)

end SampleMap

/-! ### Sorted lists of samples -/

variable {key : MediaSample → ℚ} {samples l : Iterator} {s c sample : MediaSample}

abbrev Sorted (key : MediaSample → ℚ) (samples : Iterator) : Prop :=
  samples.Pairwise (key · < key ·)

/-- `s` is the sample with the least key of those with the property. -/
def IsFirst (key : MediaSample → ℚ) (samples : Iterator) (p : MediaSample → Prop)
    (s : MediaSample) : Prop :=
  s ∈ samples ∧ p s ∧ ∀ s' ∈ samples, p s' → key s ≤ key s'

theorem head?_dropWhile_iff (h : Sorted key l) (less : MediaSample → Bool) :
    (l.dropWhile less).head? = some s ↔ IsFirst key l (¬less ·) s := by
  unfold IsFirst
  induction l with
  | nil => simp
  | cons a l ih =>
    obtain ⟨hlt,h⟩ := List.pairwise_cons.mp h
    rw [List.dropWhile_cons]
    grind

theorem mem_dropWhile_iff (h : Sorted key l) (hc : c ∈ l) :
    s ∈ l.dropWhile (key · ≠ key c) ↔ s ∈ l ∧ key c ≤ key s := by
  induction l with
  | nil => nomatch hc
  | cons a l ih =>
    obtain ⟨hlt,h⟩ := List.pairwise_cons.mp h
    rw [List.dropWhile_cons]
    grind

theorem insertSample_spec (sample : MediaSample) (h : Sorted key l) :
    Sorted key (insertSample key sample l) ∧ ∀ s, s ∈ insertSample key sample l ↔
      s ∈ l ∨ (s = sample ∧ ∀ s' ∈ l, key s' ≠ key sample) := by
  induction l with
  | nil => simp [insertSample]
  | cons a l ih =>
    obtain ⟨hlt, h⟩ := List.pairwise_cons.mp h
    have := ih h
    rw [insertSample]
    split_ifs <;> simp only [Sorted, List.pairwise_cons] <;> grind

/-- The samples in the order in which a map with this key has them. -/
def sortSamples (key : MediaSample → ℚ) (samples : Iterator) : Iterator :=
  samples.foldl (fun l s => insertSample key s l) []

/-- The samples that a map keeps: the first one with each key. -/
def keptSamples (key : MediaSample → ℚ) (samples : Iterator) : Iterator :=
  samples.filter fun s => samples.find? (key · = key s) = some s

theorem mem_keptSamples : s ∈ keptSamples key samples ↔ samples.find? (key · = key s) = some s := by
  rw [keptSamples, List.mem_filter, decide_eq_true_eq]
  exact and_iff_right_of_imp List.mem_of_find?_eq_some

theorem sortSamples_spec (key : MediaSample → ℚ) (samples : Iterator) :
    Sorted key (sortSamples key samples) ∧
      ∀ s, s ∈ sortSamples key samples ↔ s ∈ keptSamples key samples := by
  induction samples using List.reverseRecOn with
  | nil => simp [sortSamples, keptSamples]
  | append_singleton samples sample ih =>
    obtain ⟨hsort, hmem⟩ := ih
    obtain ⟨hsort', hmem'⟩ := insertSample_spec sample hsort
    rw [sortSamples, List.foldl_concat]
    refine ⟨hsort', fun s => (hmem' s).trans ?_⟩
    -- a key that is missing among the kept samples is missing among all
    have hkey : (∀ s' ∈ sortSamples key samples, key s' ≠ key sample) ↔
        samples.find? (key · = key sample) = none := by
      constructor
      · intro hne
        by_contra hfound
        obtain ⟨first, hfirst⟩ := Option.ne_none_iff_exists'.mp hfound
        have heq : key first = key sample := by simpa using List.find?_some hfirst
        exact hne first ((hmem first).mpr (mem_keptSamples.mpr (heq ▸ hfirst))) heq
      · intro hnone s' hs'
        have hs := List.mem_of_find?_eq_some (mem_keptSamples.mp ((hmem s').mp hs'))
        simpa using List.find?_eq_none.mp hnone s' hs
    rw [hmem, mem_keptSamples, mem_keptSamples, List.find?_append, hkey]
    cases hf : samples.find? (key · = key s) with
    | none =>
      simp only [Option.none_or, List.find?_singleton, reduceCtorEq, false_or]
      grind
    | some first =>
      rw [Option.some_or]
      refine or_iff_left_of_imp ?_
      rintro ⟨rfl, hnone⟩
      cases hf.symm.trans hnone

/-- The first sample with a key from that of `c` on that `less` does not drop. -/
theorem head?_dropWhile_dropWhile_iff (h : Sorted key l) (hc : c ∈ l) (less : MediaSample → Bool) :
    ((l.dropWhile (key · ≠ key c)).dropWhile less).head? = some s ↔
      IsFirst key l (fun s => key c ≤ key s ∧ ¬less s) s := by
  rw [head?_dropWhile_iff (h.sublist (List.dropWhile_sublist _))]
  simp only [IsFirst,mem_dropWhile_iff h hc]
  grind

theorem IsFirst.congr {p : MediaSample → Prop} (h : ∀ s, s ∈ l ↔ s ∈ samples) :
    IsFirst key l p s ↔ IsFirst key samples p s := by
  simp [IsFirst,h]

theorem exists_kept (key : MediaSample → ℚ) (hc : c ∈ samples) :
    ∃ first ∈ keptSamples key samples, key first = key c := by
  obtain ⟨first, hfirst⟩ : ∃ first, samples.find? (key · = key c) = some first := by
    rw [← Option.isSome_iff_exists, List.find?_isSome]
    exact ⟨c, hc, decide_eq_true rfl⟩
  have heq : key first = key c := by simpa using List.find?_some hfirst
  exact ⟨first, mem_keptSamples.mpr (heq ▸ hfirst), heq⟩

theorem Sorted.reverse (h : Sorted key l) : Sorted (-key ·) l.reverse :=
  List.pairwise_reverse.mpr (h.imp neg_lt_neg)

namespace SampleMap
variable {m : SampleMap} {samples : Iterator} {s c : MediaSample} {time : ℚ}

theorem foldl_addSample (samples : Iterator) : samples.foldl addSample {} =
    ⟨sortSamples presentationTime samples,sortSamples decodeTime samples⟩ := by
  induction samples using List.reverseRecOn with
  | nil => rfl
  | append_singleton samples sample ih => simp [sortSamples,addSample,ih]

theorem findSyncSample_iff {current : Iterator} {it : MediaSample → Iterator}
    {beyond : MediaSample → Bool} : (findSyncSample current it beyond).head? = some s ↔
      ∃ c, current.head? = some c ∧ (it c).head? = some s ∧ ¬beyond s := by
  unfold findSyncSample
  grind

theorem reverseFindSampleWithDecodeTime_eq (h : Sorted decodeTime m.decodeSamples)
    (hc : c ∈ m.decodeSamples) : m.reverseFindSampleWithDecodeTime c.decodeTime =
      m.decodeSamples.reverse.dropWhile (·.decodeTime ≠ c.decodeTime) := by
  have hm := (mem_dropWhile_iff h hc).mpr ⟨hc,le_refl _⟩
  rw [reverseFindSampleWithDecodeTime,findSampleWithDecodeTime]
  split
  · next hn => nomatch hn ▸ hm
  · rfl

/-- A search from the current sample on, among the samples that are kept, is right if these are the
nearest of all. -/
theorem found_iff {current within found : MediaSample → Prop} {near kept : MediaSample → MediaSample → Prop}
    (hcurrent : ∀ c c', current c → current c' → c = c')
    (hfound : ∀ s, found s ↔ ∃ c, current c ∧ kept c s ∧ within s) :
    (∀ s, found s ↔ ∃ c, current c ∧ near c s ∧ within s) ↔
      ∀ c, current c → ∀ s, within s → (near c s ↔ kept c s) := by
  constructor
  · intro h c hc s hw
    have hiff := (hfound s).symm.trans (h s)
    constructor
    · intro hn
      obtain ⟨c', hc', hk, -⟩ := hiff.mpr ⟨c, hc, hn, hw⟩
      exact hcurrent c' c hc' hc ▸ hk
    · intro hk
      obtain ⟨c', hc', hn, -⟩ := hiff.mp ⟨c, hc, hk, hw⟩
      exact hcurrent c' c hc' hc ▸ hn
  · intro h s
    rw [hfound]
    exact exists_congr fun c => and_congr_right fun hc => and_congr_left fun hw => (h c hc s hw).symm

/-- The samples of a track: their intervals are not empty and do not overlap. -/
structure Track (samples : Iterator) : Prop where
  nodup : samples.Nodup
  duration_pos : ∀ s ∈ samples, 0 < s.duration
  disjoint : ∀ a ∈ samples, ∀ b ∈ samples, a ≠ b →
    a.presentationEndTime ≤ b.presentationTime ∨ b.presentationEndTime ≤ a.presentationTime

section
variable (htrack : Track samples)
include htrack

theorem Track.mem_keptSamples_iff : s ∈ keptSamples presentationTime samples ↔ s ∈ samples := by
  obtain ⟨hn, hpos, hdisj⟩ := htrack
  refine ⟨fun h => List.mem_of_mem_filter h, fun hs => mem_keptSamples.mpr ?_⟩
  obtain ⟨first, hfirst⟩ : ∃ first, samples.find? (·.presentationTime = s.presentationTime) =
      some first := by
    rw [← Option.isSome_iff_exists, List.find?_isSome]
    exact ⟨s, hs, decide_eq_true rfl⟩
  have heq : first.presentationTime = s.presentationTime := by simpa using List.find?_some hfirst
  have hmem := List.mem_of_find?_eq_some hfirst
  rw [hfirst]
  congr
  by_contra hne
  have hlt := lt_add_of_pos_right s.presentationTime (hpos s hs)
  have hlt' := lt_add_of_pos_right first.presentationTime (hpos first hmem)
  have := hdisj first hmem s hs hne
  simp only [presentationEndTime] at this
  grind

theorem Track.after_iff : ((samples.foldl addSample {}).findSampleAfterPresentationTime time).head? =
      some s ↔ IsFirst presentationTime samples (time < ·.presentationEndTime) s := by
  obtain ⟨hsort, hmem⟩ := sortSamples_spec presentationTime samples
  rw [foldl_addSample]
  refine (head?_dropWhile_iff hsort _).trans ((IsFirst.congr fun s => (hmem s).trans
    htrack.mem_keptSamples_iff).trans ?_)
  simp

theorem Track.before_iff :
    ((samples.foldl addSample {}).reverseFindSampleBeforePresentationTime time).head? = some s ↔
      IsFirst (-·.presentationTime) samples (·.presentationTime ≤ time) s := by
  obtain ⟨hsort, hmem⟩ := sortSamples_spec presentationTime samples
  rw [foldl_addSample]
  refine (head?_dropWhile_iff hsort.reverse _).trans ((IsFirst.congr fun s =>
    List.mem_reverse.trans ((hmem s).trans htrack.mem_keptSamples_iff)).trans ?_)
  simp

/-- The search backwards goes on among the samples that the map of decode times has kept. -/
theorem Track.syncPrior_iff (threshold : Option ℚ) :
    ((samples.foldl addSample {}).findSyncSamplePriorToPresentationTime time threshold).head? =
      some s ↔
    ∃ c, IsFirst (-·.presentationTime) samples (·.presentationTime ≤ time) c ∧
      IsFirst (-·.decodeTime) (keptSamples decodeTime samples)
        (fun s => s.decodeTime ≤ c.decodeTime ∧ s.sampleIsRandomAccess) s ∧
      ∀ d ∈ threshold, time - d ≤ s.presentationTime := by
  refine findSyncSample_iff.trans (exists_congr fun c => (and_congr_left' htrack.before_iff).trans
    (and_congr_right fun hc => and_congr ?_ (by cases threshold <;> simp)))
  obtain ⟨hsort, hmem⟩ := sortSamples_spec decodeTime samples
  obtain ⟨first, hfirst, heq⟩ := exists_kept decodeTime hc.1
  have hin := (hmem first).mpr hfirst
  have hp := head?_dropWhile_dropWhile_iff (s := s) hsort.reverse (List.mem_reverse.mpr hin)
    (!·.sampleIsRandomAccess)
  simp only [ne_eq, neg_inj] at hp
  rw [foldl_addSample, ← heq, reverseFindSampleWithDecodeTime_eq hsort hin]
  exact hp.trans ((IsFirst.congr fun s => List.mem_reverse.trans (hmem s)).trans (by simp))

theorem Track.syncAfter_iff (threshold : Option ℚ) :
    ((samples.foldl addSample {}).findSyncSampleAfterPresentationTime time threshold).head? =
      some s ↔
    ∃ c, IsFirst presentationTime samples (time < ·.presentationEndTime) c ∧
      IsFirst decodeTime (keptSamples decodeTime samples)
        (fun s => c.decodeTime ≤ s.decodeTime ∧ s.sampleIsRandomAccess) s ∧
      ∀ d ∈ threshold, s.presentationTime ≤ time + d := by
  refine findSyncSample_iff.trans (exists_congr fun c => (and_congr_left' htrack.after_iff).trans
    (and_congr_right fun hc => and_congr ?_ (by cases threshold <;> simp)))
  obtain ⟨hsort, hmem⟩ := sortSamples_spec decodeTime samples
  obtain ⟨first, hfirst, heq⟩ := exists_kept decodeTime hc.1
  rw [foldl_addSample, ← heq]
  exact (head?_dropWhile_dropWhile_iff hsort ((hmem first).mpr hfirst) _).trans
    ((IsFirst.congr hmem).trans (by simp))

theorem Track.after_eq_none_iff :
    ((samples.foldl addSample {}).findSampleAfterPresentationTime time).head? = none ↔
      ∀ s ∈ samples, s.presentationEndTime ≤ time := by
  obtain ⟨-, hmem⟩ := sortSamples_spec presentationTime samples
  rw [foldl_addSample, List.head?_eq_none_iff]
  refine List.dropWhile_eq_nil_iff.trans ?_
  simp [hmem, htrack.mem_keptSamples_iff]

theorem Track.before_eq_none_iff :
    ((samples.foldl addSample {}).reverseFindSampleBeforePresentationTime time).head? = none ↔
      ∀ s ∈ samples, time < s.presentationTime := by
  obtain ⟨-, hmem⟩ := sortSamples_spec presentationTime samples
  rw [foldl_addSample, List.head?_eq_none_iff]
  refine List.dropWhile_eq_nil_iff.trans ?_
  simp [hmem, htrack.mem_keptSamples_iff]

end

/-- The sample after a time is the first that ends after it.  The searches for the sample that contains
a time are right if there is one, and otherwise only behind or before all samples.  The searches for a
sync sample find the nearest in decode order of those that came first with their decode times, and so
they are right if within the threshold these are the nearest of all. -/
theorem find_samples_iff (htrack : Track samples) (time : ℚ) (threshold : Option ℚ) :
    let m : SampleMap := samples.foldl addSample {}
    let contains (s : MediaSample) := s.presentationTime ≤ time ∧ time < s.presentationEndTime
    let prior (c s : MediaSample) := s.decodeTime ≤ c.decodeTime ∧ s.sampleIsRandomAccess = true
    let after (c s : MediaSample) := c.decodeTime ≤ s.decodeTime ∧ s.sampleIsRandomAccess = true
    (∀ s, (m.findSampleAfterPresentationTime time).head? = some s ↔
      IsFirst presentationTime samples (time < ·.presentationEndTime) s) ∧
    ((∀ s, (m.findSampleContainingPresentationTime time).head? = some s ↔
        s ∈ samples ∧ contains s) ↔
      (∃ s ∈ samples, contains s) ∨ ∀ s ∈ samples, s.presentationEndTime ≤ time) ∧
    ((∀ s, (m.reverseFindSampleContainingPresentationTime time).head? = some s ↔
        s ∈ samples ∧ contains s) ↔
      (∃ s ∈ samples, contains s) ∨ ∀ s ∈ samples, time < s.presentationTime) ∧
    ((∀ s, (m.findSyncSamplePriorToPresentationTime time threshold).head? = some s ↔
        ∃ c, IsFirst (-·.presentationTime) samples (·.presentationTime ≤ time) c ∧
          IsFirst (-·.decodeTime) samples (prior c) s ∧
          ∀ d ∈ threshold, time - d ≤ s.presentationTime) ↔
      ∀ c, IsFirst (-·.presentationTime) samples (·.presentationTime ≤ time) c → ∀ s,
        (∀ d ∈ threshold, time - d ≤ s.presentationTime) →
        (IsFirst (-·.decodeTime) samples (prior c) s ↔
          IsFirst (-·.decodeTime) (keptSamples decodeTime samples) (prior c) s)) ∧
    ((∀ s, (m.findSyncSampleAfterPresentationTime time threshold).head? = some s ↔
        ∃ c, IsFirst presentationTime samples (time < ·.presentationEndTime) c ∧
          IsFirst decodeTime samples (after c) s ∧
          ∀ d ∈ threshold, s.presentationTime ≤ time + d) ↔
      ∀ c, IsFirst presentationTime samples (time < ·.presentationEndTime) c → ∀ s,
        (∀ d ∈ threshold, s.presentationTime ≤ time + d) →
        (IsFirst decodeTime samples (after c) s ↔
          IsFirst decodeTime (keptSamples decodeTime samples) (after c) s)) := by
  intro m contains prior after
  have hlt : ∀ s ∈ samples, s.presentationTime < s.presentationEndTime := fun s hs =>
    lt_add_of_pos_right _ (htrack.duration_pos s hs)
  have hdisj := htrack.disjoint
  refine ⟨fun s => htrack.after_iff, ⟨fun h => ?_, fun h s => htrack.after_iff.trans ?_⟩,
    ⟨fun h => ?_, fun h s => htrack.before_iff.trans ?_⟩,
    found_iff (fun c c' hc hc' => Option.some.inj ((htrack.before_iff.mpr hc).symm.trans
      (htrack.before_iff.mpr hc'))) fun s => htrack.syncPrior_iff threshold,
    found_iff (fun c c' hc hc' => Option.some.inj ((htrack.after_iff.mpr hc).symm.trans
      (htrack.after_iff.mpr hc'))) fun s => htrack.syncAfter_iff threshold⟩
  · cases hf : (m.findSampleContainingPresentationTime time).head? with
    | none => exact .inr (htrack.after_eq_none_iff.mp hf)
    | some s => exact .inl ⟨s, (h s).mp hf⟩
  · simp only [IsFirst, contains] at h ⊢
    grind
  · cases hf : (m.reverseFindSampleContainingPresentationTime time).head? with
    | none => exact .inr (htrack.before_eq_none_iff.mp hf)
    | some s => exact .inl ⟨s, (h s).mp hf⟩
  · simp only [IsFirst, contains, neg_le_neg_iff] at h ⊢
    grind

/-- Two samples with a gap between them and a sync sample behind them, added out of order. -/
def gapTrack : Iterator := [⟨3, 2, 1, 0⟩, ⟨0, 0, 2, 1⟩, ⟨4, 3, 1, 1⟩]

theorem find_samples_iff_gapTrack :
    let m : SampleMap := gapTrack.foldl addSample {}
    (∀ s, (m.findSampleContainingPresentationTime 1).head? = some s ↔
      s ∈ gapTrack ∧ s.presentationTime ≤ 1 ∧ 1 < s.presentationEndTime) ∧
    (¬∀ s, (m.findSampleContainingPresentationTime (5 / 2)).head? = some s ↔
      s ∈ gapTrack ∧ s.presentationTime ≤ 5 / 2 ∧ 5 / 2 < s.presentationEndTime) ∧
    (m.findSyncSampleAfterPresentationTime (5 / 2) (some 2)).head? = some ⟨4, 3, 1, 1⟩ := by
  have ht : Track gapTrack := ⟨by decide +kernel, by decide +kernel, by decide +kernel⟩
  refine ⟨(find_samples_iff ht 1 none).2.1.mpr (.inl (by decide +kernel)), fun h => ?_, ?_⟩
  · exact absurd ((find_samples_iff ht (5 / 2) none).2.1.mp h) (by decide +kernel)
  · decide +kernel

/-- Before the only sample the search finds that sample, and behind it the reverse search does. -/
theorem find_sample_outside :
    let sample : MediaSample := ⟨1, 1, 1, 1⟩
    let m := ({} : SampleMap).addSample sample
    sample.presentationEndTime = 2 ∧ m.findSampleContainingPresentationTime 0 = [sample] ∧
      m.reverseFindSampleContainingPresentationTime 5 = [sample] := by
  decide +kernel

end SampleMap

end QPlusWeb.MediaSource
