/-
Series/SampleMerge.lean

The samples of one series in a `TS.MADD`: `add_samples_internal` of
`series/sample_merge.rs`, and what each item of a merge is answered.

Design.  The merge writes its results to slots, those of the normalization first and those
of the chunks after that.  `MergeSpec.finals` reads the slots back: each item of the
batch has the result its verdict names, or the answer of the merge to the sample it put.
-/
import ValkeyTimeSeries.Series.MergeSamples
import ValkeyTimeSeries.Series.Lookup

namespace ValkeyTimeSeries

open List TimeSeries

/-! ### The code -/

/-- True if two samples in the group share a timestamp. -/
def hasInBatchDuplicate (samples : List Sample) : Bool :=
  let timestamps := (samples.map (·.timestamp)).insertionSort (· ≤ ·)
  (timestamps.zip timestamps.tail).any fun w => w.1 = w.2

def SampleAddResult.sample? : SampleAddResult → Option Sample
  | .ok sample => some sample
  | _ => none

/-- What the merge of a group leaves for the compaction pass after it. -/
structure PerSeriesSamples where
  series : TimeSeries
  /-- Samples accepted by the merge, ascending by timestamp. -/
  added : List Sample
  /-- The accepted timestamps in the order the caller supplied them. -/
  addedOrder : List Int
  /-- The series' last timestamp before the merge. -/
  prevLast : Option Int
deriving DecidableEq, Repr

namespace TimeSeries

variable [DecimalHelpers] [Env] (s : TimeSeries)

/-- Single-sample adds in input order, each item with its result. -/
def addEach (s : TimeSeries) : List Sample → List (Sample × SampleAddResult) × TimeSeries
  | [] => ([], s)
  | item :: items =>
    let (result, s) := s.addDeferringRetention item.timestamp item.value none
    let (rest, s) := addEach s items
    ((item, result) :: rest, s)

def addGroupSequentially (samples : List Sample) : List SampleAddResult × PerSeriesSamples :=
  let prevLast := s.lastSample.map (·.timestamp)
  let (items, s) := s.addEach samples
  let touched := sortDedup ((items.filter fun item => item.2.isOk).map fun item => item.1.timestamp)
  (items.map (·.2),
    { series := s
      added := touched.filterMap fun ts =>
        match s.getSample ts with
        | .ok sample => sample
        | .error _ => none
      -- a refused repeat is part of the order
      addedOrder := (items.filter fun item => item.2.isOk || decide (item.2 = .duplicate)).map
        fun item => item.1.timestamp
      prevLast })

def addSamplesInternal (samples : List Sample) :
    Except TsdbError (List SampleAddResult) × PerSeriesSamples :=
  let prevLast := s.lastSample.map (·.timestamp)
  match samples with
  | [sample] =>
    let (result, s) := s.addDeferringRetention sample.timestamp sample.value none
    let added := result.sample?.toList
    (.ok [result], ⟨s, added, added.map (·.timestamp), prevLast⟩)
  | samples =>
    if hasInBatchDuplicate samples then
      let (results, group) := s.addGroupSequentially samples
      (.ok results, group)
    else
      match s.mergeSamplesDeferringRetention samples none with
      | (.error e, s) => (.error e, ⟨s, [], [], prevLast⟩)
      | (.ok results, s) =>
        let added := results.filterMap (·.sample?)
        (.ok results, ⟨s, added.insertionSort fun a b => a.timestamp ≤ b.timestamp,
          added.map (·.timestamp), prevLast⟩)

end TimeSeries

/-! ### Repeats -/

/-- Different neighbours in ascending order are in strictly ascending order. -/
theorem pairwise_lt_of_zip_tail {l : List Int} (hsorted : l.Pairwise (· ≤ ·))
    (h : (l.zip l.tail).any (fun w => w.1 = w.2) = false) : l.Pairwise (· < ·) := by
  induction l with
  | nil => exact .nil
  | cons a l ih =>
    obtain ⟨hle, hsorted⟩ := pairwise_cons.mp hsorted
    cases l with
    | nil => exact pairwise_singleton ..
    | cons b l =>
      rw [tail_cons, zip_cons_cons, any_cons, Bool.or_eq_false_iff, decide_eq_false_iff_not] at h
      have hrest := ih hsorted h.2
      have hab : a < b := lt_of_le_of_ne (hle b mem_cons_self) h.1
      refine pairwise_cons.mpr ⟨fun c hc => ?_, hrest⟩
      rcases mem_cons.mp hc with rfl | hc
      · exact hab
      · exact hab.trans (rel_of_pairwise_cons hrest hc)

theorem nodup_of_not_hasInBatchDuplicate {samples : List Sample} (h : hasInBatchDuplicate samples = false) :
    (samples.map (·.timestamp)).Nodup := by
  have hlt := pairwise_lt_of_zip_tail (pairwise_insertionSort (· ≤ ·) (samples.map Sample.timestamp)) h
  refine (perm_insertionSort (· ≤ ·) (samples.map (·.timestamp))).nodup_iff.mp ?_
  exact hlt.imp fun {a b} hab => hab.ne

/-! ### The slots of the results -/

theorem splice_append (results : List SampleAddResult) (slots slots' : List (Nat × SampleAddResult)) :
    splice (splice results slots) slots' = splice results (slots ++ slots') :=
  (foldl_append ..).symm

theorem length_splice (results : List SampleAddResult) (slots : List (Nat × SampleAddResult)) :
    (splice results slots).length = results.length := by
  induction slots generalizing results with
  | nil => rfl
  | cons slot slots ih => exact (ih _).trans (length_set ..)

theorem splice_getElem?_of_not_mem {results : List SampleAddResult} {slots : List (Nat × SampleAddResult)} {i : Nat}
    (h : i ∉ slots.map Prod.fst) : (splice results slots)[i]? = results[i]? := by
  induction slots generalizing results with
  | nil => rfl
  | cons slot slots ih =>
    rw [map_cons, mem_cons, not_or] at h
    exact (ih h.2).trans (getElem?_set_ne (Ne.symm h.1))

/-- A slot that is written once holds what was written. -/
theorem splice_getElem? {results : List SampleAddResult} {slots : List (Nat × SampleAddResult)}
    (hnodup : (slots.map Prod.fst).Nodup) {i : Nat} {r : SampleAddResult} (hmem : (i, r) ∈ slots)
    (hlt : i < results.length) : (splice results slots)[i]? = some r := by
  induction slots generalizing results with
  | nil => cases hmem
  | cons slot slots ih =>
    obtain ⟨hnot, hrest⟩ := nodup_cons.mp hnodup
    rcases mem_cons.mp hmem with rfl | hmem
    · refine (splice_getElem?_of_not_mem hnot).trans ?_
      rw [getElem?_set_self hlt]
    · exact ih hrest hmem (by rwa [length_set])

/-! ### What each item is answered -/

/-- The result of an item: known from its verdict, or given by the merge. -/
def Verdict.Final (merged : Sample → SampleAddResult → Prop) (v : Verdict) (r : SampleAddResult) : Prop :=
  v.result = some r ∨ ∃ x, v.inserted = some x ∧ merged x r

/-- The slots written by the normalization and by the merge are those of the items. -/
theorem exists_finals {merged : Sample → SampleAddResult → Prop} (verdicts : List Verdict) (index : List Nat)
    (hlen : index.length = verdicts.length) {rs : List SampleAddResult}
    (hrs : List.Forall₂ merged (verdicts.filterMap (·.inserted)) rs) :
    ∃ finals, List.Forall₂ (Verdict.Final merged) verdicts finals
    ∧ (((index.zip verdicts).filterMap fun p => p.2.result.map fun r => (p.1, r))
    ++ ((index.zip verdicts).filterMap fun p => p.2.inserted.map fun _ => p.1).zip rs).Perm
    (index.zip finals) := by
  induction verdicts generalizing index rs with
  | nil =>
    obtain rfl : index = [] := length_eq_zero_iff.mp hlen
    exact ⟨[], .nil, .nil⟩
  | cons v verdicts ih =>
    cases index with
    | nil => cases hlen
    | cons i index =>
      have hlen' : index.length = verdicts.length := Nat.succ.inj hlen
      cases hins : v.inserted with
      | some x =>
        have hres : v.result = none := by cases v <;> first | rfl | cases hins
        rw [filterMap_cons_some hins] at hrs
        obtain ⟨r, rs', hr, hrest, rfl⟩ := List.forall₂_cons_left_iff.mp hrs
        obtain ⟨finals, hfinals, hperm⟩ := ih index hlen' hrest
        refine ⟨r :: finals, .cons (.inr ⟨x, hins, hr⟩) hfinals, ?_⟩
        simp only [zip_cons_cons, filterMap_cons, hres, hins]
        exact perm_middle.trans (hperm.cons _)
      | none =>
        obtain ⟨r, hres⟩ : ∃ r, v.result = some r := by
          cases v with
          | duplicate => exact ⟨_, rfl⟩
          | tooOld => exact ⟨_, rfl⟩
          | ignored ts => exact ⟨_, rfl⟩
          | insert x => cases hins
        rw [filterMap_cons_none hins] at hrs
        obtain ⟨finals, hfinals, hperm⟩ := ih index hlen' hrs
        refine ⟨r :: finals, .cons (.inl hres) hfinals, ?_⟩
        simp only [zip_cons_cons, filterMap_cons, hres, hins]
        exact hperm.cons _

namespace TimeSeries

variable [Env] {s : TimeSeries} {override : Option DuplicatePolicy}

theorem length_normalizeLoop (override : Option DuplicatePolicy) (st : NormalizeState) (items : List BatchItem) :
    (s.normalizeLoop override st items).length = items.length := by
  induction items generalizing st with
  | nil => rfl
  | cons item items ih => exact congrArg (· + 1) (ih _)

end TimeSeries

variable [DecimalHelpers] [Env] {s s' : TimeSeries} {samples : List Sample} {override : Option DuplicatePolicy}
  {results : List SampleAddResult}

/-- Each item of the batch, in the order of the walk, with its verdict and its result. -/
theorem MergeSpec.finals (h : MergeSpec s samples override results s') {merged : Sample → SampleAddResult → Prop}
    (hans : List.Forall₂ merged (s.normalizeBatch samples override).toInsert
    ((s.sampleDuplicates.resolvePolicy override).groupAnswers s.isCompressed s.samples
    (s.groupSamplesByChunk (s.normalizeBatch samples override).toInsert))) : results.length = samples.length
    ∧ ∃ finals, List.Forall₂ (Verdict.Final merged)
    (s.normalizeLoop override ⟨s.lastSample, .none⟩ (processingOrder (s.batchItems samples))) finals
    ∧ ∀ p ∈ ((processingOrder (s.batchItems samples)).map (·.index)).zip finals,
    results[p.1]? = some p.2 := by
  have hperm := (processingOrder_perm (s.batchItems samples)).map (·.index)
  rw [batchItems_index] at hperm
  have hlen : ((processingOrder (s.batchItems samples)).map (·.index)).length
      = (s.normalizeLoop override ⟨s.lastSample, .none⟩ (processingOrder (s.batchItems samples))).length := by
    rw [length_map, length_normalizeLoop]
  obtain ⟨finals, hfinals, hslots⟩ := exists_finals _ _ hlen hans
  have hfst : (((processingOrder (s.batchItems samples)).map (·.index)).zip finals).map Prod.fst
      = (processingOrder (s.batchItems samples)).map (·.index) :=
    map_fst_zip (hlen.trans hfinals.length_eq).le
  rw [h.results, TimeSeries.normalizeBatch, splice_append]
  refine ⟨by rw [length_splice, length_map], finals, hfinals, fun p hp => ?_⟩
  refine splice_getElem? ?_ (hslots.mem_iff.mpr hp) ?_
  · refine (hslots.map Prod.fst).nodup_iff.mpr ?_
    rw [hfst]
    exact hperm.nodup_iff.mpr nodup_range
  · have hmem := mem_map_of_mem (f := Prod.fst) hp
    rw [hfst, hperm.mem_iff, mem_range] at hmem
    rwa [length_map]

/-- How an item of a batch without repeats is answered: its sample goes into the list and the
answer is that of the policy, or the normalization keeps it out. -/
inductive Answered (s : TimeSeries) (samples : List Sample) (override : Option DuplicatePolicy) (x : Sample) :
    SampleAddResult → Prop
  | merged {r : SampleAddResult}
      (hin : s.makeSample x.timestamp x.value ∈ (s.normalizeBatch samples override).toInsert)
      (hr : (s.sampleDuplicates.resolvePolicy override).Answers s.isCompressed s.samples
        (s.makeSample x.timestamp x.value) r) : Answered s samples override x r
  | keptOut {v : Verdict} {r : SampleAddResult} (hv : v.result = some r)
      (hout : x.timestamp ∉ (s.normalizeBatch samples override).toInsert.map (·.timestamp)) :
      Answered s samples override x r

omit [DecimalHelpers] in
theorem TimeSeries.normalizeLoop_zip {st : NormalizeState} {items : List BatchItem} {p : BatchItem × Verdict}
    (hp : p ∈ items.zip (s.normalizeLoop override st items)) {x : Sample} (hx : p.2.inserted = some x) :
    x = s.makeSample p.1.sample.timestamp p.1.sample.value := by
  induction items generalizing st with
  | nil => cases hp
  | cons item items ih =>
    rcases mem_cons.mp hp with rfl | hp
    · exact (normalizeStep_inserted hx).1
    · exact ih hp

/-- **Each item** of a batch without repeats has its answer, in the order of the batch. -/
theorem MergeSpec.answered (h : MergeSpec s samples override results s') (hnodup : (samples.map (·.timestamp)).Nodup) :
    List.Forall₂ (Answered s samples override) samples results := by
  obtain ⟨hlen, finals, hfinals, hat⟩ := h.finals h.answers
  have hinsert : (s.normalizeBatch samples override).toInsert
      = (s.normalizeLoop override ⟨s.lastSample, .none⟩ (processingOrder (s.batchItems samples))).filterMap
          (·.inserted) := rfl
  have hzip := @normalizeLoop_zip _ s override ⟨s.lastSample, .none⟩
    (processingOrder (s.batchItems samples))
  have hlenLoop := length_normalizeLoop (s := s) override ⟨s.lastSample, .none⟩
    (processingOrder (s.batchItems samples))
  have hperm := processingOrder_perm (s.batchItems samples)
  generalize s.normalizeLoop override ⟨s.lastSample, .none⟩ (processingOrder (s.batchItems samples)) = verdicts
    at hfinals hinsert hzip hlenLoop
  generalize processingOrder (s.batchItems samples) = items at hat hzip hlenLoop hperm
  have hdist : (items.map fun item => item.sample.timestamp).Nodup := by
    refine (hperm.map _).nodup_iff.mpr ?_
    have hmap := congrArg (List.map Sample.timestamp) (batchItems_sample (s := s) samples)
    rw [map_map] at hmap
    exact hmap ▸ hnodup
  refine List.forall₂_iff_get.mpr ⟨hlen.symm, fun i hi hi' => ?_⟩
  -- the item of the index, and where the walk meets it
  have hi'' : i < (s.batchItems samples).length := by
    rw [← length_map (f := BatchItem.sample), batchItems_sample]
    exact hi
  obtain ⟨j, hj, hitem⟩ := mem_iff_getElem.mp (hperm.mem_iff.mpr (getElem_mem hi''))
  have hindex : items[j].index = i := by
    have hget := congrArg (fun l : List Nat => l[i]?) (batchItems_index (s := s) samples)
    rw [getElem?_map, getElem?_eq_getElem hi'', getElem?_range hi] at hget
    rw [hitem]
    exact Option.some.inj hget
  have hsample : items[j].sample = samples[i] := by
    have hget := congrArg (fun l : List Sample => l[i]?) (batchItems_sample (s := s) samples)
    rw [getElem?_map, getElem?_eq_getElem hi'', getElem?_eq_getElem hi] at hget
    rw [hitem]
    exact Option.some.inj hget
  have hjv : j < verdicts.length := by omega
  have hjf : j < finals.length := by rw [← hfinals.length_eq]; exact hjv
  have hresult : results[i]? = some finals[j] := by
    refine hindex ▸ hat (items[j].index, finals[j]) ?_
    refine mem_iff_getElem.mpr ⟨j, by simp; omega, ?_⟩
    simp
  have hfinal : Verdict.Final _ verdicts[j] finals[j] := (List.forall₂_iff_get.mp hfinals).2 j hjv hjf
  have hpair : (items[j], verdicts[j]) ∈ items.zip verdicts :=
    mem_iff_getElem.mpr ⟨j, by simp; omega, by simp⟩
  have heq : results.get ⟨i, hi'⟩ = finals[j] := by
    exact Option.some.inj ((getElem?_eq_getElem hi').symm.trans hresult)
  rw [heq, get_eq_getElem]
  rw [← hsample]
  rcases hfinal with hres | ⟨x, hx, hans⟩
  · refine .keptOut hres fun hin => ?_
    rw [hinsert] at hin
    obtain ⟨z, hz, hzt⟩ := mem_map.mp hin
    obtain ⟨w, hw, hwz⟩ := mem_filterMap.mp hz
    obtain ⟨k, hk, rfl⟩ := mem_iff_getElem.mp hw
    have hk' : k < items.length := by omega
    have hz' := hzip (p := (items[k], verdicts[k])) (mem_iff_getElem.mpr ⟨k, by simp; omega, by simp⟩) hwz
    have hkj : k = j := by
      have hget : (items.map fun item => item.sample.timestamp).get ⟨k, by simpa using hk'⟩
          = (items.map fun item => item.sample.timestamp).get ⟨j, by simpa using hj⟩ := by
        simp only [get_eq_getElem, getElem_map]
        rw [← hzt, hz']
        rfl
      exact congrArg Fin.val (hdist.get_inj_iff.mp hget)
    subst hkj
    cases hv : verdicts[k] with
    | insert y =>
      rw [hv] at hres
      cases hres
    | duplicate => rw [hv] at hwz; cases hwz
    | tooOld => rw [hv] at hwz; cases hwz
    | ignored t => rw [hv] at hwz; cases hwz
  · have hx' := hzip hpair hx
    rw [hx'] at hx hans
    refine .merged ?_ hans
    rw [hinsert]
    exact mem_filterMap.mpr ⟨verdicts[j], getElem_mem hjv, hx⟩

end ValkeyTimeSeries
