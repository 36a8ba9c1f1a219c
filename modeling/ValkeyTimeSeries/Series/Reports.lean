/-
Series/Reports.lean

What an `Ok` outcome says about the sample that is stored.

Design.  An upsert hands the sample back as it was given.  A merge hands back the sample as it is stored,
except where it comes alone to an uncompressed chunk.  An answer is what the series holds exactly where the
policy stores the value given (`asGiven_eq_iff`).
-/
import ValkeyTimeSeries.Chunk.Interchange
import ValkeyTimeSeries.Series.SampleMerge

namespace ValkeyTimeSeries

open List SortedList

section Outcomes

variable [FloatOps] {policy : DuplicatePolicy} {l l' : List Sample} {x : Sample}

theorem outcome_congr (h : sampleAt x.timestamp l = sampleAt x.timestamp l') :
    policy.outcome l x = policy.outcome l' x := by
  have hfind (l : List Sample) :
      (l.find? fun old => decide (old.timestamp = x.timestamp)) = sampleAt x.timestamp l := rfl
  unfold DuplicatePolicy.outcome
  rw [hfind, hfind, h]

theorem outcome_of_sampleAt_none (h : sampleAt x.timestamp l = none) : policy.outcome l x = .ok x := by
  have hcongr : policy.outcome l x = policy.outcome [] x := outcome_congr h
  exact hcongr

theorem outcome_stored {y : Sample} (h : policy.outcome l x = .ok y) :
    policy.settle x (sampleAt x.timestamp l) = y := by
  rcases outcome_settle policy l x with hout | ⟨hout, -⟩
  · exact SampleAddResult.ok.inj (hout.symm.trans h)
  · rw [hout] at h
    cases h

end Outcomes

variable [DecimalHelpers]

/-! ### A batch and its samples one by one -/

namespace TimeSeriesChunk

section Upserts

variable [FloatOps] {policy : DuplicatePolicy} {c : TimeSeriesChunk}

def upsertEach (policy : DuplicatePolicy) : List Sample → TimeSeriesChunk → List SampleAddResult × TimeSeriesChunk
  | [], c => ([], c)
  | sample :: samples, c =>
    let ((_, result), c) := c.upsert sample policy
    let (results, c) := upsertEach policy samples c
    (result :: results, c)

/-- Each of these upserts finds the capacity it needs. -/
def HasRoom (policy : DuplicatePolicy) : List Sample → TimeSeriesChunk → Prop
  | [], _ => True
  | sample :: samples, c =>
    c.HasCapacity (.upsertSample sample policy) ∧ HasRoom policy samples (c.upsert sample policy).2

theorem Ok.upsert_put (h : c.Ok) {sample : Sample} (hts : ValidTs sample.timestamp)
    (hcap : c.HasCapacity (.upsertSample sample policy)) :
    (c.upsert sample policy).1.2 = (policy.outcome c.samples sample).asGiven sample
    ∧ (c.upsert sample policy).2.Ok ∧ (c.upsert sample policy).2.samples = policy.put sample c.samples := by
  have hspec := h.upsert_spec hts policy (h.not_overflows hcap)
  have hout := outcome_eq policy h.run.increasing sample
  cases hr : policy.upsert sample c.samples with
  | ok l =>
    rw [hr] at hspec hout
    obtain ⟨c', hc', hbecomes⟩ := hspec
    obtain ⟨stored, hstored, -⟩ := hout
    rw [hc', hstored]
    exact ⟨rfl, hbecomes.ok, hbecomes.samples_eq.trans (upsert_eq_put hr)⟩
  | error e =>
    rw [hr] at hspec hout
    rw [DuplicatePolicy.upsert] at hr
    rw [hspec, hout, DuplicatePolicy.put, putWith, hr]
    exact ⟨rfl, h, rfl⟩

/-- **Run lemma.**  Upserts put their samples into the list and hand them back as given. -/
theorem Ok.upsertEach_spec (h : c.Ok) {samples : List Sample} (hs : SampleRun samples)
    (hroom : HasRoom policy samples c) :
    (upsertEach policy samples c).1 = samples.map (fun x => (policy.outcome c.samples x).asGiven x)
    ∧ (upsertEach policy samples c).2.samples = policy.putAll samples c.samples := by
  induction samples generalizing c with
  | nil => exact ⟨rfl, rfl⟩
  | cons x samples ih =>
    obtain ⟨hx, hsamples, hlt⟩ := sampleRun_append.mp (show SampleRun ([x] ++ samples) from hs)
    obtain ⟨hresult, hok, hput⟩ := h.upsert_put (hs.times x mem_cons_self) hroom.1
    obtain ⟨hres, hall⟩ := ih hok hsamples hroom.2
    rw [hput] at hres hall
    refine ⟨?_, hall⟩
    change (c.upsert x policy).1.2 :: (upsertEach policy samples (c.upsert x policy).2).1 = _
    rw [hresult, hres, map_cons]
    congr 1
    refine map_congr_left fun y hy => ?_
    -- a put does not touch a later timestamp
    have hne : y.timestamp ≠ x.timestamp := (hlt x mem_cons_self y hy).ne'
    have hsame : policy.outcome (policy.put x c.samples) y = policy.outcome c.samples y :=
      outcome_congr (by rw [sampleAt_put h.run.increasing, if_neg hne])
    rw [hsame]

/-- **A batch merge against its samples upserted one by one.**  The samples are the same and
there is one answer for each of them; the answers are the same exactly where an uncompressed
chunk takes a single sample or the policy stores every sample it stores with the value given. -/
theorem mergeSamples_eq_upsertEach_iff (c : TimeSeriesChunk) (h : c.Ok) (samples : List Sample)
    (hs : SampleRun samples) (policy : Option DuplicatePolicy)
    (hcap : c.HasCapacity (.mergeSamples samples policy))
    (hroom : HasRoom (policy.getD .keepLast) samples c) :
    ∃ results c', c.mergeSamples samples policy = .ok (results, c')
      ∧ c'.samples = (upsertEach (policy.getD .keepLast) samples c).2.samples
      ∧ results.length = samples.length
      ∧ (results = (upsertEach (policy.getD .keepLast) samples c).1 ↔
          (c.isCompressed = false ∧ samples.length = 1)
            ∨ ∀ x ∈ samples, ¬ ((policy.getD .keepLast).outcome c.samples x).OtherValue x) := by
  obtain ⟨hres, hall⟩ := h.upsertEach_spec hs hroom
  have hobserve := h.observe_merge hs policy hcap
  rw [observe, observeList] at hobserve
  rw [hres, hall]
  generalize policy.getD .keepLast = p at *
  have hiff : samples.map (p.outcome c.samples) = samples.map (fun x => (p.outcome c.samples x).asGiven x)
      ↔ ∀ x ∈ samples, ¬ (p.outcome c.samples x).OtherValue x := by
    rw [map_inj_left]
    exact forall₂_congr fun x _ => eq_comm.trans (asGiven_eq_iff ..)
  cases hm : c.mergeSamples samples policy with
  | error e =>
    rw [hm] at hobserve
    cases hobserve
  | ok r =>
    rw [hm] at hobserve
    obtain ⟨hans, hsamples⟩ := Prod.mk.inj (Except.ok.inj hobserve)
    have hans := ChunkAnswer.outcomes.inj hans
    refine ⟨r.1, r.2, rfl, hsamples, ?_⟩
    rw [hans]
    cases hc : c.isCompressed with
    | true =>
      refine ⟨length_map .., hiff.trans ⟨.inr, fun h => h.resolve_left fun hf => ?_⟩⟩
      cases hf.1
    | false =>
      rcases samples with - | ⟨x, - | ⟨y, rest⟩⟩
      · exact ⟨rfl, fun _ => .inr (by simp), fun _ => rfl⟩
      · exact ⟨rfl, fun _ => .inl ⟨rfl, rfl⟩, fun _ => rfl⟩
      · refine ⟨length_map .., hiff.trans ⟨.inr, fun h => h.resolve_left fun hf => ?_⟩⟩
        exact absurd (Nat.succ.inj hf.2) (Nat.succ_ne_zero _)

end Upserts

end TimeSeriesChunk

/-! ### One sample -/

def SampleAddResult.Reports (r : SampleAddResult) (s : TimeSeries) : Prop :=
  ∀ x, r = .ok x → s.getSample x.timestamp = .ok (some x)

section Series

variable [Env] {s : TimeSeries}

/-- A sample not older than the last one that `IGNORE` leaves out. -/
def TimeSeries.Ignores (s : TimeSeries) (sample : Sample) (override : Option DuplicatePolicy) : Prop :=
  ∃ last, s.lastSample = some last ∧ last.timestamp ≤ sample.timestamp
    ∧ s.sampleDuplicates.isDuplicate sample last override = true

omit [Env] in
/-- A sample between the halves of a chunk has a new timestamp. -/
theorem TimeSeries.WF.sampleAt_overflows (h : s.WF) {ts : Int} (hover : s.Overflows ts) :
    sampleAt ts s.samples = none := by
  obtain ⟨c, hc, hbetween⟩ := hover
  have hok := h.chunks.ok c hc
  obtain ⟨⟨a, ha, hlt⟩, ⟨b, hb, hgt⟩, -⟩ := hbetween.facts hok
  rw [h.sampleAt_chunk hc ⟨(hok.bounds ha).1.trans hlt.le, hgt.le.trans (hok.bounds hb).2⟩]
  refine sampleAt_eq_none.mpr fun x hx hts => ?_
  cases c with
  | uncompressed c =>
    obtain ⟨-, hlow, hhigh⟩ := hbetween
    have hx : x ∈ c.samples.take (c.samples.length / 2) ++ c.samples.drop (c.samples.length / 2) := by
      rw [take_append_drop]
      exact hx
    rcases mem_append.mp hx with hx | hx
    · exact (hlow x hx).ne hts
    · exact (hhigh x hx).ne' hts
  | gorilla c => exact hbetween.elim
  | chimp c => exact hbetween.elim

omit [Env] in
theorem reports_ok_iff (h : s.WF) (x : Sample) :
    (SampleAddResult.ok x).Reports s ↔ sampleAt x.timestamp s.samples = some x := by
  refine ⟨fun hr => ?_, fun hx y hy => ?_⟩
  · have heq := hr x rfl
    rw [h.getSample_eq] at heq
    exact Except.ok.inj heq
  · obtain rfl := SampleAddResult.ok.inj hy
    rw [h.getSample_eq, hx]

/-- An add reports what it stored unless the policy stores another value. -/
theorem TimeSeries.WF.add_reports_iff (h : s.WF) {ts : Int} (hts : ValidTs ts) (value : F64)
    (override : Option DuplicatePolicy) :
    (s.addDeferringRetention ts value override).1.Reports (s.addDeferringRetention ts value override).2 ↔
    s.isOlderThanRetention ts = true ∨ s.Ignores (s.makeSample ts value) override
    ∨ ¬ ((s.sampleDuplicates.resolvePolicy override).outcome s.samples (s.makeSample ts value)).OtherValue
    (s.makeSample ts value) := by
  have hadded := h.addDeferringRetention_spec hts value override
  have hinc := h.run.increasing
  change _ ↔ s.isOlderThanRetention (s.makeSample ts value).timestamp = true ∨ _
  generalize s.addDeferringRetention ts value override = r at hadded ⊢
  generalize s.makeSample ts value = x at hadded ⊢
  cases hadded with
  | tooOld hold => exact ⟨fun _ => .inl hold, fun _ y hy => by cases hy⟩
  | ignored hwin hlast hge hdup => exact ⟨fun _ => .inr (.inl ⟨_, hlast, hge, hdup⟩), fun _ y hy => by cases hy⟩
  | upserted hwin hnot hr =>
    have hrest {p : Prop} : s.isOlderThanRetention x.timestamp = true ∨ s.Ignores x override ∨ p ↔ p := by
      refine ⟨?_, fun hp => .inr (.inr hp)⟩
      rintro (hold | ⟨last, hlast, hge, hdup⟩ | hp)
      · rw [hwin] at hold
        cases hold
      · exact absurd ⟨hge, hdup⟩ (hnot last hlast)
      · exact hp
    rw [hrest]
    have hout := outcome_eq (s.sampleDuplicates.resolvePolicy override) hinc x
    cases hr with
    | stored hroom hl hs' =>
      rw [hl] at hout
      obtain ⟨stored, hstored, -⟩ := hout
      rw [hstored, reports_ok_iff hs'.wf, hs'.samples_eq, upsert_eq_put hl, sampleAt_put hinc, if_pos rfl,
        outcome_stored hstored]
      exact ⟨fun heq hne => hne (Option.some.inj heq), fun heq => congrArg some (not_not.mp heq)⟩
    | refused hroom he hs' =>
      rw [he] at hout
      rw [hout]
      exact ⟨fun _ hother => hother, fun _ y hy => by cases hy⟩
    | overflowed hover hs' =>
      rw [outcome_of_sampleAt_none (h.sampleAt_overflows hover)]
      exact ⟨fun _ hother => hother rfl, fun _ y hy => by cases hy⟩

/-! ### A batch -/

def DuplicatePolicy.groupAnswer (policy : DuplicatePolicy) (exact : Bool) (l group : List Sample) (x : Sample) :
    SampleAddResult :=
  if exact = false ∧ group = [x] then (policy.outcome l x).asGiven x else policy.outcome l x

omit [DecimalHelpers] in
theorem mergeAnswers_eq_map (policy : DuplicatePolicy) (exact : Bool) (l group : List Sample) :
    policy.mergeAnswers exact l group = group.map (policy.groupAnswer exact l group) := by
  unfold DuplicatePolicy.mergeAnswers DuplicatePolicy.groupAnswer
  cases exact with
  | true => simp
  | false =>
    match group with
    | [] => rfl
    | [x] => simp [UncompressedChunk.mergeAnswers]
    | x :: y :: rest => simp [UncompressedChunk.mergeAnswers]

omit [DecimalHelpers] in
theorem forall₂_groupAnswers (policy : DuplicatePolicy) (exact : Bool) (l : List Sample)
    (groups : List ChunkSampleGroup) :
    List.Forall₂ (fun x r => ∃ group ∈ groups, x ∈ group.samples ∧ r = policy.groupAnswer exact l group.samples x)
    (batchOf groups) (policy.groupAnswers exact l groups) := by
  induction groups with
  | nil => exact .nil
  | cons group groups ih =>
    refine rel_append ?_ (ih.imp ?_)
    · dsimp only
      rw [mergeAnswers_eq_map, List.forall₂_map_right_iff]
      exact List.forall₂_same.mpr fun x hx => ⟨group, mem_cons_self, hx, rfl⟩
    · rintro x r ⟨g, hg, hx⟩
      exact ⟨g, mem_cons_of_mem _ hg, hx⟩

/-- The results that are `Ok` are those of samples that were put, and each of these has one. -/
theorem MergeSpec.mem_results {samples : List Sample} {override : Option DuplicatePolicy}
    {results : List SampleAddResult} {s' : TimeSeries} (h : MergeSpec s samples override results s')
    {merged : Sample → SampleAddResult → Prop} (hans : List.Forall₂ merged (s.normalizeBatch samples override).toInsert
    ((s.sampleDuplicates.resolvePolicy override).groupAnswers s.isCompressed s.samples
    (s.groupSamplesByChunk (s.normalizeBatch samples override).toInsert))) :
    (∀ r ∈ results, r.isOk = true → ∃ x ∈ (s.normalizeBatch samples override).toInsert, merged x r)
    ∧ ∀ x ∈ (s.normalizeBatch samples override).toInsert, ∃ r ∈ results, merged x r := by
  obtain ⟨hlen, finals, hfinals, hat⟩ := h.finals hans
  have hinsert : (s.normalizeBatch samples override).toInsert
      = (s.normalizeLoop override ⟨s.lastSample, .none⟩ (processingOrder (s.batchItems samples))).filterMap
          (·.inserted) := rfl
  have hperm := (processingOrder_perm (s.batchItems samples)).map (·.index)
  have hlenLoop := TimeSeries.length_normalizeLoop (s := s) override ⟨s.lastSample, .none⟩
    (processingOrder (s.batchItems samples))
  rw [TimeSeries.batchItems_index, ← hlen] at hperm
  rw [← length_map (f := BatchItem.index)] at hlenLoop
  rw [hinsert]
  generalize s.normalizeLoop override ⟨s.lastSample, .none⟩ (processingOrder (s.batchItems samples)) = verdicts
    at hfinals hlenLoop ⊢
  generalize (processingOrder (s.batchItems samples)).map (·.index) = index at hat hperm hlenLoop
  obtain ⟨hlenFinals, hfinal⟩ := List.forall₂_iff_get.mp hfinals
  have hget (j : Nat) (hj : j < index.length) (hj' : j < finals.length) : results[index[j]]? = some finals[j] :=
    hat (index[j], finals[j]) (mem_iff_getElem.mpr ⟨j, by simp; omega, by simp⟩)
  refine ⟨fun r hr hok => ?_, fun x hx => ?_⟩
  · obtain ⟨i, hi, rfl⟩ := mem_iff_getElem.mp hr
    obtain ⟨j, hj, hij⟩ := mem_iff_getElem.mp (hperm.mem_iff.mpr (mem_range.mpr hi))
    have hj' : j < verdicts.length := by omega
    have hresult := hget j hj (by omega)
    rw [hij, getElem?_eq_getElem hi] at hresult
    rw [Option.some.inj hresult] at hok ⊢
    rcases hfinal j hj' (by omega) with hres | ⟨x, hx, hmerged⟩
    · -- the normalization stores nothing
      rw [get_eq_getElem, get_eq_getElem] at hres
      exfalso
      cases hv : verdicts[j] with
      | insert y =>
        rw [hv] at hres
        cases hres
      | duplicate | tooOld | ignored timestamp =>
        rw [hv] at hres
        rw [← Option.some.inj hres] at hok
        cases hok
    · exact ⟨x, mem_filterMap.mpr ⟨_, get_mem verdicts ⟨j, hj'⟩, hx⟩, hmerged⟩
  · obtain ⟨v, hv, hvx⟩ := mem_filterMap.mp hx
    obtain ⟨j, hj, rfl⟩ := mem_iff_getElem.mp hv
    have hj' : j < finals.length := by omega
    refine ⟨finals[j], mem_of_getElem? (hget j (by omega) hj'), ?_⟩
    rcases hfinal j hj hj' with hres | ⟨y, hy, hmerged⟩
    · rw [get_eq_getElem] at hres
      cases hv : verdicts[j] with
      | insert y =>
        rw [hv] at hres
        cases hres
      | duplicate | tooOld | ignored timestamp =>
        rw [hv] at hvx
        cases hvx
    · rw [get_eq_getElem, hvx] at hy
      rwa [Option.some.inj hy]

/-- A batch reports what it stored unless a sample that comes alone to an uncompressed chunk
is stored with another value. -/
theorem TimeSeries.WF.merge_reports_iff (h : s.WF) {samples : List Sample} (hvalid : ValidTimes samples)
    (override : Option DuplicatePolicy) : ∃ results s', s.mergeSamplesDeferringRetention samples override =
    (.ok results, s')
    ∧ ((∀ r ∈ results, r.Reports s') ↔ s.isCompressed = true
    ∨ ∀ group ∈ s.groupSamplesByChunk (s.normalizeBatch samples override).toInsert, ∀ x, group.samples = [x] →
    ¬ ((s.sampleDuplicates.resolvePolicy override).outcome s.samples x).OtherValue x) := by
  obtain ⟨results, s', heq, hspec⟩ := h.mergeSamplesDeferringRetention_spec hvalid override
  refine ⟨results, s', heq, ?_⟩
  have hanswers := forall₂_groupAnswers (s.sampleDuplicates.resolvePolicy override) s.isCompressed s.samples
    (s.groupSamplesByChunk (s.normalizeBatch samples override).toInsert)
  rw [hspec.groups] at hanswers
  obtain ⟨hput, hresult⟩ := hspec.mem_results hanswers
  have hrun := TimeSeries.normalizeBatch_run override hvalid (s := s)
  have hbatch := hspec.groups
  have hsamples := hspec.becomes.samples_eq
  generalize s.groupSamplesByChunk (s.normalizeBatch samples override).toInsert = groups at hput hresult hbatch ⊢
  generalize (s.normalizeBatch samples override).toInsert = toInsert at hput hresult hrun hbatch hsamples
  generalize s.sampleDuplicates.resolvePolicy override = policy at hput hresult hsamples ⊢
  have hstored {x : Sample} (hx : x ∈ toInsert) :
      sampleAt x.timestamp s'.samples = some (policy.settle x (sampleAt x.timestamp s.samples)) := by
    rw [hsamples]
    exact sampleAt_putAll_of_mem h.run.increasing hrun.increasing.nodup hx
  constructor
  · intro hreports
    by_contra hnot
    push Not at hnot
    obtain ⟨hcomp, group, hgroup, x, hone, hother⟩ := hnot
    have hx : x ∈ toInsert := by
      rw [← hbatch]
      exact mem_flatMap.mpr ⟨group, hgroup, by rw [hone]; exact mem_singleton.mpr rfl⟩
    obtain ⟨r, hr, g, hg, hxg, rfl⟩ := hresult x hx
    -- the timestamps of a batch differ, so the sample has one group
    have hsame : g.samples = [x] := by
      have hnodup : (batchOf groups).Nodup := hbatch ▸ hrun.increasing.nodup.of_map _
      have hsymm : Std.Symm (Function.onFun List.Disjoint ChunkSampleGroup.samples) := ⟨fun _ _ hd => hd.symm⟩
      by_contra hne
      refine (nodup_flatMap.mp hnodup).2.forall hg hgroup (fun heq => hne (heq ▸ hone)) hxg ?_
      change x ∈ group.samples
      rw [hone]
      exact mem_singleton.mpr rfl
    have hreport := hreports _ hr
    rw [DuplicatePolicy.groupAnswer, if_pos ⟨by simpa using hcomp, hsame⟩] at hreport
    cases hout : policy.outcome s.samples x with
    | ok stored =>
      rw [hout] at hreport hother
      have hat := (reports_ok_iff hspec.becomes.wf x).mp hreport
      rw [hstored hx, outcome_stored hout] at hat
      exact hother (Option.some.inj hat)
    | duplicate | ignored timestamp | tooOld | error message =>
      rw [hout] at hother
      exact hother
  · intro hcond r hr y hy
    subst hy
    obtain ⟨x, hx, g, hg, hxg, hans⟩ := hput _ hr rfl
    have hout : policy.outcome s.samples x = .ok y := by
      rw [DuplicatePolicy.groupAnswer] at hans
      split at hans
      · rename_i halone
        rcases hcond with hcomp | hcond
        · rw [hcomp] at halone
          cases halone.1
        · rw [(asGiven_eq_iff ..).mpr (hcond g hg x halone.2)] at hans
          exact hans.symm
      · exact hans.symm
    have hat := hstored hx
    rw [outcome_stored hout] at hat
    have hts : y.timestamp = x.timestamp := timestamp_of_sampleAt hat
    exact (reports_ok_iff hspec.becomes.wf y).mpr (hts ▸ hat) y rfl

/-- **The `Ok` outcomes that report what was stored.** -/
theorem ok_reports_stored_iff (s : TimeSeries) (h : s.WF) (override : Option DuplicatePolicy) :
    (∀ ts value, ValidTs ts →
      ((s.addDeferringRetention ts value override).1.Reports (s.addDeferringRetention ts value override).2 ↔
        s.isOlderThanRetention ts = true ∨ s.Ignores (s.makeSample ts value) override
          ∨ ¬ ((s.sampleDuplicates.resolvePolicy override).outcome s.samples (s.makeSample ts value)).OtherValue
              (s.makeSample ts value)))
    ∧ ∀ samples, ValidTimes samples →
      ∃ results s', s.mergeSamplesDeferringRetention samples override = (.ok results, s')
        ∧ ((∀ r ∈ results, r.Reports s') ↔ s.isCompressed = true
            ∨ ∀ group ∈ s.groupSamplesByChunk (s.normalizeBatch samples override).toInsert,
                ∀ x, group.samples = [x] →
                  ¬ ((s.sampleDuplicates.resolvePolicy override).outcome s.samples x).OtherValue x) :=
  ⟨fun _ value hts => h.add_reports_iff hts value override, fun _ hvalid => h.merge_reports_iff hvalid override⟩

end Series

end ValkeyTimeSeries

namespace ValkeyTimeSeries

open List

/-- A chunk that keeps its sample answers a merge with the sample stored and an upsert with the
sample given. -/
theorem mergeSamples_differs_upsertEach :
    letI := oneTenth
    letI := plainFloats
    (oneSample .gorilla).Ok ∧ (oneSample .gorilla).samples = [⟨10, 0⟩]
      ∧ (oneSample .gorilla).observe (.mergeSamples [⟨10, 5⟩] (some .keepFirst))
          = .ok (.outcomes [.ok ⟨10, 0⟩], [⟨10, 0⟩])
      ∧ (TimeSeriesChunk.upsertEach .keepFirst [⟨10, 5⟩] (oneSample .gorilla)).1 = [.ok ⟨10, 5⟩]
      ∧ (TimeSeriesChunk.upsertEach .keepFirst [⟨10, 5⟩] (oneSample .gorilla)).2.samples = [⟨10, 0⟩] :=
  letI := oneTenth
  letI := plainFloats
  ⟨(oneSample_becomes .gorilla).ok, (oneSample_becomes .gorilla).samples_eq, by decide +kernel⟩

/-- Two samples at new timestamps. -/
theorem mergeSamples_eq_upsertEach_iff_new :
    letI := oneTenth
    letI := plainFloats
    ∃ results c', (oneSample .gorilla).mergeSamples [⟨5, 4⟩, ⟨20, 5⟩] none = .ok (results, c')
      ∧ results = (TimeSeriesChunk.upsertEach .keepLast [⟨5, 4⟩, ⟨20, 5⟩] (oneSample .gorilla)).1 :=
  letI := oneTenth
  letI := plainFloats
  have hmerge : (oneSample .gorilla).observe (.mergeSamples [⟨5, 4⟩, ⟨20, 5⟩] none)
      = .ok (.outcomes [.ok ⟨5, 4⟩, .ok ⟨20, 5⟩], [⟨5, 4⟩, ⟨10, 0⟩, ⟨20, 5⟩]) := by decide +kernel
  have hfirst : (oneSample .gorilla).observe (.upsertSample ⟨5, 4⟩ .keepLast)
      = .ok (.count 2, [⟨5, 4⟩, ⟨10, 0⟩]) := by decide +kernel
  have hsecond : ((oneSample .gorilla).upsert ⟨5, 4⟩ .keepLast).2.observe (.upsertSample ⟨20, 5⟩ .keepLast)
      = .ok (.count 3, [⟨5, 4⟩, ⟨10, 0⟩, ⟨20, 5⟩]) := by decide +kernel
  have ⟨results, c', heq, _, _, hiff⟩ := TimeSeriesChunk.mergeSamples_eq_upsertEach_iff (oneSample .gorilla)
    (oneSample_becomes .gorilla).ok [⟨5, 4⟩, ⟨20, 5⟩] ⟨by decide, by decide⟩ none
    (fun capacity h => by rw [hmerge] at h; cases h)
    ⟨(fun capacity h => by rw [Option.getD_none, hfirst] at h; cases h),
      (fun capacity h => by rw [Option.getD_none, hsecond] at h; cases h), trivial⟩
  ⟨results, c', heq, hiff.mpr (.inr (by decide +kernel))⟩

/-- With `KEEP_FIRST` the old values stay, and the new ones are reported. -/
theorem ok_not_stored :
    letI := oneTenth
    letI := TimeSeries.defaultEnv
    TimeSeries.untrimmed.WF
      ∧ (TimeSeries.untrimmed.addDeferringRetention 150 5 (some .keepFirst)).1 = .ok ⟨150, 5⟩
      ∧ (TimeSeries.untrimmed.addDeferringRetention 150 5 (some .keepFirst)).2.getSample 150 = .ok (some ⟨150, 3⟩)
      ∧ (TimeSeries.untrimmed.mergeSamplesDeferringRetention [⟨100, 5⟩] (some .keepFirst)).1 = .ok [.ok ⟨100, 5⟩]
      ∧ (TimeSeries.untrimmed.mergeSamplesDeferringRetention [⟨100, 5⟩] (some .keepFirst)).2.getSample 100
          = .ok (some ⟨100, 2⟩) :=
  ⟨TimeSeries.untrimmed_wf, by decide +kernel⟩

/-- Two samples of one chunk are reported as they are stored. -/
theorem ok_reports_stored_iff_untrimmed :
    letI := oneTenth
    letI := TimeSeries.defaultEnv
    (TimeSeries.untrimmed.addDeferringRetention 160 5 none).1.Reports
        (TimeSeries.untrimmed.addDeferringRetention 160 5 none).2
      ∧ ∃ results s', TimeSeries.untrimmed.mergeSamplesDeferringRetention [⟨60, 4⟩, ⟨100, 5⟩] none
          = (.ok results, s') ∧ ∀ r ∈ results, r.Reports s' :=
  letI := oneTenth
  letI := TimeSeries.defaultEnv
  have ⟨hadd, hmerge⟩ := ok_reports_stored_iff TimeSeries.untrimmed TimeSeries.untrimmed_wf none
  have ⟨results, s', heq, hiff⟩ := hmerge [⟨60, 4⟩, ⟨100, 5⟩] (by decide)
  ⟨(hadd 160 5 (by decide)).mpr (.inr (.inr (by decide +kernel))), results, s', heq,
    hiff.mpr (.inr (by
      have hgroups : TimeSeries.untrimmed.groupSamplesByChunk
          (TimeSeries.untrimmed.normalizeBatch [⟨60, 4⟩, ⟨100, 5⟩] none).toInsert
            = [⟨.existingIdx 0, [⟨60, 4⟩, ⟨100, 5⟩]⟩] := by decide +kernel
      rw [hgroups]
      intro group hgroup x hone
      rw [mem_singleton.mp hgroup] at hone
      cases hone))⟩

end ValkeyTimeSeries
