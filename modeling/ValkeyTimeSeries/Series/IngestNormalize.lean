/-
Series/IngestNormalize.lean

What a batch goes through before it is merged, `series/ingest_normalize.rs`.

Design.  Each step of the walk gives a verdict, and the three vectors of the source are read off the verdicts.
The retention gate is decided beforehand, in input order.
-/
import ValkeyTimeSeries.Series.TimeSeries

namespace ValkeyTimeSeries

open List

/-- A sample of a batch, with its place there and what the retention gate says. -/
structure BatchItem where
  index : Nat
  sample : Sample
  tooOld : Bool
deriving DecidableEq, Repr

inductive Verdict where
  | duplicate
  | tooOld
  | ignored (timestamp : Int)
  | insert (sample : Sample)
deriving DecidableEq, Repr

def Verdict.result : Verdict → Option SampleAddResult
  | .duplicate => some .duplicate
  | .tooOld => some .tooOld
  | .ignored timestamp => some (.ignored timestamp)
  | .insert _ => none

def Verdict.inserted : Verdict → Option Sample
  | .insert sample => some sample
  | _ => none

structure NormalizeState where
  runningLast : Option Sample
  prevTs : Option Int
deriving DecidableEq, Repr

structure NormalizedBatch where
  toInsert : List Sample
  insertIndex : List Nat
  results : List SampleAddResult
deriving DecidableEq, Repr

/-- Results written to their slots one after the other. -/
def splice (results : List SampleAddResult) (slots : List (Nat × SampleAddResult)) :
    List SampleAddResult :=
  slots.foldl (fun results slot => results.set slot.1 slot.2) results

/-- A running maximum that advances with the items it lets through. -/
def gateLoop (retention : Retention) : Option Int → List Sample → List Bool
  | _, [] => []
  | none, sample :: samples => false :: gateLoop retention (some sample.timestamp) samples
  | some newest, sample :: samples =>
    if sample.timestamp < saturatingSub newest retention.val then
      true :: gateLoop retention (some newest) samples
    else false :: gateLoop retention (some (max newest sample.timestamp)) samples

def processingOrder (items : List BatchItem) : List BatchItem :=
  if items.Pairwise fun a b => a.sample.timestamp ≤ b.sample.timestamp then items
  else items.insertionSort fun a b => a.sample.timestamp ≤ b.sample.timestamp

namespace TimeSeries

variable (s : TimeSeries)

def retentionGate (samples : List Sample) : List Bool :=
  if s.retention = 0 then samples.map fun _ => false
  else gateLoop s.retention (if s.isEmpty then none else some s.lastTimestamp) samples

def batchItems (samples : List Sample) : List BatchItem :=
  ((samples.zip (s.retentionGate samples)).zipIdx).map fun item => ⟨item.2, item.1.1, item.1.2⟩

variable [Env]

def normalizeStep (policyOverride : Option DuplicatePolicy) (st : NormalizeState) (item : BatchItem) :
    Verdict × NormalizeState :=
  let ts := item.sample.timestamp
  if st.prevTs = some ts then (.duplicate, st)
  else if item.tooOld then (.tooOld, { st with prevTs := some ts })
  else
    let adjusted := s.makeSample ts item.sample.value
    match st.runningLast with
    | none => (.insert adjusted, ⟨some adjusted, some ts⟩)
    | some last =>
      -- only samples in order are ignored, and only they move the running last sample
      if ts ≥ last.timestamp ∧ s.sampleDuplicates.isDuplicate adjusted last policyOverride then
        (.ignored last.timestamp, { st with prevTs := some ts })
      else (.insert adjusted, ⟨if ts ≥ last.timestamp then some adjusted else some last, some ts⟩)

def normalizeLoop (policyOverride : Option DuplicatePolicy) :
    NormalizeState → List BatchItem → List Verdict
  | _, [] => []
  | st, item :: items =>
    let r := s.normalizeStep policyOverride st item
    r.1 :: normalizeLoop policyOverride r.2 items

def normalizeBatch (samples : List Sample) (policyOverride : Option DuplicatePolicy) : NormalizedBatch :=
  let items := processingOrder (s.batchItems samples)
  let verdicts := s.normalizeLoop policyOverride ⟨s.lastSample, none⟩ items
  let indexed := (items.map (·.index)).zip verdicts
  { toInsert := verdicts.filterMap (·.inserted)
    insertIndex := indexed.filterMap fun p => p.2.inserted.map fun _ => p.1
    results := splice (samples.map fun _ => .error "Unknown error")
      (indexed.filterMap fun p => p.2.result.map fun r => (p.1, r)) }

end TimeSeries

/-! ### The order -/

theorem processingOrder_perm (items : List BatchItem) : (processingOrder items).Perm items := by
  unfold processingOrder
  split
  · exact .refl _
  · exact perm_insertionSort ..

theorem processingOrder_sorted (items : List BatchItem) :
    (processingOrder items).Pairwise fun a b => a.sample.timestamp ≤ b.sample.timestamp := by
  unfold processingOrder
  split
  · rename_i h
    exact h
  · have htotal : Std.Total fun a b : BatchItem => a.sample.timestamp ≤ b.sample.timestamp :=
      ⟨fun a b => le_total _ _⟩
    exact pairwise_insertionSort ..

namespace TimeSeries

variable {s : TimeSeries}

theorem length_gateLoop (retention : Retention) (newest : Option Int) (samples : List Sample) :
    (gateLoop retention newest samples).length = samples.length := by
  induction samples generalizing newest with
  | nil => cases newest <;> rfl
  | cons x xs ih =>
    cases newest with
    | none => exact congrArg (· + 1) (ih _)
    | some t =>
      rw [gateLoop]
      split <;> exact congrArg (· + 1) (ih _)

theorem length_retentionGate (samples : List Sample) : (s.retentionGate samples).length = samples.length := by
  unfold retentionGate
  split
  · exact length_map ..
  · exact length_gateLoop ..

theorem batchItems_sample (samples : List Sample) : (s.batchItems samples).map (·.sample) = samples := by
  have hfst : (fun item : (Sample × Bool) × Nat => item.1.1) = Prod.fst ∘ Prod.fst := rfl
  rw [batchItems, map_map]
  change List.map (fun item : (Sample × Bool) × Nat => item.1.1) _ = _
  rw [hfst, ← map_map, zipIdx_map_fst, map_fst_zip (length_retentionGate samples).ge]

theorem batchItems_index (samples : List Sample) :
    (s.batchItems samples).map (·.index) = List.range samples.length := by
  rw [batchItems, map_map]
  change List.map Prod.snd _ = _
  rw [zipIdx_map_snd, length_zip, length_retentionGate, min_self, range_eq_range']

variable [Env] {override : Option DuplicatePolicy} {st : NormalizeState} {item : BatchItem}
  {items : List BatchItem}

/-! ### The walk -/

theorem normalizeStep_prevTs : (s.normalizeStep override st item).2.prevTs = some item.sample.timestamp := by
  unfold normalizeStep
  dsimp only
  split
  · rename_i h
    exact h
  · split
    · rfl
    · split
      · rfl
      · split <;> rfl

variable {x : Sample}

/-- A sample is inserted adjusted, and only where it is not too old and its timestamp is not
the previous one. -/
theorem normalizeStep_inserted (h : (s.normalizeStep override st item).1.inserted = some x) :
    x = s.makeSample item.sample.timestamp item.sample.value ∧ item.tooOld = false
    ∧ st.prevTs ≠ some item.sample.timestamp := by
  unfold normalizeStep at h
  dsimp only at h
  split at h
  · cases h
  · rename_i hprev
    split at h
    · cases h
    · rename_i hold
      refine ⟨?_, by simpa using hold, hprev⟩
      split at h
      · exact (Option.some.inj h).symm
      · split at h
        · cases h
        · exact (Option.some.inj h).symm

/-- **Run lemma.**  In ascending order, what is inserted comes from the batch, after the
previous timestamp, and no timestamp is inserted twice. -/
theorem normalizeLoop_inserted (override : Option DuplicatePolicy) (st : NormalizeState)
    (hsorted : items.Pairwise fun a b => a.sample.timestamp ≤ b.sample.timestamp)
    (hprev : ∀ t, st.prevTs = some t → ∀ item ∈ items, t ≤ item.sample.timestamp) :
    Increasing ((s.normalizeLoop override st items).filterMap (·.inserted))
    ∧ ∀ x ∈ (s.normalizeLoop override st items).filterMap (·.inserted),
    (∃ item ∈ items, item.tooOld = false ∧ x = s.makeSample item.sample.timestamp item.sample.value)
    ∧ ∀ t, st.prevTs = some t → t < x.timestamp := by
  induction items generalizing st with
  | nil => exact ⟨List.Pairwise.nil, fun x hx => absurd hx not_mem_nil⟩
  | cons item items ih =>
    obtain ⟨hitem, hitems⟩ := pairwise_cons.mp hsorted
    obtain ⟨hinc, hmem⟩ := ih (s.normalizeStep override st item).2 hitems
      (fun t ht other hother => by
        rw [normalizeStep_prevTs] at ht
        rw [← Option.some.inj ht]
        exact hitem other hother)
    -- the rest of the walk is after this item
    have hlater : ∀ x ∈ (s.normalizeLoop override (s.normalizeStep override st item).2 items).filterMap
        (·.inserted), item.sample.timestamp < x.timestamp :=
      fun x hx => (hmem x hx).2 _ normalizeStep_prevTs
    have hle (t : Int) (ht : st.prevTs = some t) : t ≤ item.sample.timestamp :=
      hprev t ht item mem_cons_self
    rw [normalizeLoop]
    cases hv : (s.normalizeStep override st item).1.inserted with
    | none =>
      rw [filterMap_cons_none hv]
      refine ⟨hinc, fun x hx => ?_⟩
      obtain ⟨other, hother, heq⟩ := (hmem x hx).1
      exact ⟨⟨other, mem_cons_of_mem _ hother, heq⟩, fun t ht => (hle t ht).trans_lt (hlater x hx)⟩
    | some a =>
      obtain ⟨rfl, hold, hne⟩ := normalizeStep_inserted hv
      rw [filterMap_cons_some hv]
      refine ⟨pairwise_cons.mpr ⟨hlater, hinc⟩, fun x hx => ?_⟩
      rcases mem_cons.mp hx with rfl | hx
      · refine ⟨⟨item, mem_cons_self, hold, rfl⟩, fun t ht => lt_of_le_of_ne (hle t ht) ?_⟩
        rintro rfl
        exact hne ht
      · obtain ⟨other, hother, heq⟩ := (hmem x hx).1
        exact ⟨⟨other, mem_cons_of_mem _ hother, heq⟩, fun t ht => (hle t ht).trans_lt (hlater x hx)⟩

/-- What is inserted of a batch is in strictly ascending order, and is made from items that
the retention gate let through. -/
theorem normalizeBatch_inserted (samples : List Sample) : Increasing (s.normalizeBatch samples override).toInsert
    ∧ ∀ x ∈ (s.normalizeBatch samples override).toInsert, ∃ item ∈ s.batchItems samples,
    item.tooOld = false ∧ x = s.makeSample item.sample.timestamp item.sample.value := by
  obtain ⟨hinc, hmem⟩ := normalizeLoop_inserted (s := s) override ⟨s.lastSample, none⟩
    (processingOrder_sorted (s.batchItems samples)) (fun t ht => by cases ht)
  refine ⟨hinc, fun x hx => ?_⟩
  obtain ⟨⟨item, hitem, hold, heq⟩, -⟩ := hmem x hx
  exact ⟨item, (processingOrder_perm _).subset hitem, hold, heq⟩

variable {samples : List Sample}

theorem normalizeBatch_adjusted (hx : x ∈ (s.normalizeBatch samples override).toInsert) :
    ∃ y ∈ samples, x = s.makeSample y.timestamp y.value := by
  obtain ⟨item, hitem, -, heq⟩ := (normalizeBatch_inserted samples).2 x hx
  have hsample := mem_map_of_mem (f := BatchItem.sample) hitem
  rw [batchItems_sample] at hsample
  exact ⟨item.sample, hsample, heq⟩

theorem normalizeBatch_mem (hx : x ∈ (s.normalizeBatch samples override).toInsert) : ∃ y ∈ samples, y.timestamp =
    x.timestamp := by
  obtain ⟨y, hy, rfl⟩ := normalizeBatch_adjusted hx
  exact ⟨y, hy, rfl⟩

theorem normalizeBatch_run (override : Option DuplicatePolicy) (h : ValidTimes samples) :
    SampleRun (s.normalizeBatch samples override).toInsert := by
  refine ⟨fun x hx => ?_, (normalizeBatch_inserted samples).1⟩
  obtain ⟨y, hy, heq⟩ := normalizeBatch_mem hx
  rw [← heq]
  exact h y hy

/-! ### The gate -/

omit [Env] in
/-- The gate lets nothing through that is older than the window of the newest sample. -/
theorem gateLoop_passed {retention : Retention} {newest : Int}
    (h : (x, false) ∈ samples.zip (gateLoop retention (some newest) samples)) :
    saturatingSub newest retention.val ≤ x.timestamp := by
  induction samples generalizing newest with
  | nil => cases h
  | cons y samples ih =>
    rw [gateLoop] at h
    split at h
    · rcases mem_cons.mp h with heq | h
      · cases heq
      · exact ih h
    · rcases mem_cons.mp h with heq | h
      · rw [(Prod.mk.inj heq).1]
        omega
      · have := ih h
        rw [saturatingSub] at this ⊢
        omega

theorem normalizeBatch_gate {last : Sample} (hret : s.retention ≠ 0)
    (hlast : s.lastSample = some last) (hne : s.isEmpty = false)
    (hx : x ∈ (s.normalizeBatch samples override).toInsert) :
    saturatingSub last.timestamp s.retention.val ≤ x.timestamp := by
  obtain ⟨item, hitem, hold, heq⟩ := (normalizeBatch_inserted samples).2 x hx
  obtain ⟨⟨⟨y, flag⟩, i⟩, hmem, rfl⟩ := mem_map.mp hitem
  have hzip := mem_map_of_mem (f := Prod.fst) hmem
  have hflag : flag = false := hold
  have hnewest : s.lastTimestamp = last.timestamp := by rw [lastTimestamp, hlast]; rfl
  rw [zipIdx_map_fst, hflag, retentionGate, if_neg hret, hne, if_neg Bool.false_ne_true, hnewest] at hzip
  rw [heq]
  change _ ≤ y.timestamp
  exact gateLoop_passed hzip

/-- The normalization reads the settings and the newest sample. -/
theorem normalizeBatch_congr (override : Option DuplicatePolicy) {s' : TimeSeries} (hret : s'.retention = s.retention)
    (hdup : s'.sampleDuplicates = s.sampleDuplicates) (hround : s'.rounding = s.rounding)
    (hlast : s'.lastSample = s.lastSample) (hempty : s'.isEmpty = s.isEmpty) (samples : List Sample) :
    s'.normalizeBatch samples override = s.normalizeBatch samples override := by
  have hmake : s'.makeSample = s.makeSample := by
    funext ts value
    simp only [makeSample, adjustValue, hround]
  have hstep : s'.normalizeStep override = s.normalizeStep override := by
    funext st item
    simp only [normalizeStep, hmake, hdup]
  have hloop (st : NormalizeState) (items : List BatchItem) :
      s'.normalizeLoop override st items = s.normalizeLoop override st items := by
    induction items generalizing st with
    | nil => rfl
    | cons item items ih => rw [normalizeLoop, normalizeLoop, hstep, ih]
  have hitems : s'.batchItems samples = s.batchItems samples := by
    simp only [batchItems, retentionGate, lastTimestamp, hret, hlast, hempty]
  simp only [normalizeBatch, hitems, hloop, hlast]

/-! ### Without IGNORE -/

/-- Without IGNORE only a sample at the timestamp of the newest one is ignored. -/
theorem isDuplicate_timestamp (hdelta : s.sampleDuplicates.maxTimeDelta = 0) {last : Sample}
    (h : s.sampleDuplicates.isDuplicate x last override = true) : x.timestamp = last.timestamp := by
  unfold SampleDuplicatePolicy.isDuplicate at h
  rw [hdelta] at h
  dsimp only at h
  split at h
  · rename_i htime
    have hle : x.timestamp - last.timestamp ≤ 0 := htime.2
    omega
  · cases h

/-- A sample at a new timestamp inside the window is inserted, or ignored for the running last one. -/
theorem normalizeStep_cases (override : Option DuplicatePolicy) (st : NormalizeState) {item : BatchItem}
    (hprev : st.prevTs ≠ some item.sample.timestamp) (hold : item.tooOld = false) :
    let adjusted := s.makeSample item.sample.timestamp item.sample.value
    let r := s.normalizeStep override st item
    (r.1 = .insert adjusted ∧ (r.2.runningLast = some adjusted ∨ r.2.runningLast = st.runningLast))
    ∨ ∃ last, st.runningLast = some last ∧ last.timestamp ≤ item.sample.timestamp
    ∧ s.sampleDuplicates.isDuplicate adjusted last override = true ∧ r.2.runningLast = st.runningLast := by
  rw [normalizeStep, if_neg hprev, hold, if_neg Bool.false_ne_true]
  cases hlast : st.runningLast with
  | none => exact .inl ⟨rfl, .inl rfl⟩
  | some last =>
    dsimp only
    split
    · rename_i hign
      exact .inr ⟨last, rfl, hign.1, hign.2, rfl⟩
    · refine .inl ⟨rfl, ?_⟩
      split
      · exact .inl rfl
      · exact .inr rfl

/-- Without IGNORE a walk over different timestamps inserts every item but one that repeats
the newest stored sample. -/
theorem normalizeLoop_inserts (override : Option DuplicatePolicy) (hdelta : s.sampleDuplicates.maxTimeDelta = 0)
    (st : NormalizeState) (hsorted : items.Pairwise fun a b => a.sample.timestamp < b.sample.timestamp)
    (hold : ∀ item ∈ items, item.tooOld = false)
    (hprev : ∀ t, st.prevTs = some t → ∀ item ∈ items, t < item.sample.timestamp)
    (hlast : ∀ last, st.runningLast = some last →
    s.lastSample = some last ∨ ∀ item ∈ items, last.timestamp < item.sample.timestamp)
    {item : BatchItem} (hitem : item ∈ items) :
    s.makeSample item.sample.timestamp item.sample.value ∈ (s.normalizeLoop override st items).filterMap (·.inserted)
    ∨ ∃ last, s.lastSample = some last ∧ last.timestamp ≤ item.sample.timestamp
    ∧ s.sampleDuplicates.isDuplicate (s.makeSample item.sample.timestamp item.sample.value) last override = true := by
  induction items generalizing st with
  | nil => cases hitem
  | cons first items ih =>
    obtain ⟨hfirst, hitems⟩ := pairwise_cons.mp hsorted
    have hstep := normalizeStep_cases (s := s) override st
      (fun heq => lt_irrefl _ (hprev _ heq first mem_cons_self)) (hold first mem_cons_self)
    have hprevTs : (s.normalizeStep override st first).2.prevTs = some first.sample.timestamp := normalizeStep_prevTs
    rw [normalizeLoop]
    generalize s.normalizeStep override st first = r at hstep hprevTs ⊢
    obtain ⟨v, st'⟩ := r
    rcases mem_cons.mp hitem with rfl | hmem
    · rcases hstep with ⟨rfl, -⟩ | ⟨last, hrunning, hle, hdup, -⟩
      · exact .inl mem_cons_self
      · refine .inr ⟨last, (hlast last hrunning).resolve_right fun hlt => ?_, hle, hdup⟩
        have hts : item.sample.timestamp = last.timestamp :=
          isDuplicate_timestamp (x := s.makeSample item.sample.timestamp item.sample.value) hdelta hdup
        have := hlt item mem_cons_self
        omega
    · have hkeep : st'.runningLast = st.runningLast → ∀ last, st'.runningLast = some last →
          s.lastSample = some last ∨ ∀ item ∈ items, last.timestamp < item.sample.timestamp := by
        intro heq last hl
        exact (hlast last (heq ▸ hl)).imp_right fun hlt other hother => hlt other (mem_cons_of_mem _ hother)
      have hrest := ih st' hitems (fun other hother => hold other (mem_cons_of_mem _ hother))
        (fun t ht other hother => by
          rw [hprevTs] at ht
          rw [← Option.some.inj ht]
          exact hfirst other hother)
        (by
          rcases hstep with ⟨-, heq | heq⟩ | ⟨-, -, -, -, heq⟩
          · intro last hl
            rw [heq] at hl
            rw [← Option.some.inj hl]
            exact .inr hfirst
          · exact hkeep heq
          · exact hkeep heq)
        hmem
      refine hrest.imp_left fun hin => ?_
      rw [filterMap_cons]
      split
      · exact hin
      · exact mem_cons_of_mem _ hin

/-- Without IGNORE and retention a batch of different timestamps is inserted, but for an item
that repeats the newest stored sample. -/
theorem normalizeBatch_inserts (override : Option DuplicatePolicy) (hdelta : s.sampleDuplicates.maxTimeDelta = 0)
    (hret : s.retention = 0) (hnodup : (samples.map (·.timestamp)).Nodup) (hx : x ∈ samples) :
    s.makeSample x.timestamp x.value ∈ (s.normalizeBatch samples override).toInsert
    ∨ ∃ last, s.lastSample = some last ∧ last.timestamp ≤ x.timestamp
    ∧ s.sampleDuplicates.isDuplicate (s.makeSample x.timestamp x.value) last override = true := by
  have hperm := processingOrder_perm (s.batchItems samples)
  have hdist : ((processingOrder (s.batchItems samples)).map fun item => item.sample.timestamp).Nodup := by
    refine (hperm.map _).nodup_iff.mpr ?_
    have hmap := congrArg (List.map Sample.timestamp) (batchItems_sample (s := s) samples)
    rw [map_map] at hmap
    exact hmap ▸ hnodup
  have hsorted : (processingOrder (s.batchItems samples)).Pairwise fun a b =>
      a.sample.timestamp < b.sample.timestamp :=
    ((processingOrder_sorted (s.batchItems samples)).and (pairwise_map.mp hdist)).imp
      fun h => lt_of_le_of_ne h.1 h.2
  have hmem : x ∈ (s.batchItems samples).map (·.sample) := by rwa [batchItems_sample]
  obtain ⟨item, hitem, rfl⟩ := mem_map.mp hmem
  refine normalizeLoop_inserts override hdelta ⟨s.lastSample, none⟩ hsorted (fun other hother => ?_)
    (fun t ht => by cases ht) (fun last hl => .inl hl) (hperm.mem_iff.mpr hitem)
  obtain ⟨⟨⟨y, flag⟩, i⟩, hzip, rfl⟩ := mem_map.mp (hperm.mem_iff.mp hother)
  have hzip := mem_map_of_mem (f := Prod.fst) hzip
  rw [zipIdx_map_fst, retentionGate, if_pos hret] at hzip
  obtain ⟨-, -, rfl⟩ := mem_map.mp (of_mem_zip hzip).2
  rfl

end TimeSeries

end ValkeyTimeSeries
