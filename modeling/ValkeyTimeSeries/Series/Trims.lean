/-
Series/Trims.lean

What trimming is visible of: nothing.

Design.  A series may keep expired samples, and how many depends on when it was trimmed. `perform` is one call
with its answer, and `trace` the answers of a sequence of calls in which trims are answered by nothing.  Two
series are `Alike` when they show the same samples; a series of uncompressed chunks is always trimmed exactly,
so two of them that are alike are equal.
-/
import ValkeyTimeSeries.Series.Run
import ValkeyTimeSeries.Series.TimestampFilter

namespace ValkeyTimeSeries

open List

namespace TimeSeries

inductive Read where
  | getRange (start endTs : Int)
  | rangeIter (start endTs : Int)
  | revRangeIter (start endTs : Int)
  | getRangeFiltered (start endTs : Int) (timestampFilter : Option (List Int)) (valueFilter : Option ValueFilter)
  | timestampFilterIterator (timestamps : List Int) (isReverse : Bool)
  | visibleFirstTimestamp
  | visibleTotalSamples
  | hasSamplesInRange (start endTs : Int)

/-- A write, a read, or a trim. -/
inductive Event where
  | add (ts : Int) (value : F64) (dpOverride : Option DuplicatePolicy)
  | mergeSamples (samples : List Sample) (policyOverride : Option DuplicatePolicy)
  | removeRange (startTs endTs : Int)
  | read (read : Read)
  | trim
  | trimLazily

inductive Answer where
  | added (result : SampleAddResult)
  | merged (results : Except TsdbError (List SampleAddResult))
  | removed (count : Except TsdbError Nat)
  | samples (samples : List Sample)
  | timestamp (ts : Int)
  | count (n : Nat)
  | flag (b : Bool)

namespace Event

def isTrim : Event → Bool
  | .trim | .trimLazily => true
  | _ => false

def Valid : Event → Prop
  | .add ts _ _ => ValidTs ts
  | .mergeSamples samples _ => ValidTimes samples
  | .removeRange startTs endTs => ValidTs startTs ∧ ValidTs endTs
  | .read _ | .trim | .trimLazily => True

instance (e : Event) : Decidable e.Valid :=
  match e with
  | .add ts _ _ => inferInstanceAs (Decidable (ValidTs ts))
  | .mergeSamples samples _ => inferInstanceAs (Decidable (∀ x ∈ samples, ValidTs x.timestamp))
  | .removeRange _ _ => inferInstanceAs (Decidable (_ ∧ _))
  | .read _ | .trim | .trimLazily => inferInstanceAs (Decidable True)

/-- The timestamps that a call offers samples for. -/
def offered : Event → List Int
  | .add ts _ _ => [ts]
  | .mergeSamples samples _ => samples.map (·.timestamp)
  | _ => []

end Event

variable [DecimalHelpers] [Env]

omit [Env] in
def answer (s : TimeSeries) : Read → Answer
  | .getRange start endTs => .samples (s.getRange start endTs)
  | .rangeIter start endTs => .samples (s.rangeIter start endTs)
  | .revRangeIter start endTs => .samples (s.revRangeIter start endTs)
  | .getRangeFiltered start endTs timestampFilter valueFilter =>
    .samples (s.getRangeFiltered start endTs timestampFilter valueFilter)
  | .timestampFilterIterator timestamps isReverse =>
    .samples (s.timestampFilterIterator timestamps isReverse)
  | .visibleFirstTimestamp => .timestamp s.visibleFirstTimestamp
  | .visibleTotalSamples => .count s.visibleTotalSamples
  | .hasSamplesInRange start endTs => .flag (s.hasSamplesInRange start endTs)

def perform (s : TimeSeries) : Event → Option Answer × TimeSeries
  | .add ts value dpOverride =>
    let r := s.add ts value dpOverride
    (some (.added r.1), r.2)
  | .mergeSamples samples policyOverride =>
    let r := s.mergeSamples samples policyOverride
    (some (.merged r.1), r.2)
  | .removeRange startTs endTs =>
    let r := s.removeRange startTs endTs
    (some (.removed (Prod.fst <$> r)), s.orKeep r)
  | .read read => (some (s.answer read), s)
  | .trim => (none, s.orKeep s.trim)
  | .trimLazily => (none, s.orKeep s.trimLazily)

def trace (s : TimeSeries) : List Event → List Answer
  | [] => []
  | e :: events => (s.perform e).1.toList ++ (s.perform e).2.trace events

def after (s : TimeSeries) (events : List Event) : TimeSeries := events.foldl (fun s e => (s.perform e).2) s

variable {s s' : TimeSeries}

/-! ### What the calls do to the visible samples -/

omit [Env] in
theorem WF.samples_eq_append (h : s.WF) :
    ∃ expired, s.samples = expired ++ s.visible ∧ ∀ x ∈ expired, x.timestamp < s.getMinTimestamp := by
  refine ⟨_, h.run.increasing.sorted.split s.getMinTimestamp, fun x hx => ?_⟩
  simpa using (mem_filter.mp hx).2

omit [Env] in
theorem not_overflows_of_compressed (h : s.WF) (henc : s.chunkEncoding ≠ .uncompressed) (ts : Int) :
    ¬ s.Overflows ts := by
  rintro ⟨c, hc, hbetween⟩
  have hkind := h.encoding c hc
  cases c with
  | uncompressed c => exact henc hkind.symm
  | gorilla c => exact hbetween
  | chimp c => exact hbetween

omit [DecimalHelpers] [Env] in
theorem window_append_of_lt {retention : Retention} {expired l : List Sample} {last : Sample}
    (hret : retention ≠ 0) (hlast : l.getLast? = some last)
    (h : ∀ x ∈ expired, x.timestamp < windowStart retention last) :
    window retention (expired ++ l) = window retention l := by
  have hcat : (expired ++ l).getLast? = some last := by
    rw [getLast?_append, hlast]
    rfl
  rw [window, if_neg hret, hcat, window, if_neg hret, hlast]
  dsimp only
  rw [filter_append, filter_eq_nil_iff.mpr, nil_append]
  intro x hx
  simpa using h x hx

omit [DecimalHelpers] in
theorem mem_timestamps_putAll {policy : DuplicatePolicy} {samples l : List Sample} (h : Increasing l) {ts : Int} :
    ts ∈ (policy.putAll samples l).map (·.timestamp) ↔ ts ∈ samples.map (·.timestamp) ∨ ts ∈ l.map (·.timestamp) :=
  SortedList.mem_map_putAll h fun _ _ _ hc => DuplicatePolicy.combine_timestamp hc

theorem WF.normalizeBatch_visible (h : s.WF) {samples : List Sample} (hvalid : ValidTimes samples)
    (override : Option DuplicatePolicy) : ∃ expired, s.samples = expired ++ s.visible
    ∧ (∀ x ∈ (s.normalizeBatch samples override).toInsert, ∀ b ∈ expired, b.timestamp < x.timestamp)
    ∧ window s.retention ((s.sampleDuplicates.resolvePolicy override).putAll
    (s.normalizeBatch samples override).toInsert s.samples)
    = window s.retention ((s.sampleDuplicates.resolvePolicy override).putAll
    (s.normalizeBatch samples override).toInsert s.visible) := by
  have hrun := normalizeBatch_run (s := s) override hvalid
  by_cases hall : s.visible = s.samples
  · -- nothing has expired
    exact ⟨[], by rw [hall]; rfl, by simp, by rw [hall]⟩
  have hret : s.retention ≠ 0 := fun hret => hall (by rw [h.visible_eq, window, if_pos hret])
  rcases eq_nil_or_concat s.samples with hnil | ⟨l, last, hl⟩
  · exact absurd (by rw [h.visible_eq, hnil, window_nil]) hall
  rw [concat_eq_append] at hl
  obtain ⟨expired, hsplit, hexpired⟩ := h.samples_eq_append
  have hmin := h.getMinTimestamp_concat hret hl
  have hlast : s.lastSample = some last := by rw [h.last, hl, getLast?_concat]
  have hempty : s.isEmpty = false := by
    rw [h.isEmpty_eq, hl]
    simp
  have hbefore : ∀ x ∈ (s.normalizeBatch samples override).toInsert, ∀ b ∈ expired,
      b.timestamp < x.timestamp := by
    intro x hx b hb
    have hge := normalizeBatch_gate hret hlast hempty hx
    have hb := hexpired b hb
    have hx := (hrun.times x hx).1
    have hmax := (h.run.times last (by rw [hl]; simp)).2
    rw [hmin, windowStart] at hb
    rw [saturatingSub] at hge
    omega
  refine ⟨expired, hsplit, hbefore, ?_⟩
  have hput : (s.sampleDuplicates.resolvePolicy override).putAll
      (s.normalizeBatch samples override).toInsert s.samples
        = expired ++ (s.sampleDuplicates.resolvePolicy override).putAll
            (s.normalizeBatch samples override).toInsert s.visible := by
    rw [hsplit]
    exact SortedList.putAll_append_of_lt hbefore
  have hvis : Increasing s.visible := h.run.increasing.sublist visible_sublist
  have hvisRun : SampleRun s.visible := h.run.sublist visible_sublist
  rw [hput]
  generalize hlist : (s.sampleDuplicates.resolvePolicy override).putAll
    (s.normalizeBatch samples override).toInsert s.visible = l'
  have hrun' : SampleRun l' := hlist ▸ hvisRun.putAll hrun.times
  -- the newest sample does not move back
  have hmem : last ∈ s.visible := mem_of_getLast? (h.getLast?_visible.trans hlast)
  have hts : last.timestamp ∈ l'.map (·.timestamp) :=
    hlist ▸ (mem_timestamps_putAll hvis).mpr (.inr (mem_map_of_mem hmem))
  obtain ⟨y, hy, hyts⟩ := mem_map.mp hts
  obtain ⟨l'', last', hl'⟩ := (eq_nil_or_concat l').resolve_left (ne_nil_of_mem hy)
  rw [concat_eq_append] at hl'
  have hle : last.timestamp ≤ last'.timestamp := by
    rw [hl'] at hrun' hy
    rw [← hyts]
    exact hrun'.le_last hy
  have hlast' : l'.getLast? = some last' := by rw [hl', getLast?_concat]
  refine window_append_of_lt hret hlast' fun x hx => ?_
  have hx := hexpired x hx
  rw [hmin, windowStart] at hx
  rw [windowStart]
  omega

theorem WF.mergeSamples_shows (h : s.WF) {samples : List Sample} (hvalid : ValidTimes samples)
    (override : Option DuplicatePolicy) :
    ∃ results s', s.mergeSamples samples override = (.ok results, s') ∧ s'.WF ∧ SameSettings s s'
    ∧ s'.visible = window s.retention ((s.sampleDuplicates.resolvePolicy override).putAll
    (s.normalizeBatch samples override).toInsert s.visible) ∧
    (s.chunkEncoding = .uncompressed → s'.visible = s'.samples)
    ∧ (s.isCompressed = true → results = splice (s.normalizeBatch samples override).results
    ((s.normalizeBatch samples override).insertIndex.zip ((s.normalizeBatch samples override).toInsert.map
    ((s.sampleDuplicates.resolvePolicy override).outcome s.visible)))) := by
  obtain ⟨results, s₁, s₂, heq, hspec, rfl⟩ := h.mergeSamples_spec hvalid override
  obtain ⟨expired, hsplit, hbefore, hwindow⟩ := h.normalizeBatch_visible hvalid override
  obtain ⟨hwf, hset, hvis, hexact⟩ := hspec.becomes.wf.applyRetention_visible
  refine ⟨results, _, heq, hwf, hspec.becomes.settings.trans hset, ?_, fun hunc => ?_, fun hcomp => ?_⟩
  · rw [hvis, hspec.becomes.visible_eq, hwindow]
  · exact hexact (hspec.becomes.settings.chunkEncoding.trans hunc)
  · have hans := hspec.answers
    have hres := hspec.results
    rw [hcomp] at hans hres
    rw [hres, answersAll_exact hans, hsplit]
    congr 2
    exact map_congr_left fun x hx => outcome_append_right (hbefore x hx)

omit [DecimalHelpers] in
theorem mem_windowAdd {retention : Retention} {duplicates : SampleDuplicatePolicy}
    {override : Option DuplicatePolicy} {sample : Sample} {l : List Sample} (h : Increasing l) {ts : Int}
    (hts : ts ∈ (windowAdd retention duplicates override sample l).2.map (·.timestamp)) :
    ts ∈ l.map (·.timestamp) ∨ ts = sample.timestamp := by
  unfold windowAdd at hts
  split at hts
  · exact .inr (by simpa using hts)
  · split at hts
    · exact .inl hts
    · split at hts
      · exact .inl hts
      · split at hts
        · rename_i l' hl'
          have hmem := (window_sublist.map Sample.timestamp).subset hts
          exact ((SortedList.mem_map_insertWith h (fun _ _ hc => DuplicatePolicy.combine_timestamp hc) hl').mp
            hmem).symm
        · exact .inl hts

omit [Env] in
theorem WF.trim_visible (h : s.WF) (force : Bool) :
    (s.orKeep (s.trimExpired force)).WF ∧ SameSettings s (s.orKeep (s.trimExpired force))
    ∧ (s.orKeep (s.trimExpired force)).visible = s.visible := by
  obtain ⟨count, s', heq, htrim⟩ := h.trimExpired_spec force
  have hvis := htrim.visible_eq h
  obtain ⟨-, -, hbecomes, -⟩ := htrim.becomes
  rw [heq]
  exact ⟨hbecomes.wf, hbecomes.settings, hvis⟩

omit [Env] in
theorem WF.trim_noop (h : s.WF) (hall : s.visible = s.samples) (force : Bool) :
    s.trimExpired force = .ok (0, s) := by
  have hfirst : s.getMinTimestamp ≤ s.firstTimestamp := by
    rw [h.first, headTs]
    cases hl : s.samples with
    | nil =>
      rw [getMinTimestamp, h.last, h.first, hl]
      split <;> exact le_rfl
    | cons x l =>
      have hx : x ∈ s.visible := by
        rw [hall, hl]
        exact mem_cons_self
      simpa using (mem_filter.mp hx).2
  exact if_pos hfirst

omit [Env] in
theorem WF.trim_exact (h : s.WF) (force : Bool) (hexact : s.chunkEncoding = .uncompressed → s.visible = s.samples) :
    (s.orKeep (s.trimExpired force)).WF ∧ SameSettings s (s.orKeep (s.trimExpired force)) ∧
    (s.chunkEncoding = .uncompressed →
    (s.orKeep (s.trimExpired force)).visible = (s.orKeep (s.trimExpired force)).samples) := by
  obtain ⟨hwf, hset, -⟩ := h.trim_visible force
  refine ⟨hwf, hset, fun hunc => ?_⟩
  rw [h.trim_noop (hexact hunc)]
  exact hexact hunc

/-- **Step lemma.**  Every sample that is visible after a call was visible before or is
offered by the call. -/
theorem WF.perform_visible (h : s.WF) {e : Event} (hvalid : e.Valid) {ts : Int}
    (hts : ts ∈ (s.perform e).2.visible.map (·.timestamp)) :
    ts ∈ s.visible.map (·.timestamp) ∨ ts ∈ e.offered := by
  have hvis : Increasing s.visible := h.run.increasing.sublist visible_sublist
  cases e with
  | add ts' value dpOverride =>
    have hspec := h.add_spec hvalid value dpOverride
    by_cases haway : s.TurnsAway ts'
    · exact .inl ((hspec.turnsAway haway).2 ▸ hts)
    · rw [show (s.perform (.add ts' value dpOverride)).2.visible = _ from
        congrArg Prod.snd (hspec.refines haway)] at hts
      rcases mem_windowAdd hvis hts with hmem | rfl
      · exact .inl hmem
      · exact .inr mem_cons_self
  | mergeSamples samples policyOverride =>
    obtain ⟨results, s', heq, -, -, hshown, -⟩ := h.mergeSamples_shows hvalid policyOverride
    rw [perform, heq] at hts
    rw [show s'.visible = _ from hshown] at hts
    rcases (mem_timestamps_putAll hvis).mp ((window_sublist.map Sample.timestamp).subset hts) with hmem | hmem
    · obtain ⟨x, hx, rfl⟩ := mem_map.mp hmem
      obtain ⟨y, hy, heq⟩ := normalizeBatch_mem hx
      exact .inr (mem_map.mpr ⟨y, hy, heq⟩)
    · exact .inl hmem
  | removeRange startTs endTs =>
    obtain ⟨count, s', heq, -, -, hshown, -⟩ := h.removeRange_spec startTs endTs
    rw [perform, heq] at hts
    rw [show (s.orKeep (.ok (count, s'))).visible = _ from hshown] at hts
    exact .inl ((filter_sublist.map Sample.timestamp).subset hts)
  | read read => exact .inl hts
  | trim => exact .inl ((h.trim_visible true).2.2 ▸ hts)
  | trimLazily => exact .inl ((h.trim_visible false).2.2 ▸ hts)

/-! ### Series that look alike -/

/-- Two series that show the same samples; the chunks are the same where they decide
outcomes. -/
structure Alike (s s' : TimeSeries) : Prop where
  wf : s.WF
  wf' : s'.WF
  settings : SameSettings s s'
  visible_eq : s'.visible = s.visible
  exact : s.chunkEncoding = .uncompressed → s.visible = s.samples
  same : s.chunkEncoding = .uncompressed → s' = s

section

omit [Env]

theorem WF.alike (h : s.WF) (hexact : s.chunkEncoding = .uncompressed → s.visible = s.samples) :
    Alike s s := ⟨h, h, .refl s, rfl, hexact, fun _ => rfl⟩

theorem Alike.answer_eq (h : Alike s s') (read : Read) : s'.answer read = s.answer read := by
  have hv := h.visible_eq
  have hw := h.wf
  have hw' := h.wf'
  cases read with
  | getRange start endTs => rw [answer, answer, hw'.getRange_eq, hw.getRange_eq, hv]
  | rangeIter start endTs => rw [answer, answer, hw'.rangeIter_eq, hw.rangeIter_eq, hv]
  | revRangeIter start endTs => rw [answer, answer, hw'.revRangeIter_eq, hw.revRangeIter_eq, hv]
  | getRangeFiltered start endTs timestampFilter valueFilter =>
    rw [answer, answer, hw'.getRangeFiltered_eq, hw.getRangeFiltered_eq, hv]
  | timestampFilterIterator timestamps isReverse =>
    rw [answer, answer, hw'.timestampFilterIterator_eq, hw.timestampFilterIterator_eq, hv]
  | visibleFirstTimestamp => rw [answer, answer, hw'.visibleFirstTimestamp_eq, hw.visibleFirstTimestamp_eq, hv]
  | visibleTotalSamples => rw [answer, answer, hw'.visibleTotalSamples_eq, hw.visibleTotalSamples_eq, hv]
  | hasSamplesInRange start endTs => rw [answer, answer, hw'.hasSamplesInRange_eq, hw.hasSamplesInRange_eq, hv]

theorem Alike.lastSample_eq (h : Alike s s') : s'.lastSample = s.lastSample := by
  rw [← h.wf'.getLast?_visible, ← h.wf.getLast?_visible, h.visible_eq]

theorem Alike.isEmpty_eq (h : Alike s s') : s'.isEmpty = s.isEmpty := by
  have hlast := h.lastSample_eq
  rw [h.wf'.last, h.wf.last] at hlast
  rw [h.wf'.isEmpty_eq, h.wf.isEmpty_eq, decide_eq_decide, ← getLast?_eq_none_iff, hlast, getLast?_eq_none_iff]

end

theorem WF.perform_wf (h : s.WF) {e : Event} (hvalid : e.Valid)
    (hexact : s.chunkEncoding = .uncompressed → s.visible = s.samples) : (s.perform e).2.WF ∧
    SameSettings s (s.perform e).2
    ∧ (s.chunkEncoding = .uncompressed → (s.perform e).2.visible = (s.perform e).2.samples) := by
  cases e with
  | add ts value dpOverride =>
    have hspec := h.add_spec hvalid value dpOverride
    exact ⟨hspec.wf, hspec.settings, fun hunc => hspec.exact hunc (hexact hunc)⟩
  | mergeSamples samples policyOverride =>
    obtain ⟨results, s', heq, hwf, hset, -, hunc, -⟩ := h.mergeSamples_shows hvalid policyOverride
    rw [perform, heq]
    exact ⟨hwf, hset, hunc⟩
  | removeRange startTs endTs =>
    obtain ⟨count, s', heq, hwf, hset, -, -, hunc⟩ := h.removeRange_spec startTs endTs
    rw [perform, heq]
    exact ⟨hwf, hset, fun henc => hunc (.inr (hexact henc))⟩
  | read read => exact ⟨h, .refl s, hexact⟩
  | trim => exact h.trim_exact true hexact
  | trimLazily => exact h.trim_exact false hexact

/-- **Step lemma.**  Series that look alike answer a call the same, and look alike after it. -/
theorem Alike.perform (h : Alike s s') {e : Event} (hvalid : e.Valid) (hwrite : e.isTrim = false) :
    (s'.perform e).1 = (s.perform e).1 ∧ Alike (s.perform e).2 (s'.perform e).2 := by
  obtain ⟨hwf, hset, hexact⟩ := h.wf.perform_wf hvalid h.exact
  by_cases henc : s.chunkEncoding = .uncompressed
  · rw [h.same henc]
    exact ⟨rfl, hwf.alike fun _ => hexact henc⟩
  have henc' : s'.chunkEncoding ≠ .uncompressed := h.settings.chunkEncoding.trans_ne henc
  obtain ⟨hwf', hset', -⟩ := h.wf'.perform_wf hvalid fun hunc => absurd hunc henc'
  -- with compressed chunks it is enough that the same samples are visible
  have hshow (hshown : (s'.perform e).2.visible = (s.perform e).2.visible) :
      Alike (s.perform e).2 (s'.perform e).2 :=
    ⟨hwf, hwf', ⟨by rw [hset'.retention, h.settings.retention, hset.retention],
        by rw [hset'.sampleDuplicates, h.settings.sampleDuplicates, hset.sampleDuplicates],
        by rw [hset'.chunkEncoding, h.settings.chunkEncoding, hset.chunkEncoding],
        by rw [hset'.rounding, h.settings.rounding, hset.rounding],
        by rw [hset'.chunkSizeBytes, h.settings.chunkSizeBytes, hset.chunkSizeBytes]⟩,
      hshown, fun hunc => absurd (hset.chunkEncoding.symm.trans hunc) henc,
      fun hunc => absurd (hset.chunkEncoding.symm.trans hunc) henc⟩
  have hret := h.settings.retention
  have hdup := h.settings.sampleDuplicates
  have hround := h.settings.rounding
  cases e with
  | add ts value dpOverride =>
    have hmake : s'.makeSample ts value = s.makeSample ts value := by
      simp only [makeSample, adjustValue, hround]
    have hspec := (h.wf.add_spec hvalid value dpOverride).refines fun haway =>
      not_overflows_of_compressed h.wf henc _ haway.2
    have hspec' := (h.wf'.add_spec hvalid value dpOverride).refines fun haway =>
      not_overflows_of_compressed h.wf' henc' _ haway.2
    rw [hret, hdup, hmake, h.visible_eq, ← hspec] at hspec'
    obtain ⟨hresult, hvis⟩ := Prod.mk.inj hspec'
    exact ⟨congrArg (fun r => some (Answer.added r)) hresult, hshow hvis⟩
  | mergeSamples samples policyOverride =>
    obtain ⟨results, t, heq, -, -, hvis, -, hres⟩ := h.wf.mergeSamples_shows hvalid policyOverride
    obtain ⟨results', t', heq', -, -, hvis', -, hres'⟩ := h.wf'.mergeSamples_shows hvalid policyOverride
    have hbatch := normalizeBatch_congr policyOverride hret hdup hround h.lastSample_eq
      h.isEmpty_eq samples
    have hsame : results' = results := by
      rw [hres' (decide_eq_true henc'), hres (decide_eq_true henc), hbatch, hdup, h.visible_eq]
    refine ⟨?_, hshow ?_⟩
    · rw [TimeSeries.perform, heq', TimeSeries.perform, heq, hsame]
    · rw [TimeSeries.perform, heq', TimeSeries.perform, heq]
      rw [hvis', hvis, hbatch, hret, hdup, h.visible_eq]
  | removeRange startTs endTs =>
    obtain ⟨count, t, heq, -, -, hvis, hcount, -⟩ := h.wf.removeRange_spec startTs endTs
    obtain ⟨count', t', heq', -, -, hvis', hcount', -⟩ := h.wf'.removeRange_spec startTs endTs
    have hsame : count' = count := by rw [hcount', hcount, h.visible_eq]
    refine ⟨?_, hshow ?_⟩
    · rw [TimeSeries.perform, heq', TimeSeries.perform, heq, hsame]
      rfl
    · rw [TimeSeries.perform, heq', TimeSeries.perform, heq]
      change t'.visible = t.visible
      rw [hvis', hvis, h.visible_eq]
  | read read => exact ⟨congrArg some (h.answer_eq read), h⟩
  | trim => cases hwrite
  | trimLazily => cases hwrite

theorem Alike.trim (h : Alike s s') {e : Event} (htrim : e.isTrim = true) :
    (s.perform e).1 = none ∧ Alike (s.perform e).2 s' := by
  have hforce (force : Bool) : Alike (s.orKeep (s.trimExpired force)) s' := by
    by_cases henc : s.chunkEncoding = .uncompressed
    · rw [h.wf.trim_noop (h.exact henc)]
      exact h
    · obtain ⟨hwf, hset, hvis⟩ := h.wf.trim_visible force
      refine ⟨hwf, h.wf', ⟨?_, ?_, ?_, ?_, ?_⟩, h.visible_eq.trans hvis.symm, fun hunc => ?_, fun hunc => ?_⟩
      · rw [h.settings.retention, hset.retention]
      · rw [h.settings.sampleDuplicates, hset.sampleDuplicates]
      · rw [h.settings.chunkEncoding, hset.chunkEncoding]
      · rw [h.settings.rounding, hset.rounding]
      · rw [h.settings.chunkSizeBytes, hset.chunkSizeBytes]
      · exact absurd (hset.chunkEncoding.symm.trans hunc) henc
      · exact absurd (hset.chunkEncoding.symm.trans hunc) henc
  cases e with
  | trim => exact ⟨rfl, hforce true⟩
  | trimLazily => exact ⟨rfl, hforce false⟩
  | add _ _ _ | mergeSamples _ _ | removeRange _ _ | read _ => cases htrim

/-- **Run lemma.**  The answers are those without the trims. -/
theorem Alike.trace_eq (h : Alike s s') {events : List Event} (hvalid : ∀ e ∈ events, e.Valid) :
    s.trace events = s'.trace (events.filter fun e => !e.isTrim) := by
  induction events generalizing s s' with
  | nil => rfl
  | cons e events ih =>
    have hrest : ∀ e ∈ events, e.Valid := fun e he => hvalid e (mem_cons_of_mem _ he)
    cases htrim : e.isTrim with
    | true =>
      obtain ⟨hnone, halike⟩ := h.trim htrim
      rw [trace, hnone, filter_cons_of_neg (by simp [htrim])]
      exact ih halike hrest
    | false =>
      obtain ⟨hanswer, halike⟩ := h.perform (hvalid e mem_cons_self) htrim
      rw [filter_cons_of_pos (by simp [htrim]), trace, trace, hanswer, ih halike hrest]

/-- **Run lemma.**  What is visible after a sequence of calls was visible before, or is
offered by one of them. -/
theorem WF.after_visible (h : s.WF) (hexact : s.chunkEncoding = .uncompressed → s.visible = s.samples)
    {events : List Event} (hvalid : ∀ e ∈ events, e.Valid) {ts : Int}
    (hts : ts ∈ (s.after events).visible.map (·.timestamp)) :
    ts ∈ s.visible.map (·.timestamp) ∨ ∃ e ∈ events, ts ∈ e.offered := by
  induction events generalizing s with
  | nil => exact .inl hts
  | cons e events ih =>
    have he := hvalid e mem_cons_self
    obtain ⟨hwf, hset, hexact'⟩ := h.perform_wf he hexact
    rcases ih hwf (fun hunc => hexact' (hset.chunkEncoding.symm.trans hunc))
      (fun e he => hvalid e (mem_cons_of_mem _ he)) hts with hmem | ⟨e', he', hmem⟩
    · rcases h.perform_visible he hmem with hmem | hmem
      · exact .inl hmem
      · exact .inr ⟨e, mem_cons_self, hmem⟩
    · exact .inr ⟨e', mem_cons_of_mem _ he', hmem⟩

theorem WF.after_wf (h : s.WF) (hexact : s.chunkEncoding = .uncompressed → s.visible = s.samples)
    {events : List Event} (hvalid : ∀ e ∈ events, e.Valid) : (s.after events).WF
    ∧ ((s.after events).chunkEncoding = .uncompressed → (s.after events).visible = (s.after events).samples) := by
  induction events generalizing s with
  | nil => exact ⟨h, hexact⟩
  | cons e events ih =>
    obtain ⟨hwf, hset, hexact'⟩ := h.perform_wf (hvalid e mem_cons_self) hexact
    exact ih hwf (fun hunc => hexact' (hset.chunkEncoding.symm.trans hunc))
      fun e he => hvalid e (mem_cons_of_mem _ he)

/-- **Trims cannot be observed.**  The answers to a sequence of calls are the same without
the trims in it, and a sample that has left the window does not come back unless a call
offers its timestamp again. -/
theorem trims_unobservable (options : TimeSeriesOptions) (s : TimeSeries) (h : withOptions options = .ok s)
    (events : List Event) (hvalid : ∀ e ∈ events, e.Valid) :
    s.trace events = s.trace (events.filter fun e => !e.isTrim)
      ∧ ∀ before later, events = before ++ later → ∀ x : Sample,
          x.timestamp < (s.after before).getMinTimestamp → (∀ e ∈ later, x.timestamp ∉ e.offered) →
          x ∉ (s.after events).visible := by
  have hwf := wf_of_withOptions h
  have hexact : s.chunkEncoding = .uncompressed → s.visible = s.samples := by
    intro _
    rw [hwf.visible_eq, samples, (withOptions_ok h).2.1]
    exact window_nil
  refine ⟨(hwf.alike hexact).trace_eq hvalid, ?_⟩
  rintro before later rfl x hold hnot hx
  obtain ⟨hmid, hexact'⟩ := hwf.after_wf hexact fun e he => hvalid e (mem_append_left _ he)
  rw [after, foldl_append] at hx
  rcases hmid.after_visible hexact' (fun e he => hvalid e (mem_append_right _ he))
    (mem_map_of_mem hx) with hmem | ⟨e, he, hmem⟩
  · obtain ⟨y, hy, heq⟩ := mem_map.mp hmem
    have hin : (s.after before).getMinTimestamp ≤ y.timestamp := by simpa using (mem_filter.mp hy).2
    omega
  · exact hnot e he hmem

end TimeSeries

namespace TimeSeries

/-- Gorilla chunks of 48 bytes, and a window of a hundred milliseconds. -/
def shortWindow : TimeSeriesOptions := ⟨.gorilla, some 48, some 100, none, none, none⟩

/-- The newest sample is deleted, so that the window moves back over an expired one. -/
def windowMovesBack : List Event :=
  [.add 0 1 none, .add 50 2 none, .add 120 3 none, .trim, .read (.getRange 0 200), .removeRange 120 120,
    .trimLazily, .read .visibleTotalSamples]

theorem trims_unobservable_movesBack :
    letI := oneTenth
    letI := defaultEnv
    ∃ s, withOptions shortWindow = .ok s
      ∧ s.trace windowMovesBack = s.trace (windowMovesBack.filter fun e => !e.isTrim) :=
  letI := oneTenth
  letI := defaultEnv
  ⟨_, rfl, (trims_unobservable shortWindow _ rfl windowMovesBack (by decide)).1⟩

end TimeSeries

end ValkeyTimeSeries
