/-
Series/Add.lean

Adding a sample refines a sorted list of samples with a retention window.

Design.  `windowAdd` says what an add is for, on a plain list: too old, ignored,
inserted, combined or refused, in this order, and then cut to the window.  The code
decides the same on the chunks it stores, which may still hold expired samples.
The two agree on what is visible, except where a full half of an uncompressed chunk
turns the sample away.
-/
import ValkeyTimeSeries.Series.Upsert

namespace ValkeyTimeSeries

open List SortedList

section Abstract

variable [Env]

/-- Adding a sample to a list that is cut to its retention window. -/
def windowAdd (retention : Retention) (duplicates : SampleDuplicatePolicy)
    (override : Option DuplicatePolicy) (sample : Sample) (l : List Sample) :
    SampleAddResult × List Sample :=
  match l.getLast? with
  | none => (.ok sample, [sample])
  | some last =>
    if retention ≠ 0 ∧ sample.timestamp < windowStart retention last then (.tooOld, l)
    else if sample.timestamp ≥ last.timestamp ∧ duplicates.isDuplicate sample last override then
      (.ignored last.timestamp, l)
    else
      match (duplicates.resolvePolicy override).upsert sample l with
      | .ok l' => (.ok sample, window retention l')
      | .error _ => (.duplicate, l)

end Abstract

section Window

variable [FloatOps] {policy : DuplicatePolicy} {retention : Retention} {sample : Sample}
  {l : List Sample}

theorem last_le_upsert {r : List Sample} {last last' : Sample} (hrun : SampleRun l)
    (hts : ValidTs sample.timestamp) (hl : l.getLast? = some last)
    (hr : policy.upsert sample l = .ok r) (hr' : r.getLast? = some last') :
    last.timestamp ≤ last'.timestamp := by
  have hmem : last.timestamp ∈ r.map Sample.timestamp :=
    (mem_map_insertWith hrun.increasing (fun _ _ => DuplicatePolicy.combine_timestamp) hr).mpr
      (.inr (mem_map_of_mem (mem_of_getLast? hl)))
  obtain ⟨y, hy, hyt⟩ := mem_map.mp hmem
  obtain ⟨m, hm⟩ := getLast?_eq_some_iff.mp hr'
  have hrun' := hrun.upsert hts hr
  rw [hm] at hrun' hy
  rw [← hyt]
  exact hrun'.le_last hy

/-- An upsert that is not before the window sees the window only. -/
theorem upsert_window (policy : DuplicatePolicy) (retention : Retention) (hrun : SampleRun l)
    (hts : ValidTs sample.timestamp)
    (hwin : ∀ last, l.getLast? = some last → windowStart retention last ≤ sample.timestamp ∨ retention = 0) :
    match policy.upsert sample l with
    | .ok r => ∃ r', policy.upsert sample (window retention l) = .ok r' ∧ window retention r' = window retention r
    | .error e => policy.upsert sample (window retention l) = .error e := by
  by_cases hret : retention = 0
  · have hall (m : List Sample) : window retention m = m := by rw [window, if_pos hret]
    rw [hall]
    cases policy.upsert sample l with
    | ok r => exact ⟨r, rfl, rfl⟩
    | error e => rfl
  rcases hl : l.getLast? with - | last
  · obtain rfl := getLast?_eq_none_iff.mp hl
    rw [window_nil]
    exact ⟨[sample], rfl, rfl⟩
  · have hstart := (hwin last hl).resolve_right hret
    have hwindow : window retention l = l.filter fun x => windowStart retention last ≤ x.timestamp := by
      rw [window, if_neg hret, hl]
    have hfilter : policy.upsert sample (l.filter fun x => windowStart retention last ≤ x.timestamp)
        = (List.filter fun x => windowStart retention last ≤ x.timestamp) <$> policy.upsert sample l :=
      insertWith_filter_le hrun.increasing hstart fun _ _ => DuplicatePolicy.combine_timestamp
    rw [hwindow, hfilter]
    cases hr : policy.upsert sample l with
    | error e => rfl
    | ok r =>
      refine ⟨_, rfl, ?_⟩
      have hrun' := hrun.upsert hts hr
      obtain ⟨m, last', hm⟩ := (eq_nil_or_concat r).resolve_left (upsert_ne_nil hr)
      have hr' : r.getLast? = some last' := by rw [hm, concat_eq_append, getLast?_concat]
      have hle := last_le_upsert hrun hts hl hr hr'
      refine window_filter_le hr' ?_ (hrun'.times last' (mem_of_getLast? hr')) hret
      rw [windowStart, windowStart]
      omega

end Window

namespace TimeSeries

variable [DecimalHelpers] [Env] {s : TimeSeries}

inductive Added (s : TimeSeries) (sample : Sample) (override : Option DuplicatePolicy) :
    SampleAddResult × TimeSeries → Prop
  | tooOld (hold : s.isOlderThanRetention sample.timestamp = true) : Added s sample override (.tooOld, s)
  | ignored {last : Sample} (hwin : s.isOlderThanRetention sample.timestamp = false)
      (hlast : s.lastSample = some last) (hge : last.timestamp ≤ sample.timestamp)
      (hdup : s.sampleDuplicates.isDuplicate sample last override = true) :
      Added s sample override (.ignored last.timestamp, s)
  | upserted {r : SampleAddResult × TimeSeries} (hwin : s.isOlderThanRetention sample.timestamp = false)
      (hnot : ∀ last, s.lastSample = some last →
        ¬ (sample.timestamp ≥ last.timestamp ∧ s.sampleDuplicates.isDuplicate sample last override = true))
      (hr : Upserted s sample (s.sampleDuplicates.resolvePolicy override) r) : Added s sample override r

variable {sample : Sample}

theorem WF.append_upserted (h : s.WF) (hts : ValidTs sample.timestamp)
    (hlt : ∀ b ∈ s.samples, b.timestamp < sample.timestamp) (policy : DuplicatePolicy) :
    Upserted s sample policy (s.addSampleInternal sample) := by
  have hone : SampleRun [sample] :=
    ⟨fun x hx => by rwa [mem_singleton.mp hx], pairwise_singleton ..⟩
  obtain ⟨s', hs', hbecomes⟩ := h.addSampleInternal_spec
    (sampleRun_append.mpr ⟨h.run, hone, fun a ha b hb => by rw [mem_singleton.mp hb]; exact hlt a ha⟩)
  rw [hs']
  refine .stored ?_ ?_ hbecomes
  · rintro ⟨c, hc, hbetween⟩
    obtain ⟨-, ⟨b, hb, hgt⟩, -⟩ := hbetween.facts (h.chunks.ok c hc)
    have := hlt b (mem_stored.mpr ⟨c, hc, hb⟩)
    omega
  · exact insertWith_concat hlt

theorem WF.addDeferringRetention_spec (h : s.WF) {ts : Int} (hts : ValidTs ts) (value : F64)
    (override : Option DuplicatePolicy) :
    Added s (s.makeSample ts value) override (s.addDeferringRetention ts value override) := by
  unfold addDeferringRetention
  cases hold : s.isOlderThanRetention ts with
  | true => exact .tooOld hold
  | false =>
    rw [if_neg Bool.false_ne_true]
    cases hlast : s.lastSample with
    | none =>
      have hnil : s.samples = [] := getLast?_eq_none_iff.mp (h.last ▸ hlast)
      refine .upserted hold (fun last hl => ?_) (h.append_upserted hts (by simp [hnil]) _)
      rw [hlast] at hl
      cases hl
    | some last =>
      dsimp only
      have hsome := hlast
      rw [h.last] at hsome
      have hmem := mem_of_getLast? hsome
      have hlastTs : s.lastTimestamp = last.timestamp := by rw [lastTimestamp, hlast]; rfl
      by_cases hign : ts ≥ last.timestamp
          ∧ s.sampleDuplicates.isDuplicate (s.makeSample ts value) last override = true
      · rw [if_pos ⟨hign.1, by rw [validateSample, if_pos hign.2]; exact Bool.false_ne_true⟩]
        exact .ignored hold hlast hign.1 hign.2
      · have hvalid : ¬ (ts ≥ last.timestamp
            ∧ ¬ (s.validateSample (s.makeSample ts value) last override).isOk = true) := by
          rintro ⟨hge, hbad⟩
          refine hign ⟨hge, ?_⟩
          rw [validateSample] at hbad
          cases hd : s.sampleDuplicates.isDuplicate (s.makeSample ts value) last override with
          | true => rfl
          | false =>
            rw [hd] at hbad
            exact absurd rfl hbad
        have hnot : ∀ last', s.lastSample = some last' → ¬ (ts ≥ last'.timestamp
            ∧ s.sampleDuplicates.isDuplicate (s.makeSample ts value) last' override = true) := by
          intro last' hl
          rw [hlast] at hl
          rwa [← Option.some.inj hl]
        rw [if_neg hvalid]
        split
        · rename_i hle
          exact .upserted hold hnot (h.upsertSample_spec hts (ne_nil_of_mem hmem)
            (by rw [hlastTs]; exact hle) hold override)
        · refine .upserted hold hnot (h.append_upserted hts (fun b hb => ?_) _)
          obtain ⟨m, hm⟩ := getLast?_eq_some_iff.mp hsome
          have hrun := h.run
          rw [hm] at hrun hb
          have := hrun.le_last hb
          change b.timestamp < ts
          omega

/-! ### The refinement -/

theorem add_eq (s : TimeSeries) (ts : Int) (value : F64) (override : Option DuplicatePolicy) : s.add ts value override =
      ((s.addDeferringRetention ts value override).1, if (s.addDeferringRetention ts value override).1.isOk then
          (s.addDeferringRetention ts value override).2.applyRetention
        else (s.addDeferringRetention ts value override).2) := rfl

omit [Env] in
theorem WF.applyRetention_visible (h : s.WF) :
    s.applyRetention.WF ∧ SameSettings s s.applyRetention ∧ s.applyRetention.visible = s.visible
    ∧ (s.chunkEncoding = .uncompressed → s.applyRetention.visible = s.applyRetention.samples) := by
  obtain ⟨count, htrim⟩ := h.applyRetention_spec
  obtain ⟨-, -, hbecomes, -⟩ := htrim.becomes
  have hvis := htrim.visible_eq h
  exact ⟨hbecomes.wf, hbecomes.settings, hvis, fun hunc => hvis.trans (htrim.exact (.inr hunc)).symm⟩

omit [Env] in
theorem WF.getLast?_visible (h : s.WF) : s.visible.getLast? = s.lastSample := by
  rw [h.visible_eq, getLast?_window s.retention h.run.times, h.last]

omit [Env] in
theorem WF.isOlderThanRetention_some (h : s.WF) {last : Sample} (hlast : s.lastSample = some last)
    (ts : Int) : s.isOlderThanRetention ts = true ↔ s.retention ≠ 0 ∧ ts < windowStart s.retention last := by
  obtain ⟨l, hl⟩ := getLast?_eq_some_iff.mp (h.last ▸ hlast)
  unfold isOlderThanRetention
  by_cases hret : s.retention = 0
  · simp [hret]
  · rw [if_neg hret, h.getMinTimestamp_concat hret hl, decide_eq_true_eq]
    exact ⟨fun hlt => ⟨hret, hlt⟩, fun hand => hand.2⟩

omit [DecimalHelpers] [Env] in
theorem isOlderThanRetention_none (hlast : s.lastSample = none) {ts : Int} (hts : ValidTs ts) :
    s.isOlderThanRetention ts = false := by
  unfold isOlderThanRetention
  split
  · rfl
  · rename_i hret
    rw [getMinTimestamp, if_neg hret, hlast]
    exact decide_eq_false hts.1.not_gt

/-- The code answers with an error: the sample is in the window, but between the
halves of a chunk that is twice over its capacity. -/
def TurnsAway (s : TimeSeries) (ts : Int) : Prop := s.isOlderThanRetention ts = false ∧ s.Overflows ts

instance (s : TimeSeries) (ts : Int) : Decidable (s.TurnsAway ts) :=
  inferInstanceAs (Decidable (_ ∧ _))

omit [Env] in
theorem WF.not_overflows_of_ge (h : s.WF) {last : Sample} (hlast : s.lastSample = some last) {ts : Int}
    (hge : last.timestamp ≤ ts) : ¬ s.Overflows ts := by
  rintro ⟨c, hc, hbetween⟩
  obtain ⟨-, ⟨b, hb, hgt⟩, -⟩ := hbetween.facts (h.chunks.ok c hc)
  obtain ⟨m, hm⟩ := getLast?_eq_some_iff.mp (h.last ▸ hlast)
  have hmem : b ∈ s.samples := mem_stored.mpr ⟨c, hc, hb⟩
  have hrun := h.run
  rw [hm] at hrun hmem
  have := hrun.le_last hmem
  omega

structure AddSpec (s : TimeSeries) (sample : Sample) (override : Option DuplicatePolicy)
    (r : SampleAddResult × TimeSeries) : Prop where
  wf : r.2.WF
  settings : SameSettings s r.2
  refines : ¬ s.TurnsAway sample.timestamp →
    (r.1, r.2.visible) = windowAdd s.retention s.sampleDuplicates override sample s.visible
  turnsAway : s.TurnsAway sample.timestamp → r.1 = .error cannotAddSample ∧ r.2.visible = s.visible
  exact : s.chunkEncoding = .uncompressed → s.visible = s.samples → r.2.visible = r.2.samples

variable {override : Option DuplicatePolicy}

/-- The list model of an add that is neither too old nor ignored. -/
theorem WF.windowAdd_upsert (h : s.WF) (hts : ValidTs sample.timestamp)
    (hwin : s.isOlderThanRetention sample.timestamp = false)
    (hnot : ∀ last, s.lastSample = some last →
      ¬ (sample.timestamp ≥ last.timestamp ∧ s.sampleDuplicates.isDuplicate sample last override = true)) :
    windowAdd s.retention s.sampleDuplicates override sample s.visible
      = match (s.sampleDuplicates.resolvePolicy override).upsert sample s.samples with
        | .ok l => (.ok sample, window s.retention l)
        | .error _ => (.duplicate, s.visible) := by
  have hgetLast := h.getLast?_visible
  rw [windowAdd, hgetLast]
  cases hlast : s.lastSample with
  | none =>
    have hnil : s.samples = [] := getLast?_eq_none_iff.mp (h.last ▸ hlast)
    obtain ⟨l, hl, hsub⟩ := window_eq_concat s.retention (l := []) hts
    rw [sublist_nil.mp hsub] at hl
    rw [hnil]
    exact congrArg (Prod.mk _) hl.symm
  | some last =>
    have hold : ¬ (s.retention ≠ 0 ∧ sample.timestamp < windowStart s.retention last) := by
      rw [← h.isOlderThanRetention_some hlast, hwin]
      exact Bool.false_ne_true
    have hwindow := upsert_window (s.sampleDuplicates.resolvePolicy override) s.retention h.run hts fun last' hl => by
        rw [← h.last, hlast] at hl
        obtain rfl := Option.some.inj hl
        by_cases hret : s.retention = 0
        · exact .inr hret
        · exact .inl (not_lt.mp fun hlt => hold ⟨hret, hlt⟩)
    rw [← h.visible_eq] at hwindow
    dsimp only
    rw [if_neg hold, if_neg (hnot last hlast)]
    cases hr : (s.sampleDuplicates.resolvePolicy override).upsert sample s.samples with
    | error e =>
      rw [hr] at hwindow
      rw [hwindow]
    | ok l =>
      rw [hr] at hwindow
      obtain ⟨l', hl', heq⟩ := hwindow
      rw [hl']
      exact congrArg (Prod.mk _) heq

theorem WF.add_spec (h : s.WF) {ts : Int} (hts : ValidTs ts) (value : F64) (override : Option DuplicatePolicy) :
    AddSpec s (s.makeSample ts value) override (s.add ts value override) := by
  have hadded := h.addDeferringRetention_spec hts value override
  have hgetLast := h.getLast?_visible
  rw [add_eq]
  generalize s.addDeferringRetention ts value override = r at hadded
  have hts' : ValidTs (s.makeSample ts value).timestamp := hts
  generalize s.makeSample ts value = sample at hts' hadded ⊢
  cases hadded with
  | tooOld hold =>
    refine ⟨h, .refl s, fun _ => ?_, fun haway => ?_, fun _ => id⟩
    · cases hlast : s.lastSample with
      | none =>
        rw [isOlderThanRetention_none hlast hts'] at hold
        cases hold
      | some last =>
        rw [hlast] at hgetLast
        rw [windowAdd, hgetLast]
        exact (if_pos ((h.isOlderThanRetention_some hlast _).mp hold)).symm
    · rw [haway.1] at hold
      cases hold
  | ignored hwin hlast hge hdup =>
    rename_i last
    rw [hlast] at hgetLast
    refine ⟨h, .refl s, fun _ => ?_, fun haway => absurd haway.2 (h.not_overflows_of_ge hlast hge), fun _ => id⟩
    have hold : ¬ (s.retention ≠ 0 ∧ sample.timestamp < windowStart s.retention last) := by
      rw [← h.isOlderThanRetention_some hlast, hwin]
      exact Bool.false_ne_true
    rw [windowAdd, hgetLast]
    dsimp only
    rw [if_neg hold]
    exact (if_pos (And.intro hge hdup)).symm
  | upserted hwin hnot hr =>
    have hspec := h.windowAdd_upsert hts' hwin hnot
    cases hr with
    | stored hroom hl hs' =>
      obtain ⟨hwf, hset, hvis, hexact⟩ := hs'.wf.applyRetention_visible
      refine ⟨hwf, hs'.settings.trans hset, fun _ => ?_, fun haway => absurd haway.2 hroom,
        fun hunc _ => hexact (hs'.settings.chunkEncoding.trans hunc)⟩
      rw [hspec, hl]
      exact congrArg (Prod.mk _) (hvis.trans hs'.visible_eq)
    | refused hroom he hs' =>
      have hvis := hs'.visible_eq
      rw [← h.visible_eq] at hvis
      refine ⟨hs'.wf, hs'.settings, fun _ => ?_, fun haway => absurd haway.2 hroom,
        fun _ hexact => hvis.trans (hexact.trans hs'.samples_eq.symm)⟩
      rw [hspec, he]
      exact congrArg (Prod.mk _) hvis
    | overflowed hover hs' =>
      have hvis := hs'.visible_eq
      rw [← h.visible_eq] at hvis
      exact ⟨hs'.wf, hs'.settings, fun haway => absurd ⟨hwin, hover⟩ haway, fun _ => ⟨rfl, hvis⟩,
        fun _ hexact => hvis.trans (hexact.trans hs'.samples_eq.symm)⟩

omit [DecimalHelpers] in
theorem windowAdd_ne_error {retention : Retention} {duplicates : SampleDuplicatePolicy} {l : List Sample}
    (message : String) :
    (windowAdd retention duplicates override sample l).1 ≠ .error message := by
  unfold windowAdd
  repeat' split
  all_goals rintro ⟨⟩

omit [DecimalHelpers] in
theorem windowAdd_unchanged {retention : Retention} {duplicates : SampleDuplicatePolicy} {l : List Sample}
    (h : (windowAdd retention duplicates override sample l).1.isOk = false) :
    (windowAdd retention duplicates override sample l).2 = l := by
  unfold windowAdd at *
  repeat' split
  all_goals simp_all [SampleAddResult.isOk]

/-- The add of the code and the add to the list of visible samples agree, in the outcome
and in what is visible after it, exactly where the sample is not turned away. -/
theorem add_refines_windowAdd (s : TimeSeries) (h : s.WF) (ts : Int) (hts : ValidTs ts) (value : F64)
    (override : Option DuplicatePolicy) :
    (((s.add ts value override).1, (s.add ts value override).2.visible)
        = windowAdd s.retention s.sampleDuplicates override (s.makeSample ts value) s.visible
      ∧ ((s.add ts value override).1.isOk = false → (s.add ts value override).2.visible = s.visible))
      ↔ ¬ s.TurnsAway ts := by
  have hspec := h.add_spec hts value override
  constructor
  · rintro ⟨heq, -⟩ haway
    have herr := (hspec.turnsAway haway).1
    rw [congrArg Prod.fst heq] at herr
    exact windowAdd_ne_error _ herr
  · intro haway
    have heq := hspec.refines haway
    refine ⟨heq, fun hno => ?_⟩
    rw [congrArg Prod.fst heq] at hno
    exact (congrArg Prod.snd heq).trans (windowAdd_unchanged hno)

/-! ### Increments -/

omit [DecimalHelpers] in
/-- A sample not before the last one is ignored or becomes the newest where the policy keeps the last value. -/
theorem windowAdd_keepLast {l : List Sample} (retention : Retention) (duplicates : SampleDuplicatePolicy)
    (hrun : SampleRun l) (hts : ValidTs sample.timestamp)
    (hge : ∀ last, l.getLast? = some last → last.timestamp ≤ sample.timestamp) :
    ∃ r l', windowAdd retention duplicates (some .keepLast) sample l = (r, l') ∧ ((∃ ts, r = .ignored ts)
    ∨ r = .ok sample ∧ l'.getLast?.map (·.timestamp) = some sample.timestamp) := by
  rw [windowAdd]
  cases hlast : l.getLast? with
  | none => exact ⟨_, _, rfl, .inr ⟨rfl, rfl⟩⟩
  | some last =>
    have hstart : windowStart retention last ≤ sample.timestamp :=
      (windowStart_le (hrun.times last (mem_of_getLast? hlast))).trans (hge last hlast)
    dsimp only
    rw [if_neg fun h => h.2.not_ge hstart]
    split
    · exact ⟨_, _, rfl, .inl ⟨_, rfl⟩⟩
    · obtain ⟨r, hr⟩ : ∃ r, (duplicates.resolvePolicy (some .keepLast)).upsert sample l = .ok r := by
        refine insertWith_ok fun b => ?_
        change ∃ c, DuplicatePolicy.keepLast.combine sample b = .ok c
        rw [DuplicatePolicy.combine, DuplicatePolicy.duplicateValue]
        cases b.value.isNaN <;> cases sample.value.isNaN <;> exact ⟨_, rfl⟩
      have hrun' := hrun.upsert hts hr
      have hkeys (ts : Int) : ts ∈ r.map Sample.timestamp ↔ ts = sample.timestamp ∨ ts ∈ l.map Sample.timestamp :=
        mem_map_insertWith hrun.increasing (fun _ _ => DuplicatePolicy.combine_timestamp) hr
      obtain ⟨m, newest, hm⟩ := (eq_nil_or_concat r).resolve_left (upsert_ne_nil hr)
      rw [concat_eq_append] at hm
      rw [hr]
      refine ⟨_, _, rfl, .inr ⟨rfl, ?_⟩⟩
      rw [getLast?_window retention hrun'.times, hm, getLast?_concat]
      rw [hm] at hrun' hkeys
      -- the newest sample of the result is the new one or was the last before
      refine congrArg some (le_antisymm ?_ ?_)
      · rcases (hkeys newest.timestamp).mp (mem_map_of_mem (by simp)) with h | h
        · exact h.le
        · obtain ⟨b, hb, hbt⟩ := mem_map.mp h
          obtain ⟨k, hk⟩ := getLast?_eq_some_iff.mp hlast
          rw [hk] at hrun hb
          exact hbt.ge.trans ((hrun.le_last hb).trans (hge last hlast))
      · obtain ⟨b, hb, hbt⟩ := mem_map.mp ((hkeys sample.timestamp).mpr (.inl rfl))
        exact hbt.ge.trans (hrun'.le_last hb)

/-- What TS.INCRBY and TS.DECRBY can handle: an error or an outcome that is not held to be unreachable,
and after a success a newest sample at the time asked for. -/
def Handled (ts : Int) : Except String SampleAddResult × TimeSeries → Prop
  | (.ok (.ok sample), s) => sample.timestamp = ts ∧ s.visible.getLast?.map (·.timestamp) = some ts
  | (.ok .tooOld, _) | (.ok .duplicate, _) => False
  | _ => True

theorem WF.add_handled (h : s.WF) {ts : Int} (hts : ValidTs ts) (value : F64)
    (hge : ∀ last, s.lastSample = some last → last.timestamp ≤ ts) :
    Handled ts (.ok (s.add ts value (some .keepLast)).1, (s.add ts value (some .keepLast)).2) := by
  have hspec := h.add_spec hts value (some .keepLast)
  generalize s.add ts value (some .keepLast) = added at hspec ⊢
  by_cases haway : s.TurnsAway ts
  · rw [(hspec.turnsAway haway).1]
    trivial
  · have hrefines := hspec.refines haway
    have hts' : ValidTs (s.makeSample ts value).timestamp := hts
    obtain ⟨r, l, heq, hr⟩ := windowAdd_keepLast s.retention s.sampleDuplicates (h.run.sublist visible_sublist) hts'
      (by rwa [h.getLast?_visible])
    rw [heq, Prod.mk.injEq] at hrefines
    rw [hrefines.1]
    rcases hr with ⟨ts', rfl⟩ | ⟨rfl, hl⟩
    · trivial
    · exact ⟨rfl, hrefines.2 ▸ hl⟩

omit [DecimalHelpers] [Env] in
theorem validTs_getD {timestamp : Option Int} {other : Int} (hts : ∀ ts ∈ timestamp, ValidTs ts)
    (hother : ValidTs other) :
    ValidTs (timestamp.getD other) := by
  cases timestamp with
  | none => exact hother
  | some ts => exact hts ts rfl

/-- **An increment never reaches the outcomes that its command holds to be unreachable.** -/
theorem incrementSampleValue_handled (s : TimeSeries) (h : s.WF) (now : Int) (hnow : ValidTs now)
    (timestamp : Option Int)
    (hts : ∀ ts ∈ timestamp, ValidTs ts) (delta : F64) :
    Handled (timestamp.getD ((s.lastSample.map (·.timestamp)).getD now)) (s.incrementSampleValue now timestamp delta)
    := by
  unfold incrementSampleValue
  split
  · trivial
  · cases hlast : s.lastSample with
    | none => exact h.add_handled (validTs_getD hts hnow) delta fun last hl => by rw [hlast] at hl; cases hl
    | some last =>
      dsimp only
      split
      · trivial
      · split
        · trivial
        · rename_i hge
          refine h.add_handled (validTs_getD hts (h.run.times last (mem_of_getLast? (h.last ▸ hlast)))) _ fun last'
            hl => ?_
          rw [hlast] at hl
          obtain rfl := Option.some.inj hl
          exact not_lt.mp hge

end TimeSeries

namespace TimeSeries

/-- The module's default configuration, with the arithmetic of values that are not
negative as far as the examples use it. -/
@[reducible] def defaultEnv : Env where
  add a b := if a = 0 then b else a
  sub a b := if a = b then 0 else a
  min a b := if a.toNat ≤ b.toNat then a else b
  max a b := if a.toNat ≤ b.toNat then b else a
  round _ v := v
  duplicatePolicy := .block
  retentionPeriod := 0

/-- A chunk of three elements that holds six samples: one half of a chunk that a
batch of samples filled and `split_chunks_if_needed` cut. -/
def overfull : TimeSeries where
  retention := 0
  sampleDuplicates := ⟨none, 0, 0⟩
  chunkEncoding := .uncompressed
  rounding := none
  chunkSizeBytes := 48
  chunks := [.uncompressed ⟨48, [⟨0, 0⟩, ⟨100, 0⟩, ⟨200, 0⟩, ⟨300, 0⟩, ⟨400, 0⟩, ⟨500, 0⟩], 3⟩]
  totalSamples := 6
  firstTimestamp := 0
  lastSample := some ⟨500, 0⟩

theorem overfull_wf : letI := oneTenth; overfull.WF := by
  let _ := oneTenth
  have hrun : SampleRun [⟨0, 0⟩, ⟨100, 0⟩, ⟨200, 0⟩, ⟨300, 0⟩, ⟨400, 0⟩, ⟨500, 0⟩] := ⟨by decide, by decide⟩
  exact ⟨chunksOk_singleton ⟨⟨hrun, rfl⟩, by decide⟩ (by decide), by decide, by decide, rfl, rfl, rfl⟩

/-- A new timestamp in the middle of the chunk is an insertion for the list of visible
samples; the code splits the chunk, finds the lower half full and answers an error. -/
theorem add_refines_windowAdd_fails :
    letI := oneTenth
    letI := defaultEnv
    overfull.WF ∧ (overfull.add 250 0 none).1 = .error cannotAddSample
      ∧ ¬ (((overfull.add 250 0 none).1, (overfull.add 250 0 none).2.visible)
            = windowAdd overfull.retention overfull.sampleDuplicates none (overfull.makeSample 250 0)
                overfull.visible) :=
  ⟨overfull_wf, by decide, by decide⟩

/-- At the same series a later sample is appended. -/
theorem add_refines_windowAdd_append :
    letI := oneTenth
    letI := defaultEnv
    ((((overfull.add 600 0 none).1, (overfull.add 600 0 none).2.visible)
        = windowAdd overfull.retention overfull.sampleDuplicates none (overfull.makeSample 600 0)
            overfull.visible
      ∧ ((overfull.add 600 0 none).1.isOk = false →
          (overfull.add 600 0 none).2.visible = overfull.visible)) ↔ ¬ overfull.TurnsAway 600)
      ∧ ¬ overfull.TurnsAway 600 :=
  letI := oneTenth
  letI := defaultEnv
  ⟨add_refines_windowAdd overfull overfull_wf 600 (by decide) 0 none, by decide⟩

/-- Also there an increment later than all samples is stored. -/
theorem incrementSampleValue_handled_overfull :
    letI := oneTenth
    letI := defaultEnv
    Handled 600 (overfull.incrementSampleValue 0 (some 600) 1)
      ∧ (overfull.incrementSampleValue 0 (some 600) 1).1 = .ok (.ok ⟨600, 1⟩) :=
  letI := oneTenth
  letI := defaultEnv
  ⟨incrementSampleValue_handled overfull overfull_wf 0 (by decide) (some 600) (by decide) 1, by decide⟩

end TimeSeries

end ValkeyTimeSeries
