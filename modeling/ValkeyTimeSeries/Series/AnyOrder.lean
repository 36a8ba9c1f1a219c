/-
Series/AnyOrder.lean

Samples may come in any order (`TimeSeries::add` of `series/time_series.rs`).

Design.  A late sample goes into a chunk in the middle, which may be split.  Of the visible samples an add at a new
timestamp
makes a permutation (`windowAdd_new`), and a series that is only added to keeps room for it (`Roomy`).
-/
import ValkeyTimeSeries.Series.Roomy
import ValkeyTimeSeries.Series.Run

namespace ValkeyTimeSeries.TimeSeries

open List

variable [DecimalHelpers] [Env]

omit [DecimalHelpers] in
theorem windowAdd_new {duplicates : SampleDuplicatePolicy} (hdelta : duplicates.maxTimeDelta = 0) {l : List Sample}
    (hl : Increasing l) (override : Option DuplicatePolicy) {sample : Sample}
    (hnew : sample.timestamp ∉ l.map (·.timestamp)) :
    ∃ l', windowAdd 0 duplicates override sample l = (.ok sample, l') ∧ l'.Perm (sample :: l) := by
  rw [windowAdd]
  split
  · next hlast =>
      rw [getLast?_eq_none_iff.mp hlast]
      exact ⟨_, rfl, .refl _⟩
  · next last hlast =>
      have hne : sample.timestamp ≠ last.timestamp := fun heq => hnew (heq ▸ mem_map_of_mem (mem_of_getLast? hlast))
      have hdup : duplicates.isDuplicate sample last override = false := by
        refine if_neg fun hclose => hne ?_
        obtain ⟨hge, hle⟩ := hclose
        rw [hdelta] at hle
        exact le_antisymm (by simpa using hle) (by omega)
      rw [if_neg (fun hold => hold.1 rfl), if_neg (by simp [hdup])]
      cases hl.sorted.place sample.timestamp with
      | absent h₁ h₂ =>
        have hput : (duplicates.resolvePolicy override).upsert sample _ = .ok _ := SortedList.insertWith_new h₁ h₂
        rw [hput]
        exact ⟨_, congrArg (Prod.mk _) (if_pos rfl), perm_middle⟩
      | present h₁ hb h₂ => exact absurd (mem_map.mpr ⟨_, mem_append_right _ mem_cons_self, hb⟩) hnew

/-- The adds of samples, each with its own override of the duplicate policy. -/
def adds (items : List (Sample × Option DuplicatePolicy)) : List Call :=
  items.map fun item => .add item.1.timestamp item.1.value item.2

theorem WF.run_adds {s : TimeSeries} (h : s.WF) (hroomy : s.Roomy) (hretention : s.retention = 0)
    (hdelta : s.sampleDuplicates.maxTimeDelta = 0) {items : List (Sample × Option DuplicatePolicy)}
    (hvalid : ∀ item ∈ items, ValidTs item.1.timestamp)
    (hnodup : (s.visible.map (·.timestamp) ++ items.map (·.1.timestamp)).Nodup) :
    (s.run (adds items)).WF ∧ (s.run (adds items)).retention = 0 ∧
    (s.run (adds items)).visible.Perm (s.visible ++ items.map fun item => s.makeSample item.1.timestamp item.1.value)
    := by
  induction items generalizing s with
  | nil => exact ⟨h, hretention, by simp [TimeSeries.run, adds]⟩
  | cons item items ih =>
    obtain ⟨hts, hrest⟩ := forall_mem_cons.mp hvalid
    have hspec := h.add_spec hts item.1.value item.2
    have hrefines := hspec.refines fun haway => hroomy.not_overflows h _ haway.2
    have hnew : (s.makeSample item.1.timestamp item.1.value).timestamp ∉ s.visible.map (·.timestamp) := fun hmem =>
      (nodup_append.mp hnodup).2.2 _ hmem _ mem_cons_self rfl
    obtain ⟨l, hl, hperm⟩ := windowAdd_new hdelta (h.run.increasing.sublist visible_sublist) item.2 hnew
    rw [hretention, hl] at hrefines
    rw [← (Prod.mk.inj hrefines).2] at hperm
    obtain ⟨hwf, hret, hshown⟩ := ih hspec.wf (h.add_roomy hroomy hts item.1.value item.2)
      (hspec.settings.retention.trans hretention) (by rw [hspec.settings.sampleDuplicates, hdelta]) hrest
      ((((hperm.map _).append_right _).nodup_iff).mpr ((perm_middle.nodup_iff).mp hnodup))
    refine ⟨hwf, hret, hshown.trans ((hperm.append_right _).trans ?_)⟩
    simp only [makeSample, adjustValue, hspec.settings.rounding]
    exact perm_middle.symm

omit [Env] in
theorem WF.iterAll_eq_visible {s : TimeSeries} (h : s.WF) (hretention : s.retention = 0) : s.iterAll = s.visible := by
  rw [h.iterAll_eq, h.visible_eq, window, if_pos hretention]

/-- **Adds commute.**  A new series without a retention and without IGNORE, of any encoding and chunk size, takes
samples with
different timestamps in any order, and its chunks hold just these samples in the order of time. -/
theorem run_adds_any_order (options : TimeSeriesOptions) (s : TimeSeries) (h : withOptions options = .ok s)
    (hretention : s.retention = 0) (hdelta : s.sampleDuplicates.maxTimeDelta = 0)
    (items : List (Sample × Option DuplicatePolicy)) (hvalid : ∀ item ∈ items, ValidTs item.1.timestamp)
    (hnodup : (items.map (·.1.timestamp)).Nodup) :
    (s.run (adds items)).iterAll.Perm (items.map fun item => s.makeSample item.1.timestamp item.1.value) ∧
    Increasing (s.run (adds items)).iterAll := by
  have hchunks := (withOptions_ok h).2.1
  have hroomy : s.Roomy := fun c hc => absurd (hchunks ▸ hc) not_mem_nil
  have hwf := wf_of_withOptions h
  have hnone : s.visible = [] := by
    rw [hwf.visible_eq, samples, hchunks]
    exact window_nil
  obtain ⟨hwf', hret, hperm⟩ := hwf.run_adds hroomy hretention hdelta hvalid (by rwa [hnone])
  rw [hnone] at hperm
  rw [hwf'.iterAll_eq_visible hret]
  exact ⟨hperm, hwf'.run.increasing.sublist visible_sublist⟩

omit [DecimalHelpers] [Env] in
theorem run_adds_any_order_backwards :
    letI := oneTenth
    letI := defaultEnv
    ∃ s, withOptions smallChunks = .ok s ∧
    Increasing (s.run (adds [(⟨5, 1⟩, none), (⟨3, 2⟩, none), (⟨4, 3⟩, none)])).iterAll :=
  letI := oneTenth
  letI := defaultEnv
  ⟨_, rfl, (run_adds_any_order smallChunks _ rfl (by decide) (by decide) _ (by decide) (by decide)).2⟩

/-- **Adds undo a deletion.**  In a series with room for it, the samples of a range may be deleted and added again in
any order: the chunks hold what they held. -/
theorem run_adds_restores (s : TimeSeries) (h : s.WF) (hroomy : s.Roomy) (hretention : s.retention = 0)
    (hrounding : s.rounding = none) (hdelta : s.sampleDuplicates.maxTimeDelta = 0) (startTs endTs : Int)
    (items : List (Sample × Option DuplicatePolicy))
    (hitems : (items.map (·.1)).Perm (samplesIn startTs endTs s.iterAll)) :
    ∃ s', s.removeRange startTs endTs = .ok (items.length, s') ∧ (s'.run (adds items)).iterAll = s.iterAll := by
  rw [h.iterAll_eq_visible hretention] at hitems ⊢
  obtain ⟨count, s', heq, hwf, hset, hvis, rfl, -⟩ := h.removeRange_spec startTs endTs
  have hcount := hitems.length_eq
  rw [length_map] at hcount
  have hall : (s'.visible ++ items.map (·.1)).Perm s.visible := by
    rw [hvis]
    exact (hitems.append_left _).trans (perm_append_comm.trans (filter_append_perm _ _))
  have hvalid : ∀ item ∈ items, ValidTs item.1.timestamp := fun item hitem =>
    h.run.times _ (visible_sublist.subset (filter_sublist.subset (hitems.subset (mem_map_of_mem hitem))))
  have hincreasing : Increasing s.visible := h.run.increasing.sublist visible_sublist
  have hnodup : (s.visible.map (·.timestamp)).Nodup := pairwise_map.mpr (hincreasing.imp fun hlt => hlt.ne)
  obtain ⟨hwf', hret', hperm⟩ := hwf.run_adds (h.removeRange_roomy hroomy heq) (hset.retention.trans hretention)
    (by rw [hset.sampleDuplicates, hdelta]) hvalid
      (by simpa [Function.comp_def] using (hall.map (·.timestamp)).nodup_iff.mpr hnodup)
  have hmake : (items.map fun item => s'.makeSample item.1.timestamp item.1.value) = items.map (·.1) := by
    simp only [makeSample, adjustValue, hset.rounding, hrounding]
  rw [hmake] at hperm
  refine ⟨s', hcount ▸ heq, ?_⟩
  rw [hwf'.iterAll_eq_visible hret']
  exact Pairwise.eq_of_mem_iff (hwf'.run.increasing.sublist visible_sublist) hincreasing fun x =>
    (hperm.trans hall).mem_iff

/-- A chunk of three elements with two samples. -/
def twoSamples : TimeSeries :=
  { overfull with
    chunks := [.uncompressed ⟨48, [⟨0, 0⟩, ⟨100, 0⟩], 3⟩]
    totalSamples := 2
    lastSample := some ⟨100, 0⟩ }

omit [DecimalHelpers] [Env] in
theorem run_adds_restores_last :
    letI := oneTenth
    letI := defaultEnv
    ∃ s', twoSamples.removeRange 0 200 = .ok (2, s') ∧
      (s'.run (adds [(⟨100, 0⟩, none), (⟨0, 0⟩, some .sum)])).iterAll = twoSamples.iterAll :=
  letI := oneTenth
  letI := defaultEnv
  have hrun : SampleRun [⟨0, 0⟩, ⟨100, 0⟩] := ⟨by decide, by decide⟩
  have hwf : twoSamples.WF :=
    ⟨chunksOk_singleton ⟨⟨hrun, rfl⟩, by decide⟩ (by decide), by decide, by decide, rfl, rfl, rfl⟩
  run_adds_restores twoSamples hwf (by decide) rfl rfl rfl 0 200 [(⟨100, 0⟩, none), (⟨0, 0⟩, some .sum)] (.swap _ _ _)

end ValkeyTimeSeries.TimeSeries
