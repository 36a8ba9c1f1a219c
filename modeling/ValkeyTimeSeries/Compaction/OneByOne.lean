/-
Compaction/OneByOne.lean

A batch and its items one by one come to the same.

Design.  Both leave the rule in sync with the source, which determines the destination and the rule but not
the marker: `markerRun` is where the items take it one by one, and where the trace of the batch takes it.
-/
import ValkeyTimeSeries.Compaction.Source
import ValkeyTimeSeries.Compaction.Handover

namespace ValkeyTimeSeries

open List

namespace CompactionContext

section Code

variable {A : Type} [Aggregator A] [DecimalHelpers]

/-- `live_forward_close` of the destination, the one reader of the marker. -/
def liveForwardClose (c : CompactionContext A) : Option Sample :=
  c.lastForwardClose.bind fun published =>
    if c.dest.isOlderThanRetention published.timestamp then none
    else
      match c.dest.getSample published.timestamp with
      | .ok sample => sample
      | .error _ => none

def addEach [Env] (c : CompactionContext A) (samples : List Sample) : CompactionContext A :=
  samples.foldl (fun c x => (c.handleAdd x.timestamp x.value none).2) c

/-- The same samples in the destination, the same rule, and markers of the same bucket that
read the same sample. -/
def Agree (c c' : CompactionContext A) : Prop :=
  c.dest.samples = c'.dest.samples ∧ c.rule = c'.rule ∧ c.marker = c'.marker
    ∧ c.liveForwardClose = c'.liveForwardClose

instance [DecidableEq A] (c c' : CompactionContext A) : Decidable (Agree c c') :=
  inferInstanceAs (Decidable (_ ∧ _))

end Code

section Agreement

variable {A : Type} [Aggregator A] [DecimalHelpers] {c c₁ c₂ : CompactionContext A} {good : F64 → Prop}

theorem Synced.live_iff (h : Synced good c) (hacc : Accepts good c.rule.aggregator) :
    c.Live ↔ c.rule.Named c.parent.samples c.marker :=
  h.sync.live_iff h.rule.noWrap h.fine.run h.fine.good hacc

omit [Aggregator A] in
theorem Ready.liveForwardClose_eq (h : c.Ready) :
    c.liveForwardClose = c.marker.bind fun t => sampleAt t c.dest.samples := by
  have hwin (t : Int) : c.dest.isOlderThanRetention t = false := if_pos h.plain.retention
  simp only [liveForwardClose, marker, hwin, h.plain.wf.getSample_eq]
  cases c.lastForwardClose <;> rfl

theorem Stepped.agree (h₁ : Stepped good c c₁) (h₂ : Stepped good c c₂)
    (hsamples : c₁.parent.samples = c₂.parent.samples) (hmarker : c₁.marker = c₂.marker) : Agree c₁ c₂ := by
  have hbuck : c₁.rule.toBucketing = c₂.rule.toBucketing := h₁.same.bucketing.trans h₂.same.bucketing.symm
  have hreset : Aggregator.reset c₁.rule.aggregator = Aggregator.reset c₂.rule.aggregator :=
    h₁.same.reset.trans h₂.same.reset.symm
  have hopen : c₁.rule.openBucket c₁.parent.samples = c₂.rule.openBucket c₂.parent.samples := by
    rw [hbuck, hsamples]
  have hdest : c₁.dest.samples = c₂.dest.samples := by
    refine h₁.synced.ready.plain.wf.run.increasing.ext_sampleAt h₂.synced.ready.plain.wf.run.increasing fun t => ?_
    rw [h₁.synced.sync.sampleAt_eq, h₂.synced.sync.sampleAt_eq, hbuck, hsamples, rollupAt_congr hreset]
  have hagg : (c₁.rule.aggregator, c₁.rule.hasSamples) = (c₂.rule.aggregator, c₂.rule.hasSamples) := by
    cases ho : c₂.rule.openBucket c₂.parent.samples with
    | none =>
      rw [(h₁.synced.sync.idle (hopen.trans ho)).1, (h₂.synced.sync.idle ho).1, fresh_congr hreset]
    | some o =>
      rw [h₁.synced.sync.aggregator o (hopen.trans ho) id, h₂.synced.sync.aggregator o ho id, fresh_congr hreset,
        hbuck, hsamples]
  have hstart : c₁.rule.bucketStart = c₂.rule.bucketStart := by
    rw [h₁.synced.sync.bucketStart, h₂.synced.sync.bucketStart, hopen]
  refine ⟨hdest, ?_, hmarker, ?_⟩
  · obtain ⟨hfst, hsnd⟩ := Prod.mk.inj hagg
    have hkey := h₁.same.dest.trans h₂.same.dest.symm
    generalize c₁.rule = r₁ at hbuck hkey hfst hstart hsnd
    generalize c₂.rule = r₂ at hbuck hkey hfst hstart hsnd
    cases r₁
    cases r₂
    simp_all
  · rw [h₁.synced.ready.liveForwardClose_eq, h₂.synced.ready.liveForwardClose_eq, hmarker, hdest]

end Agreement

section Runs

variable {A : Type} [Aggregator A] [DecimalHelpers] [LawfulAggregator A] [Env] [LawfulFloatOps]
  {c : CompactionContext A} {good : F64 → Prop} {samples : List Sample}

/-! ### Single adds -/

/-- **Run lemma.**  Where single adds take the source and the marker. -/
theorem Synced.addEach (h : Synced good c) (hlive : c.Live) (hacc : Accepts good c.rule.aggregator)
    (hexact : c.parent.Exact good samples) (hsamples : ∀ x ∈ samples, ValidTs x.timestamp ∧ c.rule.Fits x.timestamp) :
    Stepped good c (c.addEach samples) ∧ (c.addEach samples).parent.samples
    = (c.parent.sampleDuplicates.resolvePolicy none).putAll samples c.parent.samples
    ∧ (c.addEach samples).marker = markerRun (c.parent.sampleDuplicates.resolvePolicy none) c.rule.toBucketing
    c.parent.samples c.marker samples := by
  induction samples generalizing c with
  | nil => exact ⟨⟨h, .refl _, rfl⟩, rfl, rfl⟩
  | cons x xs ih =>
    obtain ⟨hx, hfit⟩ := hsamples x mem_cons_self
    obtain ⟨c₁, hc₁, hhandled⟩ := h.handleAdd hx hfit none fun t sub hsub =>
      hexact.settles t sub (hsub.trans (singleton_sublist.mpr mem_cons_self))
    obtain ⟨hone, hunl, hset⟩ := h.source.addDeferringRetention_spec hx none
    have hput := h.source.addDeferringRetention_put hx (.inr hexact : False ∨ _)
    have hexact₁ := hexact.addDeferringRetention hx
    have hadd : c.parent.add x.timestamp x.value none = c.parent.addDeferringRetention x.timestamp x.value none := by
      rw [TimeSeries.add_eq, TimeSeries.applyRetention_of_retention hunl.retention, ite_self]
    rw [hadd] at hhandled
    generalize c.parent.addDeferringRetention x.timestamp x.value none = r at hone hset hput hexact₁ hhandled
    obtain ⟨res, parent⟩ := r
    obtain ⟨hstep, hparent, hlive₁, hmarker₁⟩ := hhandled
    dsimp only at hone hset hput hexact₁ hparent hmarker₁
    subst hparent
    have hsource : c₁.parent.samples = (c.parent.sampleDuplicates.resolvePolicy none).put x c.parent.samples :=
      hput.elim (fun hput => hput.1) fun hfalse => hfalse.1.elim
    -- a sample that was not stored met one, and does not move the marker
    have hmarker : c₁.marker = c.rule.markerAfter c.parent.samples c.marker x.timestamp := by
      rw [hmarker₁ hacc hlive]
      split
      · rfl
      · rename_i hok
        refine (((h.live_iff hacc).mp hlive).markerAfter_of_mem h.rule.noWrap h.fine.run ?_).symm
        by_cases hdup : res = .duplicate
        · refine mem_timestamps.mpr (hone.elim (fun hstored => ?_) fun hnot => hnot.2.2 hdup)
          rw [hstored.1] at hdup
          cases hdup
        · exact hput.elim (fun hput => hput.2 (by simpa using hok) hdup) fun hfalse => hfalse.1.elim
    obtain ⟨hrest, hlist, hrun⟩ := ih hstep.synced (hlive₁ hlive) (hacc.congr hstep.same.reset) hexact₁
      fun y hy => by
        rw [hstep.same.bucketing]
        exact hsamples y (mem_cons_of_mem _ hy)
    rw [CompactionContext.addEach, foldl_cons, hc₁]
    refine ⟨⟨hrest.synced, hstep.same.trans hrest.same, hrest.duplicates.trans hstep.duplicates⟩, ?_, ?_⟩
    · rw [hset.sampleDuplicates, hsource] at hlist
      exact hlist
    · rw [hset.sampleDuplicates, hsource, hmarker, hstep.same.bucketing] at hrun
      exact hrun

/-! ### The batch -/

omit [DecimalHelpers] [LawfulFloatOps] in
theorem markerRun_of_mem {policy : DuplicatePolicy} {b : Bucketing} {l : List Sample} {m : Option Int}
    (hnamed : b.Named l m) (hd : b.NoWrap) (hrun : SampleRun l) (hvalid : ValidTimes samples)
    (hmem : ∀ x ∈ samples, x.timestamp ∈ l.map (·.timestamp)) : markerRun policy b l m samples = m := by
  induction samples generalizing l with
  | nil => rfl
  | cons x xs ih =>
    have hx := hvalid x mem_cons_self
    have hsame := hnamed.markerAfter_of_mem hd hrun (hmem x mem_cons_self)
    have hnamed' := hnamed.put policy hd hrun hx
    rw [hsame] at hnamed'
    rw [markerRun, hsame]
    refine ih hnamed' (sampleRun_put hrun hx) (fun y hy => hvalid y (mem_cons_of_mem _ hy)) fun y hy => ?_
    exact (mem_timestamps_put hrun.increasing).mpr (.inr (hmem y (mem_cons_of_mem _ hy)))

theorem Synced.mergeSamples_marker (h : Synced good c) (hlive : c.Live) (hacc : Accepts good c.rule.aggregator)
    (hsamples : ∀ x ∈ samples, ValidTs x.timestamp ∧ c.rule.Fits x.timestamp)
    (hsettles : Settles good (c.parent.sampleDuplicates.resolvePolicy none) c.parent.samples samples) {loose : Prop}
    (hexact : loose ∨ c.parent.Exact good samples) : ∃ c', c.mergeSamples samples = (.ok (), c') ∧ Stepped good c c' ∧
    c'.Live
    ∧ (¬ loose → c'.parent.samples = (c.parent.sampleDuplicates.resolvePolicy none).putAll samples c.parent.samples
    ∧ c'.marker = markerRun (c.parent.sampleDuplicates.resolvePolicy none) c.rule.toBucketing c.parent.samples
    c.marker samples) := by
  have hvalid : ValidTimes samples := fun x hx => (hsamples x hx).1
  obtain ⟨c', hc', hmerged⟩ := h.mergeSamples hsamples hsettles
  have hleft := h.source.addSamplesInternal_spec hvalid
  have hhanded := h.source.addSamplesInternal_handed hvalid hexact
  generalize (c.parent.addSamplesInternal samples).2 = group at hmerged hleft hhanded
  obtain ⟨hstep, hparent, hmarker⟩ := hmerged
  have hsynced := hstep.synced
  have hnamed := (h.live_iff hacc).mp hlive
  have hacc' := hacc.congr hstep.same.reset
  have hputAll (hnot : ¬ loose) : c'.parent.samples
      = (c.parent.sampleDuplicates.resolvePolicy none).putAll samples c.parent.samples := by
    obtain rfl : loose = False := eq_false hnot
    rw [hparent]
    exact hhanded.eq_putAll
  rcases hmarker with ⟨hsame, hdest, hmarker⟩ | hmarker
  · refine ⟨c', hc', hstep, hlive.congr hdest hmarker, fun hnot => ⟨hputAll hnot, ?_⟩⟩
    -- nothing was put, so all items met a sample
    have heq := hputAll hnot
    rw [hparent, hsame] at heq
    rw [marker, hmarker]
    refine (markerRun_of_mem hnamed h.rule.noWrap h.fine.run hvalid fun x hx => ?_).symm
    rw [heq]
    exact (SortedList.mem_map_putAll h.fine.run.increasing.sorted fun _ _ _ =>
      DuplicatePolicy.combine_timestamp).mpr (.inl (mem_map_of_mem hx))
  · have hfollows : TraceState.Follows c.rule.toBucketing c.parent.samples
        ⟨c.rule.bucketStart, group.prevLast, ⟨none, none⟩⟩ := ⟨h.sync.bucketStart, hleft.batch.prevLast_eq⟩
    have hbefore : TraceState.marker c.marker ⟨c.rule.bucketStart, group.prevLast, ⟨none, none⟩⟩ = c.marker := by
      simp [TraceState.marker]
    obtain ⟨hnamed', hrun⟩ := hhanded.trace c.marker h.rule.noWrap h.fine.run hvalid hfollows
      (hbefore.symm ▸ hnamed)
    rw [hbefore] at hrun
    -- the bucket the trace names is in the destination
    have hmarker' : c'.marker = (group.addedOrder.foldl c.rule.traceStep
        ⟨c.rule.bucketStart, group.prevLast, ⟨none, none⟩⟩).marker c.marker := by
      rw [marker, hmarker]
      generalize (group.addedOrder.foldl c.rule.traceStep
        ⟨c.rule.bucketStart, group.prevLast, ⟨none, none⟩⟩).marker c.marker = m at hnamed' ⊢
      rw [← hparent, ← hstep.same.bucketing] at hnamed'
      cases m with
      | none => rfl
      | some t =>
        obtain ⟨y, hy⟩ := Option.ne_none_iff_exists'.mp
          ((hsynced.sync.sampleAt_ne_none hsynced.fine.good hacc').mpr (hnamed'.named t rfl))
        rw [Option.bind_some, hy, Option.map_some, timestamp_of_sampleAt hy]
    refine ⟨c', hc', hstep, ?_, fun hnot => ⟨hputAll hnot, hmarker'.trans (hrun hnot)⟩⟩
    rw [hsynced.live_iff hacc', hmarker', hparent, hstep.same.bucketing]
    exact hnamed'

/-- **A batch equals its items one by one**, from every state in sync with a live marker. -/
theorem Synced.mergeSamples_agree (h : Synced good c) (hlive : c.Live) (hacc : Accepts good c.rule.aggregator)
    (hexact : c.parent.Exact good samples) (hsamples : ∀ x ∈ samples, ValidTs x.timestamp ∧ c.rule.Fits x.timestamp) :
    Agree (c.mergeSamples samples).2 (c.addEach samples) := by
  obtain ⟨c', hc', hstep, -, hbatch⟩ := h.mergeSamples_marker hlive hacc hsamples hexact.settles
    (.inr hexact : False ∨ _)
  obtain ⟨hlist, hmarker⟩ := hbatch id
  obtain ⟨hstep', hlist', hmarker'⟩ := h.addEach hlive hacc hexact hsamples
  rw [hc']
  exact hstep.agree hstep' (hlist.trans hlist'.symm) (hmarker.trans hmarker'.symm)

/-! ### Reachable states -/

/-- **Run lemma.**  The marker stays live. -/
theorem Synced.run_live (h : Synced good c) (hlive : c.Live) (hacc : Accepts good c.rule.aggregator)
    {commands : List Command} (hmeets : RunMeets good c commands) : (c.run commands).Live := by
  induction commands generalizing c with
  | nil => exact hlive
  | cons command commands ih =>
    obtain ⟨c', hc', hstep, hlive'⟩ : ∃ c', c.step command = (.ok (), c') ∧ Stepped good c c' ∧ c'.Live := by
      obtain ⟨⟨hfits, hbounds⟩, hsettles⟩ := hmeets.1
      cases command with
      | add ts value onDuplicate =>
        obtain ⟨hts, hfit⟩ := hfits ⟨ts, value⟩ (mem_singleton_self _)
        obtain ⟨c', hc', hhandled⟩ := h.handleAdd hts hfit onDuplicate hsettles
        exact ⟨c', hc', hhandled.toStepped, hhandled.live hlive⟩
      | madd samples =>
        obtain ⟨c', hc', hstep, hlive', -⟩ := h.mergeSamples_marker hlive hacc hfits hsettles
          (.inl trivial : True ∨ _)
        exact ⟨c', hc', hstep, hlive'⟩
      | del start endTs =>
        obtain ⟨c', hc', hstep, hkeep⟩ := h.removeRangeWithCompaction (hbounds start (by simp [Command.bounds]))
          (hbounds endTs (by simp [Command.bounds]))
        exact ⟨c', hc', hstep, hkeep hlive⟩
    have hmeets' := hmeets.2
    rw [hc'] at hmeets'
    rw [CompactionContext.run, foldl_cons, hc']
    exact ih hstep.synced hlive' (hacc.congr hstep.same.reset) hmeets'

/-- **A batch equals its items one by one** in every state that commands reach from an empty
source, if the source is roomy there and all values are good. -/
theorem mergeSamples_agrees (hbegins : Begins c) (hfaith : Faithful good)
    (hrule : Admissible good c.rule) (hacc : Accepts good c.rule.aggregator) {commands : List Command}
    (hmeets : RunMeets good c commands) (hplain : (c.run commands).parent.Plain)
    (hsamples : ∀ x ∈ samples, good x.value) (hbatch : (c.run commands).Meets good (.madd samples)) :
    Agree ((c.run commands).mergeSamples samples).2 ((c.run commands).addEach samples) := by
  have hsynced := hbegins.synced hrule
  have hlive : c.Live := by
    refine ⟨fun t ht => ?_, fun _ => hbegins.destEmpty⟩
    rw [marker, hbegins.marker] at ht
    cases ht
  obtain ⟨hreached, hsame, -⟩ := hsynced.run hmeets
  exact hreached.mergeSamples_agree (hsynced.run_live hlive hacc hmeets) (hacc.congr hsame.reset)
    ⟨hplain, hreached.fine.good, hsamples, hfaith, hbatch.2⟩ hbatch.1.1

end Runs

/-- The open bucket has no value, since the aggregator rejects its only sample.  A later sample
leaves the marker where it was; a batch of that sample loses it. -/
theorem mergeSamples_disagrees :
    letI := oneTenth
    letI := keepLastEnv
    let c := lastOfTen.run [.add 5 (F64.ofNat 1) none, .add 12 F64.nan none]
    (c.addEach [⟨25, F64.ofNat 2⟩]).marker = some 0 ∧ (c.mergeSamples [⟨25, F64.ofNat 2⟩]).2.marker = none
      ∧ ¬ Agree (c.mergeSamples [⟨25, F64.ofNat 2⟩]).2 (c.addEach [⟨25, F64.ofNat 2⟩]) := by
  decide

/-- A batch that appends, closes buckets, goes back to one of them and repeats a timestamp. -/
theorem mergeSamples_agrees_mixed :
    letI := oneTenth
    letI := keepLastEnv
    let c := lastOfTen.run [.add 5 (F64.ofNat 1) none, .add 12 (F64.ofNat 2) none]
    let samples := [⟨25, F64.ofNat 3⟩, ⟨7, F64.ofNat 4⟩, ⟨31, F64.ofNat 5⟩, ⟨25, F64.ofNat 6⟩]
    Agree (c.mergeSamples samples).2 (c.addEach samples) := by
  let _ := oneTenth
  let _ := keepLastEnv
  have _ := keepLastEnv_lawful
  let commands : List Command := [.add 5 (F64.ofNat 1) none, .add 12 (F64.ofNat 2) none]
  let samples : List Sample := [⟨25, F64.ofNat 3⟩, ⟨7, F64.ofNat 4⟩, ⟨31, F64.ofNat 5⟩, ⟨25, F64.ofNat 6⟩]
  have hmeets : RunMeets F64.Ordinary lastOfTen commands := lastOfTen_runMeets (by decide)
  have hbatch : RunMeets F64.Ordinary lastOfTen (commands ++ [.madd samples]) := lastOfTen_runMeets (by decide)
  have hrun := (lastOfTen_begins.synced lastOfTen_admissible).run hmeets
  exact mergeSamples_agrees lastOfTen_begins faithful_ordinary lastOfTen_admissible (LastAggregator.accepts _) hmeets
    ⟨hrun.synced.source.wf, by decide, by decide, by decide, by decide, by decide⟩ (by decide) hbatch.2.2.1

end CompactionContext

end ValkeyTimeSeries
