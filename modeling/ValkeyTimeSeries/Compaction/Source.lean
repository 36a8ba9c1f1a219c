/-
Compaction/Source.lean

A source with one rule under TS.ADD, TS.MADD and TS.DEL.

Design.  Every command writes to the source first and then tells the rule, so the step lemma has two halves:
what the command leaves in the source, and what the rule makes of it.  The invariant is that the destination
is the rollup of the source.
-/
import ValkeyTimeSeries.Compaction.Removal
import ValkeyTimeSeries.Compaction.Aggregators
import ValkeyTimeSeries.Compaction.Marker

namespace ValkeyTimeSeries

open List TimeSeries

namespace CompactionContext

/-! ### The commands -/

inductive Command where
  | add (ts : Int) (value : F64) (onDuplicate : Option DuplicatePolicy)
  | madd (samples : List Sample)
  | del (start endTs : Int)
deriving DecidableEq, Repr

section Commands

variable {A : Type} [Aggregator A] [DecimalHelpers] [Env] (c : CompactionContext A)

/-- `handle_add` of TS.ADD: an ignored or refused sample does not reach the rule. -/
def handleAdd (ts : Int) (value : F64) (onDuplicate : Option DuplicatePolicy) : Outcome A :=
  let lastTs := c.parent.lastSample.map (·.timestamp)
  let (result, parent) := c.parent.add ts value onDuplicate
  let c := { c with parent, written := [] }
  match result with
  | .ok added =>
    if lastTs.any fun lastTs => added.timestamp ≤ lastTs then c.applyOp (.upsert added)
    else c.applyOp (.addNew (c.parent.lastSample.getD added))
  | _ => (.ok (), c)

/-- TS.MADD on the source: `multi_series_merge_samples`, and the retention after it. -/
def mergeSamples (samples : List Sample) : Outcome A :=
  let group := (c.parent.addSamplesInternal samples).2
  let c := { c with parent := group.series, written := [] }
  let r := if group.added.isEmpty then (.ok (), c)
    else c.applyOp (.addBatch group.added group.prevLast group.addedOrder)
  (r.1, { r.2 with parent := r.2.parent.applyRetention })

def removeRangeWithCompaction (start endTs : Int) : Outcome A :=
  match c.parent.removeRange start endTs with
  | .error e => (.error e, c)
  | .ok (deletedCount, parent) =>
    let c := { c with parent, written := [] }
    if deletedCount > 0 then c.applyOp (.removeRange start endTs) else (.ok (), c)

def step (c : CompactionContext A) : Command → Outcome A
  | .add ts value onDuplicate => c.handleAdd ts value onDuplicate
  | .madd samples => c.mergeSamples samples
  | .del start endTs => c.removeRangeWithCompaction start endTs

def run (c : CompactionContext A) (commands : List Command) : CompactionContext A :=
  commands.foldl (fun c command => (c.step command).2) c

end Commands

namespace Command

def samples : Command → List Sample
  | .add ts value _ => [⟨ts, value⟩]
  | .madd samples => samples
  | .del _ _ => []

def onDuplicate : Command → Option DuplicatePolicy
  | .add _ _ onDuplicate => onDuplicate
  | _ => none

def bounds : Command → List Int
  | .del start endTs => [start, endTs]
  | _ => []

/-- The samples a command writes have buckets that end in the range of `i64`; the bounds of a
deletion are timestamps. -/
def Fits (b : Bucketing) (command : Command) : Prop :=
  (∀ x ∈ command.samples, ValidTs x.timestamp ∧ b.Fits x.timestamp) ∧ ∀ t ∈ command.bounds, ValidTs t

instance (b : Bucketing) (command : Command) : Decidable (command.Fits b) := inferInstanceAs (Decidable (_ ∧ _))

end Command

section Conditions

variable {A : Type} [Aggregator A] [DecimalHelpers] [Env]

/-- The command fits, and what the duplicate policy makes of its values and the stored ones is good. -/
def Meets (good : F64 → Prop) (c : CompactionContext A) (command : Command) : Prop :=
  command.Fits c.rule.toBucketing ∧ Settles good (c.parent.sampleDuplicates.resolvePolicy command.onDuplicate)
    c.parent.samples command.samples

/-- Each command meets its condition in the state before it. -/
def RunMeets (good : F64 → Prop) : CompactionContext A → List Command → Prop
  | _, [] => True
  | c, command :: commands => c.Meets good command ∧ RunMeets good (c.step command).2 commands

end Conditions

/-! ### The invariant -/

section Invariant

variable {A : Type} [Aggregator A] [DecimalHelpers]

/-- The destination is the rollup of the source, and both are as the steps need them. -/
structure Synced (good : F64 → Prop) (c : CompactionContext A) : Prop where
  source : c.parent.Unlimited
  fine : Fine good c.rule.toBucketing c.parent.samples
  ready : c.Ready
  rule : Admissible good c.rule
  sync : InSync c.rule c.parent.samples c.dest.samples

variable [LawfulAggregator A] [Env] [LawfulFloatOps] {c : CompactionContext A} {good : F64 → Prop}

structure Stepped (good : F64 → Prop) (c c' : CompactionContext A) : Prop where
  synced : Synced good c'
  same : SameRule c.rule c'.rule
  duplicates : c'.parent.sampleDuplicates = c.parent.sampleDuplicates

structure Handled (good : F64 → Prop) (c : CompactionContext A) (ts : Int) (r : SampleAddResult × TimeSeries)
    (c' : CompactionContext A) : Prop extends Stepped good c c' where
  parent : c'.parent = r.2
  live : c.Live → c'.Live
  marker : Accepts good c.rule.aggregator → c.Live →
    c'.marker = if r.1.isOk then c.rule.markerAfter c.parent.samples c.marker ts else c.marker

structure Merged (good : F64 → Prop) (c : CompactionContext A) (group : PerSeriesSamples)
    (c' : CompactionContext A) : Prop extends Stepped good c c' where
  parent : c'.parent = group.series
  marker : (group.series.samples = c.parent.samples ∧ c'.dest = c.dest ∧ c'.lastForwardClose = c.lastForwardClose)
    ∨ c'.lastForwardClose = ((group.addedOrder.foldl c.rule.traceStep
        ⟨c.rule.bucketStart, group.prevLast, ⟨none, none⟩⟩).marker c.marker).bind fun t => sampleAt t c'.dest.samples

omit [LawfulAggregator A] [LawfulFloatOps] in
theorem Synced.fine_drawn (h : Synced good c) {policy : DuplicatePolicy} {items l' : List Sample}
    (hdrawn : Drawn policy c.parent.samples items l') (hrun : SampleRun l')
    (hitems : ∀ x ∈ items, ValidTs x.timestamp ∧ c.rule.Fits x.timestamp)
    (hsettles : Settles good policy c.parent.samples items) : Fine good c.rule.toBucketing l' := by
  refine ⟨hrun, fun y hy => ?_, fun y hy => hdrawn.values hrun.increasing hsettles hy⟩
  rcases hdrawn.times hy with hy | hy
  · obtain ⟨z, hz, heq⟩ := mem_map.mp hy
    rw [← heq]
    exact h.fine.fits z hz
  · obtain ⟨z, hz, heq⟩ := mem_map.mp hy
    rw [← heq]
    exact (hitems z hz).2

omit [LawfulAggregator A] [Env] [LawfulFloatOps] in
theorem Synced.unchanged (h : Synced good c) {parent : TimeSeries} (hsource : parent.Unlimited)
    (heq : parent.samples = c.parent.samples) (hdup : parent.sampleDuplicates = c.parent.sampleDuplicates) :
    Stepped good c { c with parent, written := [] } :=
  ⟨⟨hsource, by rw [heq]; exact h.fine, h.ready.congr rfl, h.rule, by rw [heq]; exact h.sync⟩, .refl _, hdup⟩

theorem Synced.handleAdd (h : Synced good c) {ts : Int} (hts : ValidTs ts) (hfit : c.rule.Fits ts) {value : F64}
    (onDuplicate : Option DuplicatePolicy) (hsettles : Settles good
      (c.parent.sampleDuplicates.resolvePolicy onDuplicate) c.parent.samples [⟨ts, value⟩]) :
    ∃ c', c.handleAdd ts value onDuplicate = (.ok (), c')
    ∧ Handled good c ts (c.parent.add ts value onDuplicate) c' := by
  obtain ⟨hone, hsource, hset⟩ := h.source.addDeferringRetention_spec (x := ⟨ts, value⟩) hts onDuplicate
  rw [CompactionContext.handleAdd, add_eq]
  generalize c.parent.addDeferringRetention ts value onDuplicate = r at hone hsource hset ⊢
  obtain ⟨res, parent⟩ := r
  rw [applyRetention_of_retention hsource.retention, ite_self]
  rcases hone with ⟨rfl, htook⟩ | ⟨hres, heq, -⟩
  · dsimp only
    have hl := h.source.wf.run.increasing
    have hl' := hsource.wf.run.increasing
    have hfine := h.fine_drawn htook.drawn hsource.wf.run (fun x hx => by
      rw [mem_singleton.mp hx]
      exact ⟨hts, hfit⟩) hsettles
    have hready : Ready { c with parent, written := [] } := h.ready.congr rfl
    have hreads : Reads good { c with parent, written := [] } parent.samples := ⟨hsource.wf, rfl, hfine⟩
    split
    · rename_i hupsert
      -- the newest timestamp stays the newest
      rw [h.source.wf.last] at hupsert
      obtain ⟨last, hlast, hle⟩ : ∃ last, c.parent.samples.getLast? = some last ∧ ts ≤ last.timestamp := by
        cases hlast : c.parent.samples.getLast? with
        | none => rw [hlast] at hupsert; cases hupsert
        | some last =>
          rw [hlast] at hupsert
          exact ⟨last, rfl, by simpa using hupsert⟩
      obtain ⟨hmem, hnewest⟩ := hl.getLast?_eq_some.mp hlast
      obtain ⟨last', hlast', heq⟩ : ∃ last', parent.samples.getLast? = some last'
          ∧ last'.timestamp = last.timestamp := by
        obtain ⟨last', hat⟩ := Option.ne_none_iff_exists'.mp
          (htook.kept (mem_timestamps.mp (mem_map_of_mem hmem)))
        refine ⟨last', hl'.getLast?_eq_some.mpr ⟨mem_of_sampleAt hat, fun y hy => ?_⟩, timestamp_of_sampleAt hat⟩
        rw [timestamp_of_sampleAt hat]
        rcases htook.drawn.times hy with hy | hy
        · obtain ⟨z, hz, hzt⟩ := mem_map.mp hy
          rw [← hzt]
          exact hnewest z hz
        · obtain ⟨z, hz, hzt⟩ := mem_map.mp hy
          rw [← hzt, mem_singleton.mp hz]
          exact hle
      have ho : c.rule.openBucket c.parent.samples = some (c.rule.calcBucketStart last.timestamp) := by
        rw [Bucketing.openBucket, hlast]
        rfl
      have ho' : c.rule.openBucket parent.samples = some (c.rule.calcBucketStart last.timestamp) := by
        rw [Bucketing.openBucket, hlast', Option.map_some, heq]
      obtain ⟨c', hc', hrew⟩ := handleCompactionUpsert_spec (c := { c with parent, written := [] }) h.rule hready
        hreads hsource.retention h.source.wf.run h.sync (x := ⟨ts, value⟩) hts hfit
        (fun t ht => by rw [htook.sampleAt_eq, if_neg ht]) ho ho'
      have hparent : c'.parent = parent := hrew.parent
      refine ⟨c', hc', ⟨⟨hparent ▸ hsource, ?_, hrew.ready, hrew.same.admissible h.rule, hparent ▸ hrew.sync⟩,
        hrew.same, hparent ▸ hset.sampleDuplicates⟩, hparent, fun hlive => hrew.live (hlive.congr rfl rfl),
          fun hacc hlive => ?_⟩
      · rw [hparent, hrew.same.bucketing]
        exact hfine
      · have hbucket : c.rule.calcBucketStart ts ≤ c.rule.calcBucketStart last.timestamp :=
          Bucketing.calcBucketStart_mono h.rule.noWrap hts (h.fine.run.times last hmem) hle
        have hne : c.rule.inBucket (c.rule.calcBucketStart ts) parent.samples ≠ [] :=
          Bucketing.inBucket_ne_nil.mpr ⟨ts, mem_timestamps.mpr htook.mem, rfl⟩
        have hmarker := hrew.marker (fun _ => by
          rw [aggregate_of_accepts hacc (hfine.inBucket _), if_neg hne]
          exact Option.some_ne_none _) (hlive.congr rfl rfl)
        exact (hmarker.trans (Bucketing.markerAfter_of_le ho hbucket).symm).trans (if_pos rfl).symm
    · rename_i happend
      have hlt : ∀ y ∈ c.parent.samples, y.timestamp < ts := by
        intro y hy
        obtain ⟨last, hlast⟩ := Option.ne_none_iff_exists'.mp fun hnone =>
          ne_nil_of_mem hy (getLast?_eq_none_iff.mp hnone)
        have hle := (hl.getLast?_eq_some.mp hlast).2 y hy
        rw [h.source.wf.last, hlast] at happend
        have : ¬ ts ≤ last.timestamp := by simpa using happend
        omega
      have happ := htook.append hl hl' hlt
      have hlast : parent.lastSample = some ⟨ts, value⟩ := by rw [hsource.wf.last, happ, getLast?_concat]
      rw [hlast, Option.getD_some]
      obtain ⟨c', hc', happended⟩ := handleSampleCompaction_spec (c := { c with parent, written := [] }) h.rule hready
        (happ ▸ hfine) h.sync
      have hparent : c'.parent = parent := happended.parent
      refine ⟨c', hc', ⟨⟨hparent ▸ hsource, ?_, happended.ready, happended.same.admissible h.rule, ?_⟩,
        happended.same, hparent ▸ hset.sampleDuplicates⟩, hparent, fun hlive => happended.live (hlive.congr rfl rfl),
          fun hacc _ => ?_⟩
      · rw [hparent, happended.same.bucketing]
        exact hfine
      · rw [hparent, happ]
        exact happended.sync
      · have hmarker := closes_or h.rule.noWrap h.fine hacc (x := ⟨ts, value⟩) hts hlt c.marker
        exact (happended.marker.trans hmarker).trans (if_pos rfl).symm
  · have hkept := h.unchanged hsource heq hset.sampleDuplicates
    cases res with
    | ok sample => cases hres
    | duplicate => exact ⟨_, rfl, hkept, rfl, fun hlive => hlive.congr rfl rfl, fun _ _ => rfl⟩
    | ignored t => exact ⟨_, rfl, hkept, rfl, fun hlive => hlive.congr rfl rfl, fun _ _ => rfl⟩
    | tooOld => exact ⟨_, rfl, hkept, rfl, fun hlive => hlive.congr rfl rfl, fun _ _ => rfl⟩
    | error e => exact ⟨_, rfl, hkept, rfl, fun hlive => hlive.congr rfl rfl, fun _ _ => rfl⟩

theorem Synced.mergeSamples (h : Synced good c) {samples : List Sample}
    (hsamples : ∀ x ∈ samples, ValidTs x.timestamp ∧ c.rule.Fits x.timestamp)
    (hsettles : Settles good (c.parent.sampleDuplicates.resolvePolicy none) c.parent.samples samples) :
    ∃ c', c.mergeSamples samples = (.ok (), c') ∧ Merged good c (c.parent.addSamplesInternal samples).2 c' := by
  have hleft := h.source.addSamplesInternal_spec fun x hx => (hsamples x hx).1
  rw [CompactionContext.mergeSamples]
  generalize (c.parent.addSamplesInternal samples).2 = group at hleft ⊢
  have hsource := hleft.unlimited
  split
  · rename_i hempty
    have heq : group.series.samples = c.parent.samples := by
      refine hsource.wf.run.increasing.ext_sampleAt h.source.wf.run.increasing fun t => hleft.batch.changed t ?_
      rw [isEmpty_iff.mp hempty]
      exact not_mem_nil
    rw [applyRetention_of_retention hsource.retention]
    exact ⟨_, rfl, h.unchanged hsource heq hleft.settings.sampleDuplicates, rfl, .inl ⟨heq, rfl, rfl⟩⟩
  · have hfine := h.fine_drawn hleft.drawn hsource.wf.run hsamples hsettles
    obtain ⟨c', hc', hbatch, hmarker⟩ := handleBatchCompaction_spec
      (c := { c with parent := group.series, written := [] }) h.rule (h.ready.congr rfl)
      ⟨hsource.wf, rfl, hfine⟩ hsource.retention h.fine h.sync hleft.batch
    have hparent : c'.parent = group.series := hbatch.parent
    have happly : c'.parent.applyRetention = c'.parent := by
      rw [hparent, applyRetention_of_retention hsource.retention]
    rw [applyOp, hc']
    rw [happly]
    refine ⟨c', rfl, ⟨⟨hparent ▸ hsource, ?_, hbatch.ready, hbatch.same.admissible h.rule, hparent ▸ hbatch.sync⟩,
      hbatch.same, hparent ▸ hleft.settings.sampleDuplicates⟩, hparent, .inr hmarker⟩
    rw [hparent, hbatch.same.bucketing]
    exact hfine

theorem Synced.removeRangeWithCompaction (h : Synced good c) {start endTs : Int} (hstart : ValidTs start)
    (hend : ValidTs endTs) :
    ∃ c', c.removeRangeWithCompaction start endTs = (.ok (), c') ∧ Stepped good c c' ∧ (c.Live → c'.Live) := by
  obtain ⟨count, parent, hparent, hwf, hset, hvis, hcount, -⟩ := h.source.wf.removeRange_spec start endTs
  have hsource : parent.Unlimited :=
    ⟨hwf, hset.retention.trans h.source.retention, hset.rounding.trans h.source.rounding⟩
  rw [hwf.visible_of_retention hsource.retention, h.source.wf.visible_of_retention h.source.retention] at hvis
  rw [h.source.wf.visible_of_retention h.source.retention] at hcount
  rw [CompactionContext.removeRangeWithCompaction, hparent]
  dsimp only
  split
  · rename_i hpos
    obtain ⟨x, hx⟩ := exists_mem_of_length_pos (hcount ▸ hpos)
    obtain ⟨hx, hbetween⟩ := mem_filter.mp hx
    have hin : start ≤ x.timestamp ∧ x.timestamp ≤ endTs := by simpa using hbetween
    have hfine : Fine good c.rule.toBucketing (samplesOut start endTs c.parent.samples) :=
      h.fine.sublist filter_sublist
    obtain ⟨c', hc', hpruned⟩ := handleCompactionRangeRemoval_spec (c := { c with parent, written := [] }) h.rule
      (h.ready.congr rfl) ⟨hwf, hvis, hfine⟩ hsource.retention h.fine h.sync (ne_nil_of_mem hx) hstart hend
      (hin.1.trans hin.2)
    have hparent' : c'.parent = parent := hpruned.parent
    refine ⟨c', hc', ⟨⟨hparent' ▸ hsource, ?_, hpruned.ready, hpruned.same.admissible h.rule, ?_⟩, hpruned.same,
      hparent' ▸ hset.sampleDuplicates⟩, fun hlive => hpruned.live (hlive.congr rfl rfl)⟩
    · rw [hparent', hpruned.same.bucketing, hvis]
      exact hfine
    · rw [hparent', hvis]
      exact hpruned.sync
  · refine ⟨_, rfl, h.unchanged hsource ?_ hset.sampleDuplicates, fun hlive => hlive.congr rfl rfl⟩
    have hnil : samplesIn start endTs c.parent.samples = [] := length_eq_zero_iff.mp (by omega)
    rw [hvis]
    exact samplesOut_eq_self fun x hx hin => filter_eq_nil_iff.mp hnil x hx (decide_eq_true hin)

/-- **Step lemma.**  A command succeeds and leaves the destination the rollup of the source. -/
theorem Synced.step (h : Synced good c) {command : Command} (hmeets : c.Meets good command) :
    ∃ c', c.step command = (.ok (), c') ∧ Stepped good c c' := by
  obtain ⟨⟨hfits, hbounds⟩, hsettles⟩ := hmeets
  cases command with
  | add ts value onDuplicate =>
    obtain ⟨hts, hfit⟩ := hfits ⟨ts, value⟩ (mem_singleton_self _)
    obtain ⟨c', hc', hhandled⟩ := h.handleAdd hts hfit onDuplicate hsettles
    exact ⟨c', hc', hhandled.toStepped⟩
  | madd samples =>
    obtain ⟨c', hc', hmerged⟩ := h.mergeSamples hfits hsettles
    exact ⟨c', hc', hmerged.toStepped⟩
  | del start endTs =>
    obtain ⟨c', hc', hstep, -⟩ := h.removeRangeWithCompaction (hbounds start (by simp [Command.bounds]))
      (hbounds endTs (by simp [Command.bounds]))
    exact ⟨c', hc', hstep⟩

/-- **Run lemma.** -/
theorem Synced.run (h : Synced good c) {commands : List Command} (hmeets : RunMeets good c commands) :
    Stepped good c (c.run commands) := by
  induction commands generalizing c with
  | nil => exact ⟨h, .refl _, rfl⟩
  | cons command commands ih =>
    obtain ⟨c', hc', hstep⟩ := h.step hmeets.1
    have hmeets' := hmeets.2
    rw [hc'] at hmeets'
    rw [CompactionContext.run, foldl_cons, hc']
    have hrest := ih hstep.synced hmeets'
    exact ⟨hrest.synced, hstep.same.trans hrest.same, hrest.duplicates.trans hstep.duplicates⟩

/-- Where the policies in use combine good values to good ones, it is enough that good values are written. -/
theorem Synced.runMeets (h : Synced good c) {commands : List Command}
    (hfits : ∀ command ∈ commands, command.Fits c.rule.toBucketing ∧ (∀ x ∈ command.samples, good x.value)
      ∧ Combines good (c.parent.sampleDuplicates.resolvePolicy command.onDuplicate)) : RunMeets good c commands := by
  induction commands generalizing c with
  | nil => trivial
  | cons command commands ih =>
    obtain ⟨hfit, hvalues, hcomb⟩ := hfits command mem_cons_self
    have hmeets : c.Meets good command := ⟨hfit, hcomb.settles h.fine.good hvalues⟩
    obtain ⟨c', hc', hstep⟩ := h.step hmeets
    refine ⟨hmeets, ?_⟩
    rw [hc']
    refine ih hstep.synced fun other hother => ?_
    rw [hstep.same.bucketing, hstep.duplicates]
    exact hfits other (mem_cons_of_mem _ hother)

end Invariant

/-! ### Runs from an empty source -/

section Runs

variable {A : Type} [Aggregator A] [DecimalHelpers]

/-- A rule as it is created between two empty series. -/
structure Begins (c : CompactionContext A) : Prop where
  source : c.parent.Unlimited
  dest : c.dest.Plain
  sourceEmpty : c.parent.samples = []
  destEmpty : c.dest.samples = []
  marker : c.lastForwardClose = none
  rule : c.rule.reset = c.rule

/-- The destination is the rollup of the source, and the rule holds the newest bucket. -/
def RolledUp (rule : CompactionRule A) (c : CompactionContext A) : Prop :=
  c.dest.samples = rollup rule.toBucketing rule.aggregator c.parent.samples
    ∧ c.rule.bucketStart = rule.openBucket c.parent.samples
    ∧ (c.rule.aggregator, c.rule.hasSamples) = fresh rule.aggregator (rule.newestBucket c.parent.samples)

instance [DecidableEq A] (rule : CompactionRule A) (c : CompactionContext A) : Decidable (RolledUp rule c) :=
  inferInstanceAs (Decidable (_ ∧ _))

variable {c : CompactionContext A} {good : F64 → Prop}

theorem Begins.synced (h : Begins c) (hrule : Admissible good c.rule) : Synced good c := by
  have hnone : c.rule.openBucket c.parent.samples = none := Bucketing.openBucket_eq_none.mpr h.sourceEmpty
  have hreset : c.rule.aggregator = Aggregator.reset c.rule.aggregator := congrArg (·.aggregator) h.rule.symm
  refine ⟨h.source, ?_, ⟨h.dest, ?_⟩, hrule, ?_, fun o ho => ?_, fun o ho => ?_, fun _ => ⟨?_, fun k => ?_⟩⟩
  · rw [h.sourceEmpty]
    exact ⟨.nil, fun x hx => absurd hx not_mem_nil, fun x hx => absurd hx not_mem_nil⟩
  · rw [h.destEmpty]
    exact fun x hx => absurd hx not_mem_nil
  · rw [hnone, ← h.rule]
    rfl
  · rw [hnone] at ho
    cases ho
  · rw [hnone] at ho
    cases ho
  · refine Prod.ext hreset ?_
    rw [← h.rule]
    rfl
  · rw [h.destEmpty]
    rfl

theorem Synced.rolledUp (h : Synced good c) {rule : CompactionRule A} (hsame : SameRule rule c.rule)
    (hacc : Accepts good rule.aggregator) : RolledUp rule c := by
  have hdest := h.sync.eq_rollup h.rule.noWrap h.fine.run h.fine.good (hacc.congr hsame.reset)
    h.ready.plain.wf.run.increasing
  have hopen : c.rule.openBucket c.parent.samples = rule.openBucket c.parent.samples := by rw [hsame.bucketing]
  refine ⟨?_, h.sync.bucketStart.trans hopen, ?_⟩
  · rw [hdest, hsame.bucketing, rollup_congr hsame.reset]
  · rw [← fresh_congr hsame.reset, Bucketing.newestBucket, ← hopen]
    cases ho : c.rule.openBucket c.parent.samples with
    | none => exact (h.sync.idle ho).1
    | some o =>
      rw [h.sync.aggregator o ho id, hsame.bucketing]
      rfl

/-- **A rule keeps its destination the rollup of its source**, through every run of commands
that store good values whose buckets end in the range of `i64`. -/
theorem run_rolledUp [LawfulAggregator A] [Env] [LawfulFloatOps] (hbegins : Begins c)
    (hrule : Admissible good c.rule) (hacc : Accepts good c.rule.aggregator) {commands : List Command}
    (hmeets : RunMeets good c commands) : RolledUp c.rule (c.run commands) := by
  obtain ⟨hsynced, hsame, -⟩ := (hbegins.synced hrule).run hmeets
  exact hsynced.rolledUp hsame hacc

end Runs

/-- A rule that takes the last value of every ten milliseconds, between two empty series. -/
def lastOfTen : CompactionContext LastAggregator where
  parent := TimeSeries.fresh
  dest := TimeSeries.fresh
  lastForwardClose := none
  rule := ⟨tenMillis, "dest", ⟨none⟩, none, false⟩
  written := []

theorem lastOfTen_begins : letI := oneTenth; Begins lastOfTen :=
  letI := oneTenth
  ⟨⟨fresh_wf, rfl, rfl⟩, ⟨fresh_wf, by decide, rfl, rfl, rfl, rfl⟩, rfl, rfl, rfl, rfl⟩

theorem lastOfTen_admissible : Admissible F64.Ordinary lastOfTen.rule := ⟨by decide, LastAggregator.numeric _⟩

/-- The last bucket of `i64` ends after its range.  When a sample there is overwritten, the
code recalculates an empty range and forgets what it had aggregated. -/
theorem run_rolledUp_fails :
    letI := oneTenth
    letI := keepLastEnv
    ¬ RolledUp lastOfTen.rule (lastOfTen.run
      [.add 9223372036854775800 (F64.ofNat 1) none, .add 9223372036854775800 (F64.ofNat 2) none]) := by
  decide

/-- Appends, a back-fill that overwrites, one that keeps the old value, a batch out of order, and a
deletion that opens an older bucket again. -/
def mixedCommands : List Command :=
  [.add 5 (F64.ofNat 1) none, .add 12 (F64.ofNat 2) none, .add 5 (F64.ofNat 3) none,
    .add 12 (F64.ofNat 7) (some .keepFirst), .madd [⟨31, F64.ofNat 4⟩, ⟨14, F64.ofNat 5⟩, ⟨25, F64.ofNat 6⟩],
      .del 20 40]

/-- Commands on the pair that overwrite or keep write good values where theirs are. -/
theorem lastOfTen_runMeets {commands : List Command} :
    letI := oneTenth
    letI := keepLastEnv
    (∀ command ∈ commands, command.Fits tenMillis ∧ (∀ x ∈ command.samples, F64.Ordinary x.value)
      ∧ (command.onDuplicate = none ∨ command.onDuplicate = some .keepFirst)) →
    RunMeets F64.Ordinary lastOfTen commands := by
  let _ := oneTenth
  let _ := keepLastEnv
  have _ := keepLastEnv_lawful
  intro h
  refine (lastOfTen_begins.synced lastOfTen_admissible).runMeets fun command hcommand => ?_
  obtain ⟨hfits, hvalues, hpolicy⟩ := h command hcommand
  refine ⟨hfits, hvalues, combines_of_keeps _ ?_⟩
  rcases hpolicy with hpolicy | hpolicy
  · rw [hpolicy]
    exact .inr (.inr rfl)
  · rw [hpolicy]
    exact .inr (.inl rfl)

theorem run_rolledUp_mixed :
    letI := oneTenth
    letI := keepLastEnv
    RolledUp lastOfTen.rule (lastOfTen.run mixedCommands) :=
  letI := oneTenth
  letI := keepLastEnv
  letI := keepLastEnv_lawful
  run_rolledUp lastOfTen_begins lastOfTen_admissible (LastAggregator.accepts _) (lastOfTen_runMeets (by decide))

end CompactionContext

end ValkeyTimeSeries
