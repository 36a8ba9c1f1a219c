/-
Compaction/Rule.lean

One compaction rule at work, `series/compaction.rs`: how a write to the source, or a deletion from it, reaches
the destination.

Design.  The handlers take the context and return it with their result, since a handler that fails has changed
it by then.  `DIV-0023` is the source's name for the marker of the destination that tells which bucket was
closed last by a sample moving forward.
-/
import ValkeyTimeSeries.Compaction.Buckets
import ValkeyTimeSeries.Library.Runs

namespace ValkeyTimeSeries

open Runs (joinRuns)

/-- `AggregationHandler`: `update` answers whether the value was taken. -/
class Aggregator (A : Type) where
  update : A → Int → F64 → A × Bool
  reset : A → A
  current : A → Option F64
  emptyValue : A → F64

/-- The value of the bucket, and the aggregator for the next one. -/
def Aggregator.finalize {A : Type} [Aggregator A] (a : A) : F64 × A :=
  ((current a).getD (emptyValue a), reset a)

abbrev Key := String

structure CompactionRule (A : Type) extends Bucketing where
  dest : Key
  aggregator : A
  bucketStart : Option Int
  hasSamples : Bool
deriving DecidableEq, Repr

structure CompactionContext (A : Type) where
  parent : TimeSeries
  dest : TimeSeries
  /-- The marker of the destination. -/
  lastForwardClose : Option Sample
  rule : CompactionRule A
  /-- Samples committed to the destination during this operation, in the order they were
  written. -/
  written : List Sample
deriving DecidableEq, Repr

inductive CompactionOp where
  | addNew (sample : Sample)
  | upsert (sample : Sample)
  | addBatch (samples : List Sample) (prevLast : Option Int) (inputOrder : List Int)
  | removeRange (start endTs : Int)
deriving DecidableEq, Repr

namespace CompactionRule

variable {A : Type} [Aggregator A] (rule : CompactionRule A)

def reset : CompactionRule A :=
  { rule with aggregator := Aggregator.reset rule.aggregator, bucketStart := none, hasSamples := false }

def update (ts : Int) (value : F64) : CompactionRule A :=
  let (aggregator, taken) := Aggregator.update rule.aggregator ts value
  { rule with aggregator, hasSamples := rule.hasSamples || taken }

end CompactionRule

/-! ### The order of a batch -/

structure DestCacheTrace where
  /-- Bucket closed by the last forward advance, if the batch made one. -/
  lastForwardClose : Option Int
  /-- Bucket of the first downstream write in that order, forward or back-fill. -/
  firstWrite : Option Int
deriving DecidableEq, Repr

structure TraceState where
  current : Option Int
  highWater : Option Int
  trace : DestCacheTrace
deriving DecidableEq, Repr

/-- The state of the replay that tells appends and back-fills apart. -/
structure Replay where
  advanced : List Int
  backfilled : List (Int × Int)
  highWater : Option Int
  openBucket : Option Int
deriving DecidableEq, Repr

namespace Bucketing

variable (b : Bucketing)

def traceStep (st : TraceState) (ts : Int) : TraceState :=
  let bucket := b.calcBucketStart ts
  if st.highWater.any fun hw => ts ≤ hw then
    -- a back-fill publishes unless it lands in the bucket that is still open
    if st.current.any fun current => bucket < current then
      { st with trace := { st.trace with firstWrite := st.trace.firstWrite.or (some bucket) } }
    else st
  else
    match st.current with
    | some current =>
      if bucket > current then
        ⟨some bucket, some ts, ⟨some current, st.trace.firstWrite.or (some current)⟩⟩
      else { st with highWater := some ts }
    | none => { st with highWater := some ts, current := some bucket }

def traceDestCacheInInputOrder (preBatchBucketStart prevLast : Option Int) (inputOrder : List Int) :
    DestCacheTrace :=
  (inputOrder.foldl b.traceStep ⟨preBatchBucketStart, prevLast, ⟨none, none⟩⟩).trace

def replayStep (st : Replay) (ts : Int) : Replay :=
  let advance : Replay :=
    { st with
      highWater := some ts
      openBucket := some (b.calcBucketStart ts)
      advanced := st.advanced ++ [ts] }
  match st.highWater with
  | none => advance
  | some max =>
    if ts ≤ max then
      -- a repeat of a timestamp the batch appended is a fold while its bucket is open
      if ts ∉ st.advanced ∨ some (b.calcBucketStart ts) ≠ st.openBucket then
        { st with backfilled := st.backfilled ++ [(ts, max)] }
      else st
    else advance

/-- The back-fills of a batch, each with the newest timestamp at the moment of the last one. -/
def backfilled (openBucket prevLast : Option Int) (inputOrder : List Int) : List (Int × Int) :=
  let replay := inputOrder.foldl b.replayStep ⟨[], [], prevLast, openBucket⟩
  joinRuns (fun kept dup => dup.1 = kept.1) (fun kept dup => (kept.1, max kept.2 dup.2))
    (replay.backfilled.insertionSort fun x y => x.1 ≤ y.1)

end Bucketing

namespace CompactionContext

/-! ### Writing to the destination -/

section

variable {A : Type} [Aggregator A] [DecimalHelpers] [Env] (c : CompactionContext A)

abbrev Outcome (A : Type) := Except TsdbError Unit × CompactionContext A

/-- The `?` operator. -/
def andThen (r : Outcome A) (next : CompactionContext A → Outcome A) : Outcome A :=
  match r.1 with
  | .ok () => next r.2
  | .error e => (.error e, r.2)

def forEach {α : Type} (f : CompactionContext A → α → Outcome A) :
    List α → CompactionContext A → Outcome A
  | [], c => (.ok (), c)
  | x :: xs, c => andThen (f c x) (forEach f xs)

def update (sample : Sample) : CompactionContext A :=
  { c with rule := c.rule.update sample.timestamp sample.value }

def startBucket (bucketStart : Int) (sample : Sample) : CompactionContext A :=
  update { c with rule := { c.rule with bucketStart := some bucketStart } } sample

/-- If the removal took the bucket the marker names, the marker falls back to the newest
sample of the destination. -/
def removeDestRange (start endTs : Int) : Outcome A :=
  match c.dest.removeRange start endTs with
  | .error e => (.error e, c)
  | .ok (_, dest) =>
    let lastForwardClose :=
      match c.lastForwardClose with
      | some marker =>
        if dest.getSample marker.timestamp = .ok none then dest.lastSample else some marker
      | none => none
    (.ok (), { c with dest, lastForwardClose })

/-- `Display for SampleAddResult`, as far as a failed write shows it. -/
def displayFailure : SampleAddResult → String
  | .error e => e
  | _ => "TSDB: Error at upsert, update is not supported when DUPLICATE_POLICY is set to BLOCK mode, "
      ++ "or either current or new value is NaN and DUPLICATE_POLICY is MAX/MIN/SUM"

/-- The stored sample when the write landed. -/
def addDestBucket (ts : Int) (value : F64) : Except TsdbError (Option Sample) × CompactionContext A :=
  let bucketStart := c.rule.calcBucketStart ts
  let (result, dest) := c.dest.add bucketStart value (some .keepLast)
  let c := { c with dest }
  match result with
  | .ok sample =>
    (.ok (some sample), { c with
        written := c.written ++ [sample]
        -- an unset marker takes the first write
        lastForwardClose := c.lastForwardClose.or (some sample) })
  | .ignored _ => (.ok none, c)
  | .tooOld => (.ok none, c)
  | x => (.error (.general ("TSDB: failed to add sample @" ++ toString ts ++ " to destination bucket: "
      ++ displayFailure x)), c)

/-! ### Recalculation -/

end

section

variable {A : Type} [Aggregator A] [DecimalHelpers]

def feed (st : A × Bool) (sample : Sample) : A × Bool :=
  let (aggregator, taken) := Aggregator.update st.1 sample.timestamp sample.value
  (aggregator, st.2 || taken)

def calculateRange (series : TimeSeries) (aggregator : A) (start endTs minTs : Int) (filter : Int → Bool) :
    A × Bool :=
  ((series.storedRangeIter (max start minTs) endTs).filter fun sample => filter sample.timestamp).foldl feed
    (Aggregator.reset aggregator, false)

end

variable {A : Type} [Aggregator A] [DecimalHelpers] [Env] (c : CompactionContext A)

def nullTsFilter (_ts : Int) : Bool := true

def recalculateCurrentBucket (bucketStart bucketEnd minTs : Int) : CompactionContext A :=
  let (aggregator, hasSamples) := calculateRange c.parent c.rule.aggregator bucketStart (bucketEnd - 1) minTs
    nullTsFilter
  { c with rule := { c.rule with aggregator, hasSamples, bucketStart := some bucketStart } }

def recalculateBucket (bucketStart bucketEnd minTs : Int) (filter : Int → Bool) : Outcome A :=
  let (bucketAggregator, hasSamples) := calculateRange c.parent c.rule.aggregator bucketStart (bucketEnd - 1)
    minTs filter
  if hasSamples then
    match c.addDestBucket bucketStart (Aggregator.finalize bucketAggregator).1 with
    | (.ok _, c) => (.ok (), c)
    | (.error e, c) => (.error e, c)
  else c.removeDestRange bucketStart (bucketEnd - 1)

/-! ### A new sample -/

def finalizeCurrentBucket (newSample : Sample) (newBucketStart currentBucketStart : Int) : Outcome A :=
  let closed : Outcome A :=
    if c.rule.hasSamples then
      let (value, aggregator) := Aggregator.finalize c.rule.aggregator
      let c := { c with rule := { c.rule with aggregator } }
      match c.addDestBucket currentBucketStart value with
      | (.ok (some published), c) => (.ok (), { c with lastForwardClose := some published })
      | (.ok none, c) => (.ok (), c)
      | (.error e, c) => (.error e, c)
    else (.ok (), c)
  andThen closed fun c => (.ok (), startBucket { c with rule := c.rule.reset } newBucketStart newSample)

def handleSampleCompaction (sample : Sample) : Outcome A :=
  let sampleBucketStart := c.rule.calcBucketStart sample.timestamp
  match c.rule.bucketStart with
  | none => (.ok (), c.startBucket sampleBucketStart sample)
  | some currentBucketStart =>
    if sampleBucketStart = currentBucketStart then (.ok (), c.update sample)
    else if sampleBucketStart > currentBucketStart then
      c.finalizeCurrentBucket sample sampleBucketStart currentBucketStart
    else
      c.recalculateBucket sampleBucketStart (c.rule.bucketEnd sampleBucketStart) c.parent.getMinTimestamp
        nullTsFilter

/-! ### An upsert -/

def handleCompactionUpsert (sample : Sample) : Outcome A :=
  let bucketStart := c.rule.calcBucketStart sample.timestamp
  match c.rule.bucketStart with
  | none => (.ok (), c.startBucket bucketStart sample)
  | some currentBucketStart =>
    let bucketEnd := c.rule.bucketEnd currentBucketStart
    if bucketStart = currentBucketStart then
      (.ok (), c.recalculateCurrentBucket currentBucketStart bucketEnd c.parent.getMinTimestamp)
    else
      c.recalculateBucket bucketStart (c.rule.bucketEnd bucketStart) c.parent.getMinTimestamp nullTsFilter

/-! ### A batch -/

/-- The retention floor when `lastTs` was the newest timestamp. -/
def floorAt (retention : Retention) (lastTs : Int) : Int :=
  if retention = 0 then 0 else max (saturatingSub lastTs retention.val) 0

def recalculateBatchBucket (c : CompactionContext A) (bucket : Int × Int) : Outcome A :=
  let bucketEnd := c.rule.bucketEnd bucket.1
  if c.rule.bucketStart = none ∨ c.rule.bucketStart = some bucket.1 then
    (.ok (), c.recalculateCurrentBucket bucket.1 bucketEnd bucket.2)
  else c.recalculateBucket bucket.1 bucketEnd bucket.2 nullTsFilter

/-- The appended samples of a batch, and the buckets to recalculate with their floors. -/
def splitBatch (samples : List Sample) (prevLast : Option Int) (inputOrder : List Int) :
    List Sample × List (Int × Int) :=
  let backfilled := c.rule.backfilled c.rule.bucketStart prevLast inputOrder
  let backfillFloor (ts : Int) : Option Int :=
    (backfilled.find? fun entry => entry.1 = ts).map fun entry => floorAt c.parent.retention entry.2
  let upserts := samples.filterMap fun x =>
    (backfillFloor x.timestamp).map fun floor => (c.rule.calcBucketStart x.timestamp, floor)
  (samples.filter fun x => (backfillFloor x.timestamp).isNone,
    joinRuns (fun last next => last.1 = next.1) (fun last next => (last.1, max last.2 next.2)) upserts)

def handleBatchCompaction (samples : List Sample) (prevLast : Option Int) (inputOrder : List Int) : Outcome A :=
  let markerBefore := c.lastForwardClose
  let cacheTrace := c.rule.traceDestCacheInInputOrder c.rule.bucketStart prevLast inputOrder
  let (appends, buckets) := c.splitBatch samples prevLast inputOrder
  andThen (forEach handleSampleCompaction appends c) fun c =>
    -- newest first, so that a bucket the batch opens is the latest one
    andThen (forEach recalculateBatchBucket buckets.reverse c) fun c =>
      let markerBucket := cacheTrace.lastForwardClose.or
        ((markerBefore.map (·.timestamp)).or cacheTrace.firstWrite)
      let lastForwardClose := markerBucket.bind fun ts =>
        match c.dest.getSample ts with
        | .ok sample => sample
        | .error _ => none
      (.ok (), { c with lastForwardClose })

/-! ### A deletion -/

def removeOrRecalculateBucket (bucketStart start endTs : Int) : Outcome A :=
  if c.rule.bucketStart = some bucketStart then (.ok (), c)
  else
    let bucketEnd := c.rule.bucketEnd bucketStart
    if start ≤ bucketStart ∧ endTs ≥ bucketEnd then
      if c.dest.isEmpty then (.ok (), c) else c.removeDestRange bucketStart (bucketEnd - 1)
    else
      c.recalculateBucket bucketStart bucketEnd c.parent.getMinTimestamp fun ts => ts < start ∨ ts > endTs

def resyncOpenBucketAfterRemoval : Outcome A :=
  match c.parent.lastSample with
  | none =>
    let c := { c with rule := c.rule.reset }
    if c.dest.isEmpty then (.ok (), c) else c.removeDestRange i64Min i64Max
  | some lastSample =>
    let (openStart, openEnd) := c.rule.getBucketRange lastSample.timestamp
    andThen (if c.dest.isEmpty then (.ok (), c) else c.removeDestRange openStart i64Max) fun c =>
      let (aggregator, hasSamples) := (c.parent.rangeIter openStart (openEnd - 1)).foldl feed
        (Aggregator.reset c.rule.aggregator, false)
      (.ok (), { c with rule := { c.rule with aggregator, hasSamples, bucketStart := some openStart } })

def handleCompactionRangeRemoval (start endTs : Int) : Outcome A :=
  let firstBucketStart := c.rule.calcBucketStart start
  let lastBucketStart := c.rule.calcBucketStart endTs
  andThen (c.removeOrRecalculateBucket firstBucketStart start endTs) fun c =>
    andThen
      (if lastBucketStart ≠ firstBucketStart then
        let middleStart := c.rule.bucketEnd firstBucketStart
        andThen
          (if middleStart < lastBucketStart ∧ ¬ c.dest.isEmpty then
            c.removeDestRange middleStart (lastBucketStart - 1)
          else (.ok (), c))
          fun c => c.removeOrRecalculateBucket lastBucketStart start endTs
      else (.ok (), c))
      resyncOpenBucketAfterRemoval

def applyOp : CompactionOp → Outcome A
  | .addNew sample => c.handleSampleCompaction sample
  | .upsert sample => c.handleCompactionUpsert sample
  | .addBatch samples prevLast inputOrder => c.handleBatchCompaction samples prevLast inputOrder
  | .removeRange start endTs => c.handleCompactionRangeRemoval start endTs

end CompactionContext

end ValkeyTimeSeries
