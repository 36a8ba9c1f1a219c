/-
Series/BulkAdd.lean

The merge of a batch into a series: `series/bulk_add.rs`, the `merge_samples` of
`series/sample_merge.rs` and those of `series/time_series.rs`.

Design.  The batch is cut into groups, one for each chunk that takes part of it and one
for each new chunk, and the groups are merged.  The source merges them in parallel; they
own distinct chunks, so here they go one after the other.  How many samples a group gets
depends on an estimate of the encoded size, which no result depends on.
-/
import ValkeyTimeSeries.Series.IngestNormalize

namespace ValkeyTimeSeries

open CompressedChunk (minSamplesForBpsEstimate)

def overfillDivisor : Nat := 8

/-- Fixed-point scale of the estimates: encoded bytes for this many samples. -/
def bpsScale : Nat := 256

def bpsHistoryChunks : Nat := 4

def bpsProbeWindow : Nat := 128

def bpsProbeWindows : Nat := 4

def worstCaseBytesPerSample : Nat := 20

def divCeil (a b : Nat) : Nat := (a + b - 1) / b

inductive ChunkHolder where
  | existingIdx (idx : Nat)
  | new
deriving DecidableEq, Repr

structure ChunkSampleGroup where
  chunk : ChunkHolder
  samples : List Sample
deriving DecidableEq, Repr

/-- `<[T]>::chunks`: slices of `size` elements, the last of what is left. -/
def slices (size : Nat) : Nat → List Sample → List (List Sample)
  | 0, _ => []
  | fuel + 1, samples =>
    if samples.isEmpty then [] else samples.take size :: slices size fuel (samples.drop size)

def pushNewGroups (samples : List Sample) (size : Nat) : List ChunkSampleGroup :=
  (slices size samples.length samples).map fun slice => ⟨.new, slice⟩

def samplesFor (bytes bps : Nat) : Nat := bytes * bpsScale / bps

/-- New chunks past the end of the series, each filled to its capacity. -/
def addChunksForAppends (samples : List Sample) (chunkSize bps : Nat) : List ChunkSampleGroup :=
  if samples.isEmpty then []
  else if samples.length * worstCaseBytesPerSample ≤ chunkSize then pushNewGroups samples samples.length
  else pushNewGroups samples (max (samplesFor chunkSize bps) 1)

/-- New chunks before the series; a remainder is spread evenly. -/
def addChunksForBackfill (samples : List Sample) (chunkSize bps : Nat) : List ChunkSampleGroup :=
  let n := samples.length
  if n = 0 then []
  else if n * worstCaseBytesPerSample ≤ chunkSize then pushNewGroups samples n
  else
    let cap := max (samplesFor chunkSize bps) 1
    let hard := max (samplesFor (chunkSize + chunkSize / overfillDivisor) bps) cap
    let fewer := n / cap
    let count := if fewer > 0 ∧ divCeil n fewer ≤ hard then fewer else divCeil n cap
    pushNewGroups samples (divCeil n count)

section

variable [DecimalHelpers]

/-- How many of the samples newer than the last chunk it still takes. -/
def tailTake (tail : TimeSeriesChunk) (rest bps : Nat) : Nat :=
  let room := tail.maxSize - tail.size
  if rest * worstCaseBytesPerSample ≤ room then rest else min (samplesFor room bps) rest

/-- Each chunk takes the samples up to its last timestamp, the last one also newer
ones: the groups, and the samples that are left. -/
def groupExisting (bps : Nat) : Nat → List TimeSeriesChunk → List Sample →
    List ChunkSampleGroup × List Sample
  | _, [], samples => ([], samples)
  | idx, chunk :: chunks, samples =>
    let chunkLast := chunk.lastTimestamp
    let upTo := samples.takeWhile fun x => x.timestamp ≤ chunkLast
    let newer := samples.dropWhile fun x => x.timestamp ≤ chunkLast
    let more := if chunks.isEmpty ∧ ¬ newer.isEmpty then tailTake chunk newer.length bps else 0
    let group := upTo ++ newer.take more
    let r := groupExisting bps (idx + 1) chunks (newer.drop more)
    if group.isEmpty then r else (⟨.existingIdx idx, group⟩ :: r.1, r.2)

variable [FloatOps]

/-- A merge that fails is answered for each of its samples. -/
def execMerge (chunk : TimeSeriesChunk) (samples : List Sample) (policy : Option DuplicatePolicy) :
    List SampleAddResult × TimeSeriesChunk :=
  match chunk.mergeSamples samples policy with
  | .ok r => r
  | .error _ => (samples.map fun _ => .error cannotAddSample, chunk)

/-- The bytes and the number of samples of a window of the batch, without its first sample. -/
def probeWindow (scratch : TimeSeriesChunk) (probe : List Sample) :
    Except TsdbError ((Nat × Nat) × TimeSeriesChunk) := do
  let (_, scratch) ← scratch.clear.mergeSamples (probe.take 1) (some .keepLast)
  let head := scratch.size
  let (_, scratch) ← scratch.mergeSamples (probe.drop 1) (some .keepLast)
  pure ((scratch.size - head, scratch.len - 1), scratch)

def probeWindows (batch : List Sample) (window stride : Nat) :
    List Nat → Nat × Nat → TimeSeriesChunk → Except TsdbError (Nat × Nat)
  | [], total, _ => .ok total
  | w :: ws, total, scratch => do
      let (counted, scratch) ← probeWindow scratch ((batch.drop (w * stride)).take window)
      probeWindows batch window stride ws (total.1 + counted.1, total.2 + counted.2) scratch

namespace TimeSeries

variable (s : TimeSeries)

/-- Encoded bytes expected for `bpsScale` samples: those of the recent chunks or, if there
are none to speak of, of windows of the batch. -/
def estimateBps (batch : List Sample) : Nat :=
  let uncompressed := sampleSize * bpsScale
  if !s.isCompressed then uncompressed
  else
    let history := (s.chunks.reverse.filter fun c => c.len ≥ minSamplesForBpsEstimate).take bpsHistoryChunks
    let (bytes, count) := history.foldl (fun t c => (t.1 + c.size, t.2 + c.len)) (0, 0)
    if count > 0 then max (divCeil (bytes * bpsScale) count) 1
    else if batch.length < minSamplesForBpsEstimate then uncompressed
    else
      let window := min bpsProbeWindow batch.length
      let windows := max (min bpsProbeWindows (batch.length / (2 * window))) 1
      let stride := batch.length / windows
      match probeWindows batch window stride (List.range windows) (0, 0) s.createChunk with
      | .error _ => uncompressed
      | .ok (bytes, count) =>
        if count = 0 then uncompressed else max (divCeil (bytes * bpsScale) count) 1

def groupSamplesByChunk (samples : List Sample) : List ChunkSampleGroup :=
  if samples.isEmpty then []
  else
    let chunkSize := s.chunkSizeBytes
    let bps := s.estimateBps samples
    if s.chunks.isEmpty ∨ s.isEmpty then addChunksForAppends samples chunkSize bps
    else
      let firstChunkStart := (s.chunks.head?.map (·.firstTimestamp)).getD 0
      let older := samples.takeWhile fun x => x.timestamp < firstChunkStart
      let others := samples.dropWhile fun x => x.timestamp < firstChunkStart
      let backfill := addChunksForBackfill older chunkSize bps
      if others.isEmpty then backfill
      else
        let r := groupExisting bps 0 s.chunks others
        backfill ++ r.1 ++ addChunksForAppends r.2 chunkSize bps

end TimeSeries

structure MergeState where
  chunks : List TimeSeriesChunk
  newChunks : List TimeSeriesChunk
  results : List SampleAddResult

end

namespace TimeSeries

variable [DecimalHelpers] [Env] (s : TimeSeries)

def mergeGroup (policy : Option DuplicatePolicy) (st : MergeState) (group : ChunkSampleGroup) : MergeState :=
  match group.chunk with
  | .existingIdx idx =>
    match st.chunks[idx]? with
    | none => st
    | some chunk =>
      let (res, chunk) := execMerge chunk group.samples policy
      { st with chunks := st.chunks.set idx chunk, results := st.results ++ res }
  | .new =>
    let (res, chunk) := execMerge s.createChunk group.samples policy
    { st with newChunks := st.newChunks ++ [chunk], results := st.results ++ res }

def mergeSamplesIntoSeries (samples : List Sample) (policy : Option DuplicatePolicy) :
    List SampleAddResult × TimeSeries :=
  if samples.isEmpty then ([], s)
  else
    let resolvedPolicy := some (s.sampleDuplicates.resolvePolicy policy)
    let batch := s.normalizeBatch samples policy
    if batch.toInsert.isEmpty then (batch.results, s)
    else
      let groups := s.groupSamplesByChunk batch.toInsert
      if groups.isEmpty then (batch.results, s)
      else
        let merged := groups.foldl (s.mergeGroup resolvedPolicy) ⟨s.chunks, [], []⟩
        let chunks :=
          if merged.newChunks.isEmpty then merged.chunks
          else sortChunks (merged.chunks ++ merged.newChunks)
        let s := { s with chunks := chunks }
        (splice batch.results (batch.insertIndex.zip merged.results),
          s.updateFirstLastTimestamps.recalculateTotalSamples)

def mergeSamplesDeferringRetention (samples : List Sample) (policyOverride : Option DuplicatePolicy) :
    Except TsdbError (List SampleAddResult) × TimeSeries :=
  if samples.isEmpty then (.ok [], s)
  else
    let (results, s) := s.mergeSamplesIntoSeries samples policyOverride
    match s.splitChunksIfNeeded with
    | (.ok (), s) => (.ok results, s)
    | (.error e, s) => (.error e, s)

def mergeSamples (samples : List Sample) (policyOverride : Option DuplicatePolicy) :
    Except TsdbError (List SampleAddResult) × TimeSeries :=
  match s.mergeSamplesDeferringRetention samples policyOverride with
  | (.ok results, s) => (.ok results, s.applyRetention)
  | (.error e, s) => (.error e, s)

end TimeSeries

end ValkeyTimeSeries
