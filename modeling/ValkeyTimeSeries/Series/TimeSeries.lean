/-
Series/TimeSeries.lean

The series, `series/time_series.rs`: adding, trimming and deleting samples.

Design.  A method on `&mut self` takes the series and returns its result with the series after it.  The fields
of the struct that storage never reads (its identity, labels and compaction links) are left to the modules
about them. `seal_chunk` and `shrink_to_fit` only give memory back and do not appear.
-/
import ValkeyTimeSeries.Series.Chunks

namespace ValkeyTimeSeries

open BinarySearch

structure TimeSeries where
  retention : Retention
  sampleDuplicates : SampleDuplicatePolicy
  chunkEncoding : ChunkEncoding
  rounding : Option RoundingStrategy
  chunkSizeBytes : Nat
  chunks : List TimeSeriesChunk
  totalSamples : Nat
  firstTimestamp : Int
  lastSample : Option Sample
deriving DecidableEq, Repr

structure TimeSeriesOptions where
  chunkEncoding : ChunkEncoding
  chunkSize : Option Nat
  retention : Option Retention
  duplicatePolicy : Option DuplicatePolicy
  /-- `IGNORE maxTimeDiff maxValDiff` -/
  ignore : Option (BitVec 64 × F64)
  rounding : Option RoundingStrategy
deriving DecidableEq, Repr

def defaultChunkSizeBytes : Nat := 4096

def splitSlackDivisor : Nat := 4

def validateChunkSize (chunkSizeBytes : Nat) : Except TsdbError Unit :=
  let err : TsdbError := .invalidConfiguration
    "TSDB: CHUNK_SIZE value must be a multiple of 8 in the range [48 .. 1048576]"
  if ¬ (minChunkSize ≤ chunkSizeBytes ∧ chunkSizeBytes ≤ maxChunkSize) then .error err
  else if chunkSizeBytes % 8 ≠ 0 then .error err
  else .ok ()

def saturatingSub (a b : Int) : Int := max i64Min (min i64Max (a - b))

namespace TimeSeries

section

variable (s : TimeSeries)

def isEmpty : Bool := decide (s.totalSamples = 0)

def isCompressed : Bool := decide (s.chunkEncoding ≠ .uncompressed)

def lastTimestamp : Int := (s.lastSample.map (·.timestamp)).getD 0

/-- The oldest timestamp that is part of the series: the start of the retention
window, which follows the newest sample. -/
def getMinTimestamp : Int :=
  if s.retention = 0 then s.firstTimestamp
  else
    match s.lastSample with
    | none => 0
    | some last => max (saturatingSub last.timestamp s.retention.val) 0

def isOlderThanRetention (timestamp : Int) : Bool :=
  if s.retention = 0 then false else decide (timestamp < s.getMinTimestamp)

def recordAppendedSample (sample : Sample) : TimeSeries :=
  { s with
    firstTimestamp := if s.totalSamples = 0 then sample.timestamp else s.firstTimestamp
    lastSample := some sample
    totalSamples := s.totalSamples + 1 }

end

section

variable [Env]

def withOptions (options : TimeSeriesOptions) : Except TsdbError TimeSeries := do
  let chunkSizeBytes ← match options.chunkSize with
    | none => pure defaultChunkSizeBytes
    | some chunkSize => do
        validateChunkSize chunkSize
        pure chunkSize
  let (maxTimeDelta, maxValueDelta) := options.ignore.getD (0, 0)
  pure
    { retention := options.retention.getD Env.retentionPeriod
      sampleDuplicates := ⟨options.duplicatePolicy, maxTimeDelta, maxValueDelta⟩
      chunkEncoding := options.chunkEncoding
      rounding := options.rounding
      chunkSizeBytes
      chunks := []
      totalSamples := 0
      firstTimestamp := 0
      lastSample := none }

variable (s : TimeSeries)

def adjustValue (value : F64) : F64 :=
  match s.rounding with
  | none => value
  | some r => Env.round r value

def makeSample (ts : Int) (value : F64) : Sample := ⟨ts, s.adjustValue value⟩

def validateSample (sample lastSample : Sample) (onDuplicate : Option DuplicatePolicy) :
    SampleAddResult :=
  if s.sampleDuplicates.isDuplicate sample lastSample onDuplicate then .ignored lastSample.timestamp
  else .ok sample

end

section

variable [DecimalHelpers] (s : TimeSeries)

/-! ### The cached fields -/

def updateLastSample : TimeSeries :=
  { s with lastSample := s.chunks.getLast?.bind (·.lastSample) }

def updateFirstLastTimestamps : TimeSeries :=
  { s with
    firstTimestamp := (s.chunks.head?.map (·.firstTimestamp)).getD 0
    lastSample := s.chunks.getLast?.bind (·.lastSample) }

def recalculateTotalSamples : TimeSeries :=
  { s with totalSamples := (s.chunks.map (·.len)).sum }

/-! ### Appending -/

def createChunk : TimeSeriesChunk := .new s.chunkEncoding s.chunkSizeBytes

/-- `get_last_chunk` makes sure that there is one. -/
def ensureChunk : TimeSeries :=
  if s.chunks.isEmpty then { s with chunks := s.chunks ++ [s.createChunk] } else s

def getLastChunk : TimeSeriesChunk := s.chunks.getLastD s.createChunk

def addChunkWithSample (sample : Sample) : Except TsdbError TimeSeries := do
  let chunk ← s.createChunk.addSample sample
  pure (recordAppendedSample { s with chunks := s.chunks ++ [chunk] } sample)

def handleFullChunk (sample : Sample) : SampleAddResult × TimeSeries :=
  match s.addChunkWithSample sample with
  | .ok s' => (.ok sample, s')
  | .error (.duplicateSample _) => (.duplicate, s)
  | .error _ => (.error cannotAddSample, s)

def addSampleInternal (sample : Sample) : SampleAddResult × TimeSeries :=
  let s := s.ensureChunk
  let chunk := s.getLastChunk
  if chunk.isFull then s.handleFullChunk sample
  else
    match chunk.addSample sample with
    | .ok chunk =>
      (.ok sample, recordAppendedSample { s with chunks := s.chunks.dropLast ++ [chunk] } sample)
    | .error (.capacityFull _) => s.handleFullChunk sample
    | .error _ => (.error cannotAddSample, s)

/-! ### Trimming -/

/-- The samples dropped with the chunks that lie before the window. -/
def removeExpiredChunks (minTimestamp : Int) : Nat × TimeSeries :=
  let expired := (s.chunks.takeWhile fun chunk => chunk.lastTimestamp < minTimestamp).length
  if expired = 0 then (0, s)
  else (((s.chunks.take expired).map (·.len)).sum, { s with chunks := s.chunks.drop expired })

/-- Whether a head chunk that is partly expired is due for a trim on the write path. -/
def headTrimDue (chunk : TimeSeriesChunk) (minTimestamp : Int) : Bool :=
  if !chunk.isCompressed then true
  else
    let first := chunk.firstTimestamp
    let expired := minTimestamp - first
    let span := chunk.lastTimestamp - first
    decide (expired * 4 ≥ span)

/-- The boundary chunk: samples strictly older than the window are dropped. -/
def trimHead (force : Bool) (minTimestamp : Int) : Except TsdbError (Nat × TimeSeries) :=
  match s.chunks with
  | [] => .ok (0, s)
  | chunk :: rest =>
    if chunk.firstTimestamp < minTimestamp ∧ (force ∨ headTrimDue chunk minTimestamp) then
      match chunk.removeRange 0 (minTimestamp - 1) with
      | .ok (count, chunk) => .ok (count, { s with chunks := chunk :: rest })
      | .error _ => .error .removeRangeError
    else .ok (0, s)

def trimExpired (force : Bool) : Except TsdbError (Nat × TimeSeries) :=
  let minTimestamp := s.getMinTimestamp
  if s.firstTimestamp ≥ minTimestamp then .ok (0, s)
  else do
    let dropped := s.removeExpiredChunks minTimestamp
    let trimmed ← dropped.2.trimHead force minTimestamp
    let deletedCount := dropped.1 + trimmed.1
    let s := { trimmed.2 with totalSamples := trimmed.2.totalSamples - deletedCount }
    pure (deletedCount, if deletedCount > 0 then s.updateFirstLastTimestamps else s)

def trim : Except TsdbError (Nat × TimeSeries) := s.trimExpired true

def trimLazily : Except TsdbError (Nat × TimeSeries) := s.trimExpired false

/-- A trim that fails is logged. -/
def applyRetention : TimeSeries :=
  if s.retention = 0 then s
  else
    match s.trimLazily with
    | .ok (_, s) => s
    | .error _ => s

/-! ### Deleting -/

/-- The chunks that hold samples of a range, first and last of them. -/
def getChunkIndexBounds (start endTs : Int) : Option (Nat × Nat) :=
  if s.isEmpty ∨ start > endTs then none
  else
    let len := s.chunks.length
    let startIdx := findStartChunkIndex s.chunks start
    if startIdx ≥ len then none
    else
      let idx := (findLastGeIndex (s.chunks.drop startIdx) endTs).1
      -- a binary search past the last chunk answers one past the end
      let endIdx := min (startIdx + idx) (len - 1)
      if startIdx = endIdx ∧ (s.chunks[startIdx]?).any fun c => c.firstTimestamp > endTs then none
      else some (startIdx, endIdx)

def removeInternal (chunk : TimeSeriesChunk) (startTs endTs : Int) :
    Except TsdbError (Nat × TimeSeriesChunk) :=
  if chunk.isContainedByRange startTs endTs then .ok (chunk.len, chunk.clear)
  else chunk.removeRange startTs endTs

def removeFromChunks (startTs endTs : Int) :
    List TimeSeriesChunk → Except TsdbError (Nat × List TimeSeriesChunk)
  | [] => .ok (0, [])
  | chunk :: chunks => do
      let (count, chunk) ← removeInternal chunk startTs endTs
      let (counts, chunks) ← removeFromChunks startTs endTs chunks
      pure (count + counts, chunk :: chunks)

/-- The deletion from a series that holds no expired samples. -/
def removeStored (startTs endTs : Int) : Except TsdbError (Nat × TimeSeries) :=
  match s.getChunkIndexBounds startTs endTs with
  | none => .ok (0, s)
  | some (startIndex, endIndex) => do
      let (deleted, chunks) ← removeFromChunks startTs endTs
        ((s.chunks.take (endIndex + 1)).drop startIndex)
      let chunks := s.chunks.take startIndex ++ chunks ++ s.chunks.drop (endIndex + 1)
      let s := { s with
        chunks := chunks.filter fun chunk => !chunk.isEmpty
        totalSamples := s.totalSamples - deleted }
      pure (deleted, s.updateFirstLastTimestamps)

def removeRange (startTs endTs : Int) : Except TsdbError (Nat × TimeSeries) :=
  if startTs > endTs then .ok (0, s)
  else if s.retention = 0 then s.removeStored startTs endTs
  else do
    let (_, s) ← s.trim
    let startTs := max startTs s.getMinTimestamp
    if startTs > endTs then pure (0, s) else s.removeStored startTs endTs

/-! ### Splitting -/

def needsSplit (chunk : TimeSeriesChunk) : Bool :=
  chunk.isFull && decide (chunk.size > chunk.maxSize + chunk.maxSize / splitSlackDivisor)

/-- Each chunk in need is split: the chunks with their lower halves, the upper
halves, and whether a split failed. -/
def splitChunks : List TimeSeriesChunk → (List TimeSeriesChunk × List TimeSeriesChunk) × Bool
  | [] => (([], []), false)
  | chunk :: chunks =>
    let rest := splitChunks chunks
    if needsSplit chunk then
      match chunk.split with
      | .ok (lower, upper) => ((lower :: rest.1.1, upper :: rest.1.2), rest.2)
      | .error _ => ((chunk :: rest.1.1, rest.1.2), true)
    else ((chunk :: rest.1.1, rest.1.2), rest.2)

/-- Chunks sorted by their first timestamps; the sort is stable. -/
def sortChunks (chunks : List TimeSeriesChunk) : List TimeSeriesChunk :=
  chunks.insertionSort fun a b => a.firstTimestamp ≤ b.firstTimestamp

def mergeChunks (existing newChunks : List TimeSeriesChunk) : List TimeSeriesChunk :=
  existing.merge newChunks fun a b => a.firstTimestamp ≤ b.firstTimestamp

def splitChunksIfNeeded : Except TsdbError Unit × TimeSeries :=
  if !s.chunks.any needsSplit then (.ok (), s)
  else
    let ((existing, newChunks), errored) := splitChunks s.chunks
    let s := { s with
      chunks := if newChunks.isEmpty then existing else mergeChunks existing (sortChunks newChunks) }
    (if errored then .error .chunkSplitError else .ok (), s)

end

section

variable [DecimalHelpers] [Env] (s : TimeSeries)

/-! ### Upserting -/

def chunkSplit : String := "TSDB: could not split chunk"

/-- The chunk an upsert goes to: the one that covers the timestamp or, in a gap
between chunks, the one after the gap.  None means it is too old. -/
def upsertTarget (ts : Int) : Option Nat :=
  if ts ≤ s.firstTimestamp then
    if s.isOlderThanRetention ts then none else some 0
  else
    let (pos, found) := getChunkIndex s.chunks ts
    if found then some pos
    else some ((s.chunks.findIdx? fun c => c.firstTimestamp > ts).getD (s.chunks.length - 1))

def upsertDirect (targetIdx : Nat) (chunk : TimeSeriesChunk) (sample : Sample)
    (policy : DuplicatePolicy) : SampleAddResult × TimeSeries :=
  let oldSize := chunk.len
  let ((size, res), chunk) := chunk.upsert sample policy
  let isLast := decide (targetIdx + 1 = s.chunks.length)
  let s := { s with chunks := s.chunks.set targetIdx chunk }
  if res.isOk then
    let s := { s with totalSamples := s.totalSamples + (size - oldSize) }
    let s := if isLast then s.updateLastSample else s
    (res, { s with firstTimestamp := min sample.timestamp s.firstTimestamp })
  else (res, s)

/-- The upper half of a split goes back among the chunks. -/
def insertChunk (newChunk : TimeSeriesChunk) : TimeSeries :=
  if newChunk.len > 0 then
    let insertAt := partitionPoint (fun c : TimeSeriesChunk =>
      c.firstTimestamp ≤ newChunk.firstTimestamp) s.chunks
    { s with chunks := s.chunks.take insertAt ++ newChunk :: s.chunks.drop insertAt }
  else s

/-- The upsert into whichever half of a split chunk owns the timestamp. -/
def upsertSplit (targetIdx : Nat) (chunk : TimeSeriesChunk) (sample : Sample)
    (policy : DuplicatePolicy) : SampleAddResult × TimeSeries :=
  match chunk.split with
  | .error _ => (.error chunkSplit, s)
  | .ok (chunk, newChunk) =>
    let intoNew := decide (newChunk.len > 0 ∧ sample.timestamp ≥ newChunk.firstTimestamp)
    let oldSize := if intoNew then newChunk.len else chunk.len
    let ((size, res), half) := (if intoNew then newChunk else chunk).upsert sample policy
    let (chunk, newChunk) := if intoNew then (chunk, half) else (half, newChunk)
    -- the upper half goes back even when the upsert failed
    let s := insertChunk { s with chunks := s.chunks.set targetIdx chunk } newChunk
    if res.isOk then
      (.ok sample, updateFirstLastTimestamps { s with totalSamples := s.totalSamples + (size - oldSize) })
    else (res, s)

def upsertSample (sample : Sample) (duplicatePolicyOverride : Option DuplicatePolicy) :
    SampleAddResult × TimeSeries :=
  let policy := s.sampleDuplicates.resolvePolicy duplicatePolicyOverride
  match s.upsertTarget sample.timestamp with
  | none => (.tooOld, s)
  | some targetIdx =>
    match s.chunks[targetIdx]? with
    | none => (.error "Internal error: no chunks available in upsert", s)
    | some chunk =>
      if chunk.shouldSplit then s.upsertSplit targetIdx chunk sample policy
      else s.upsertDirect targetIdx chunk sample policy

/-! ### Adding -/

def addDeferringRetention (ts : Int) (value : F64) (dpOverride : Option DuplicatePolicy) :
    SampleAddResult × TimeSeries :=
  let sample := s.makeSample ts value
  if s.isOlderThanRetention ts then (.tooOld, s)
  else
    match s.lastSample with
    | none => s.addSampleInternal sample
    | some last =>
      let lastTs := last.timestamp
      if ts ≥ lastTs ∧ ¬ (s.validateSample sample last dpOverride).isOk then (.ignored lastTs, s)
      else if ts ≤ lastTs then s.upsertSample sample dpOverride
      else s.addSampleInternal sample

def addReportingInsert (ts : Int) (value : F64) (dpOverride : Option DuplicatePolicy) :
    (SampleAddResult × Bool) × TimeSeries :=
  let (result, s') := s.addDeferringRetention ts value dpOverride
  let inserted := decide (s'.totalSamples > s.totalSamples)
  ((result, inserted), if result.isOk then s'.applyRetention else s')

def add (ts : Int) (value : F64) (dpOverride : Option DuplicatePolicy) : SampleAddResult × TimeSeries :=
  let ((result, _), s) := s.addReportingInsert ts value dpOverride
  (result, s)

/-- `increment_sample_value`, at the time `now` where the series is empty and no
timestamp is given. -/
def incrementSampleValue (now : Int) (timestamp : Option Int) (delta : F64) :
    Except String SampleAddResult × TimeSeries :=
  if delta.isNaN then (.error "TSDB: invalid increase/decrease value", s)
  else
    match s.lastSample with
    | some sample =>
      if sample.value.isNaN then (.error "TSDB: cannot increment/decrement NaN value", s)
      else
        let ts := timestamp.getD sample.timestamp
        if ts < sample.timestamp then
          (.error "TSDB: timestamp must be equal to or higher than the maximum existing timestamp", s)
        else
          let (result, s) := s.add ts (FloatOps.add sample.value delta) (some .keepLast)
          (.ok result, s)
    | none =>
      let (result, s) := s.add (timestamp.getD now) delta (some .keepLast)
      (.ok result, s)

end

end TimeSeries

end ValkeyTimeSeries
