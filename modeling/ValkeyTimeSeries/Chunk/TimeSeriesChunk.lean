/-
Chunk/TimeSeriesChunk.lean

The chunk of a series, `series/chunks/timeseries_chunk.rs`: an uncompressed, a Gorilla or a Chimp one.

Design.  `samples` is the list a chunk holds and `Ok` the invariant of a chunk: its list is in time order, a
compressed chunk is the encoding of its list, and its budget is one that `validate_chunk_size` accepts.  Every
operation has one lemma about that list, the same for the three encodings.  The encodings differ in one place:
an uncompressed chunk that is full turns away a sample later than its last one (`Overflows`).
-/
import ValkeyTimeSeries.Chunk.RoundTrip
import ValkeyTimeSeries.Chunk.Uncompressed

namespace ValkeyTimeSeries

open List UncompressedChunk CompressedChunk

inductive ChunkEncoding where
  | uncompressed
  | gorilla
  | chimp
deriving DecidableEq, Repr

inductive TimeSeriesChunk where
  | uncompressed (chunk : UncompressedChunk)
  | gorilla (chunk : GorillaChunk)
  | chimp (chunk : ChimpChunk)
deriving DecidableEq, Repr

def minChunkSize : Nat := 48

def maxChunkSize : Nat := 1048576

namespace CompressedChunk

section

variable {E : Type} [SampleCodec E]

def lastValue (c : CompressedChunk E) : F64 := SampleCodec.lastValue c.encoder

def samples (c : CompressedChunk E) : List Sample := (SampleCodec.decode c.encoder).1

end

variable {E : Type} [LawfulCodec E] {c : CompressedChunk E} {l : List Sample}

theorem Holds.samples_eq (h : Holds c l) : c.samples = l := by
  rw [samples, LawfulCodec.decode_eq h]

theorem Holds.last_eq {s : Sample} (h : Holds c (l ++ [s])) :
    c.lastTimestamp = s.timestamp ∧ c.lastValue = s.value := LawfulCodec.last_eq h

end CompressedChunk

namespace TimeSeriesChunk

/-! ### The operations -/

def getEncoding : TimeSeriesChunk → ChunkEncoding
  | .uncompressed _ => .uncompressed
  | .gorilla _ => .gorilla
  | .chimp _ => .chimp

def isCompressed (c : TimeSeriesChunk) : Bool := decide (c.getEncoding ≠ .uncompressed)

def maxSize : TimeSeriesChunk → Nat
  | .uncompressed c => c.maxSize
  | .gorilla c => c.maxSize
  | .chimp c => c.maxSize

section Operations

variable [DecimalHelpers]

def new (compression : ChunkEncoding) (chunkSize : Nat) : TimeSeriesChunk :=
  match compression with
  | .uncompressed => .uncompressed (.withMaxSize chunkSize)
  | .gorilla => .gorilla (.withMaxSize chunkSize)
  | .chimp => .chimp (.withMaxSize chunkSize)

def firstTimestamp : TimeSeriesChunk → Int
  | .uncompressed c => c.firstTimestamp
  | .gorilla c => c.firstTimestamp
  | .chimp c => c.firstTimestamp

def lastTimestamp : TimeSeriesChunk → Int
  | .uncompressed c => c.lastTimestamp
  | .gorilla c => c.lastTimestamp
  | .chimp c => c.lastTimestamp

def lastValue : TimeSeriesChunk → F64
  | .uncompressed c => c.lastValue
  | .gorilla c => c.lastValue
  | .chimp c => c.lastValue

def len : TimeSeriesChunk → Nat
  | .uncompressed c => c.len
  | .gorilla c => c.len
  | .chimp c => c.len

def isEmpty : TimeSeriesChunk → Bool
  | .uncompressed c => c.isEmpty
  | .gorilla c => c.isEmpty
  | .chimp c => c.isEmpty

def size : TimeSeriesChunk → Nat
  | .uncompressed c => c.size
  | .gorilla c => c.size
  | .chimp c => c.size

def isFull : TimeSeriesChunk → Bool
  | .uncompressed c => c.isFull
  | .gorilla c => c.isFull
  | .chimp c => c.isFull

/-- `utilization() >= SPLIT_FACTOR`, with a factor of 1.2.  The quotient is
rounded, but one of sizes up to `maxChunkSize` cannot round across 1.2. -/
def shouldSplit (c : TimeSeriesChunk) : Bool :=
  decide (c.maxSize ≠ 0 ∧ 5 * c.size ≥ 6 * c.maxSize)

def isTimestampInRange (c : TimeSeriesChunk) (ts : Int) : Bool :=
  decide (ts ≥ c.firstTimestamp ∧ ts ≤ c.lastTimestamp)

def isContainedByRange (c : TimeSeriesChunk) (startTs endTs : Int) : Bool :=
  decide (c.firstTimestamp ≥ startTs ∧ c.lastTimestamp ≤ endTs)

def overlaps (c : TimeSeriesChunk) (startTime endTime : Int) : Bool :=
  decide (c.firstTimestamp ≤ endTime ∧ c.lastTimestamp ≥ startTime)

def iter : TimeSeriesChunk → List Sample
  | .uncompressed c => c.iter
  | .gorilla c => c.iter
  | .chimp c => c.iter

def rangeIter (c : TimeSeriesChunk) (start endTs : Int) : List Sample :=
  match c with
  | .uncompressed c => c.rangeIter start endTs
  | .gorilla c => c.rangeIter start endTs
  | .chimp c => c.rangeIter start endTs

def getRange (c : TimeSeriesChunk) (start endTs : Int) : Except TsdbError (List Sample) :=
  match c with
  | .uncompressed c => c.getRange start endTs
  | .gorilla c => c.getRange start endTs
  | .chimp c => c.getRange start endTs

def hasSamplesInRange (c : TimeSeriesChunk) (startTime endTime : Int) : Bool :=
  if c.isEmpty ∨ ¬ c.overlaps startTime endTime then false
  else (c.rangeIter startTime endTime).head?.isSome

def removeRange (c : TimeSeriesChunk) (startTs endTs : Int) :
    Except TsdbError (Nat × TimeSeriesChunk) :=
  match c with
  | .uncompressed c => (fun r => (r.1, .uncompressed r.2)) <$> c.removeRange startTs endTs
  | .gorilla c => (fun r => (r.1, .gorilla r.2)) <$> c.removeRange startTs endTs
  | .chimp c => (fun r => (r.1, .chimp r.2)) <$> c.removeRange startTs endTs

def clear : TimeSeriesChunk → TimeSeriesChunk
  | .uncompressed c => .uncompressed c.clear
  | .gorilla c => .gorilla c.clear
  | .chimp c => .chimp c.clear

def addSample (c : TimeSeriesChunk) (sample : Sample) : Except TsdbError TimeSeriesChunk :=
  match c with
  | .uncompressed c => .uncompressed <$> c.addSample sample
  | .gorilla c => .gorilla <$> c.addSample sample
  | .chimp c => .chimp <$> c.addSample sample

def split : TimeSeriesChunk → Except TsdbError (TimeSeriesChunk × TimeSeriesChunk)
  | .uncompressed c => (fun r => (.uncompressed r.1, .uncompressed r.2)) <$> c.split
  | .gorilla c => (fun r => (.gorilla r.1, .gorilla r.2)) <$> c.split
  | .chimp c => (fun r => (.chimp r.1, .chimp r.2)) <$> c.split

def lastSample (c : TimeSeriesChunk) : Option Sample :=
  if c.isEmpty then none else some ⟨c.lastTimestamp, c.lastValue⟩

variable [FloatOps]

def upsertSample (c : TimeSeriesChunk) (sample : Sample) (policy : DuplicatePolicy) :
    Except TsdbError (Nat × TimeSeriesChunk) :=
  match c with
  | .uncompressed c => (fun r => (r.1, .uncompressed r.2)) <$> c.upsertSample sample policy
  | .gorilla c => (fun r => (r.1, .gorilla r.2)) <$> c.upsertSample sample policy
  | .chimp c => (fun r => (r.1, .chimp r.2)) <$> c.upsertSample sample policy

/-- The sample count and the outcome, and the chunk: an upsert that fails leaves
it as it was. -/
def upsert (c : TimeSeriesChunk) (sample : Sample) (policy : DuplicatePolicy) :
    (Nat × SampleAddResult) × TimeSeriesChunk :=
  match c.upsertSample sample policy with
  | .ok (size, c') => ((size, .ok sample), c')
  | .error (.duplicateSample _) => ((0, .duplicate), c)
  | .error _ => ((0, .error cannotAddSample), c)

def mergeSamples (c : TimeSeriesChunk) (samples : List Sample) (policy : Option DuplicatePolicy) :
    Except TsdbError (List SampleAddResult × TimeSeriesChunk) :=
  match c with
  | .uncompressed c => (fun r => (r.1, .uncompressed r.2)) <$> c.mergeSamples samples policy
  | .gorilla c => (fun r => (r.1, .gorilla r.2)) <$> c.mergeSamples samples policy
  | .chimp c => (fun r => (r.1, .chimp r.2)) <$> c.mergeSamples samples policy

end Operations

/-! ### The list a chunk holds -/

section Samples

variable [DecimalHelpers]

def samples : TimeSeriesChunk → List Sample
  | .uncompressed c => c.samples
  | .gorilla c => c.samples
  | .chimp c => c.samples

/-- The samples are in order, and an encoder is the one that encodes them. -/
def Sound : TimeSeriesChunk → Prop
  | .uncompressed c => SampleRun c.samples ∧ c.maxElements = c.maxSize / sampleSize
  | .gorilla c => c.Holds c.samples
  | .chimp c => c.Holds c.samples

structure Ok (c : TimeSeriesChunk) : Prop where
  sound : c.Sound
  minSize : minChunkSize ≤ c.maxSize

/-- A chunk of the same kind and budget that holds the list. -/
structure Becomes (c c' : TimeSeriesChunk) (l : List Sample) : Prop where
  ok : c'.Ok
  samples_eq : c'.samples = l
  maxSize_eq : c'.maxSize = c.maxSize
  encoding_eq : c'.getEncoding = c.getEncoding

/-- A full uncompressed chunk turns away a sample later than its last one. -/
def Overflows (c : TimeSeriesChunk) (ts : Int) : Prop :=
  match c with
  | .uncompressed c => c.samples ≠ [] ∧ c.isFull = true ∧ c.lastTimestamp < ts
  | _ => False

instance (c : TimeSeriesChunk) (ts : Int) : Decidable (c.Overflows ts) :=
  match c with
  | .uncompressed _ => inferInstanceAs (Decidable (_ ∧ _ ∧ _))
  | .gorilla _ => inferInstanceAs (Decidable False)
  | .chimp _ => inferInstanceAs (Decidable False)

variable {c : TimeSeriesChunk}

variable (h : c.Ok)
include h

theorem Ok.run : SampleRun c.samples := by
  cases c with
  | uncompressed c => exact h.sound.1
  | gorilla c => exact CompressedChunk.Holds.run h.sound
  | chimp c => exact CompressedChunk.Holds.run h.sound

theorem Ok.len_eq : c.len = c.samples.length := by
  cases c with
  | uncompressed c => rfl
  | gorilla c => exact CompressedChunk.Holds.len_eq h.sound
  | chimp c => exact CompressedChunk.Holds.len_eq h.sound

theorem Ok.isEmpty_eq : c.isEmpty = decide (c.samples = []) := by
  cases c with
  | uncompressed c => exact c.isEmpty_eq
  | gorilla c => exact CompressedChunk.Holds.isEmpty_eq h.sound
  | chimp c => exact CompressedChunk.Holds.isEmpty_eq h.sound

theorem Ok.firstTimestamp_eq : c.firstTimestamp = headTs c.samples := by
  cases c with
  | uncompressed c => exact c.firstTimestamp_eq
  | gorilla c => exact CompressedChunk.Holds.firstTimestamp_eq h.sound
  | chimp c => exact CompressedChunk.Holds.firstTimestamp_eq h.sound

theorem Ok.last_eq {l : List Sample} {s : Sample} (hl : c.samples = l ++ [s]) :
    c.lastTimestamp = s.timestamp ∧ c.lastValue = s.value := by
  cases c with
  | uncompressed c =>
    have hl : c.samples = l ++ [s] := hl
    simp only [lastTimestamp, lastValue, UncompressedChunk.lastTimestamp, UncompressedChunk.lastValue, hl,
      getLast?_concat]
    exact ⟨rfl, rfl⟩
  | gorilla c =>
    have hc : c.Holds c.samples := h.sound
    rw [show c.samples = l ++ [s] from hl] at hc
    exact hc.last_eq
  | chimp c =>
    have hc : c.Holds c.samples := h.sound
    rw [show c.samples = l ++ [s] from hl] at hc
    exact hc.last_eq

theorem Ok.lastSample_eq : c.lastSample = c.samples.getLast? := by
  rw [lastSample, h.isEmpty_eq]
  rcases eq_nil_or_concat c.samples with hnil | ⟨l, s, hl⟩
  · rw [hnil]
    rfl
  · rw [concat_eq_append] at hl
    obtain ⟨hts, hv⟩ := h.last_eq hl
    rw [hl, getLast?_concat, if_neg (by simp), hts, hv]

theorem Ok.bounds {s : Sample} (hs : s ∈ c.samples) :
    c.firstTimestamp ≤ s.timestamp ∧ s.timestamp ≤ c.lastTimestamp := by
  rw [h.firstTimestamp_eq]
  refine ⟨h.run.headTs_le hs, ?_⟩
  rcases eq_nil_or_concat c.samples with hnil | ⟨l, last, hl⟩
  · rw [hnil] at hs
    exact absurd hs not_mem_nil
  · rw [concat_eq_append] at hl
    have hrun := h.run
    rw [(h.last_eq hl).1]
    rw [hl] at hrun hs
    exact hrun.le_last hs

theorem Ok.first_mem (hne : c.samples ≠ []) : ∃ s ∈ c.samples, s.timestamp = c.firstTimestamp := by
  rw [h.firstTimestamp_eq]
  cases hl : c.samples with
  | nil => exact absurd hl hne
  | cons s l => exact ⟨s, mem_cons_self, rfl⟩

theorem Ok.last_mem (hne : c.samples ≠ []) : ∃ s ∈ c.samples, s.timestamp = c.lastTimestamp := by
  obtain ⟨l, s, hl⟩ := (eq_nil_or_concat c.samples).resolve_left hne
  rw [concat_eq_append] at hl
  refine ⟨s, ?_, (h.last_eq hl).1.symm⟩
  rw [hl]
  exact mem_append_right _ mem_cons_self

theorem Ok.rangeIter_eq (startTs endTs : Int) :
    c.rangeIter startTs endTs = samplesIn startTs endTs c.samples := by
  cases c with
  | uncompressed c => exact UncompressedChunk.rangeIter_eq h.sound.1 startTs endTs
  | gorilla c => exact CompressedChunk.Holds.rangeIter_eq h.sound startTs endTs
  | chimp c => exact CompressedChunk.Holds.rangeIter_eq h.sound startTs endTs

theorem Ok.iter_eq : c.iter = c.samples := by
  cases c with
  | uncompressed c => rfl
  | gorilla c => exact CompressedChunk.Holds.iter_eq h.sound
  | chimp c => exact CompressedChunk.Holds.iter_eq h.sound

theorem Ok.getRange_eq (startTs endTs : Int) :
    c.getRange startTs endTs = .ok (samplesIn startTs endTs c.samples) := by
  cases c with
  | uncompressed c => exact congrArg Except.ok (UncompressedChunk.rangeIter_eq h.sound.1 startTs endTs)
  | gorilla c => exact CompressedChunk.Holds.getRange_eq h.sound startTs endTs
  | chimp c => exact CompressedChunk.Holds.getRange_eq h.sound startTs endTs

/-- A chunk past its budget has two samples at least: the smallest budget is
larger than what one sample takes in any encoding. -/
theorem Ok.two_le_length (hsize : c.maxSize < c.size) : 2 ≤ c.samples.length := by
  have hmin := h.minSize
  rw [minChunkSize] at hmin
  have hle : c.size ≤ 21 * c.samples.length := by
    cases c with
    | uncompressed c =>
      change c.samples.length * 16 ≤ 21 * c.samples.length
      omega
    | gorilla c => exact CompressedChunk.Holds.size_le h.sound
    | chimp c => exact CompressedChunk.Holds.size_le h.sound
  omega

theorem Ok.two_le_of_shouldSplit (hsplit : c.shouldSplit = true) : 2 ≤ c.samples.length := by
  have hmin := h.minSize
  rw [shouldSplit, decide_eq_true_eq] at hsplit
  exact h.two_le_length (by omega)

end Samples

/-! ### What the operations do -/

section Specs

variable [DecimalHelpers] {c : TimeSeriesChunk}

theorem Ok.becomes (h : c.Ok) : Becomes c c c.samples := ⟨h, rfl, rfl, rfl⟩

theorem becomes_gorilla {c c' : GorillaChunk} {l : List Sample} (h : (gorilla c).Ok)
    (hc : c.Becomes c' l) : Becomes (.gorilla c) (.gorilla c') l := by
  obtain ⟨hholds, hmax⟩ := hc
  have hl := hholds.samples_eq
  exact ⟨⟨show c'.Holds c'.samples by rwa [hl], h.minSize.trans hmax.ge⟩, hl, hmax, rfl⟩

theorem becomes_chimp {c c' : ChimpChunk} {l : List Sample} (h : (chimp c).Ok)
    (hc : c.Becomes c' l) : Becomes (.chimp c) (.chimp c') l := by
  obtain ⟨hholds, hmax⟩ := hc
  have hl := hholds.samples_eq
  exact ⟨⟨show c'.Holds c'.samples by rwa [hl], h.minSize.trans hmax.ge⟩, hl, hmax, rfl⟩

theorem becomes_uncompressed {c : UncompressedChunk} {l : List Sample} (h : (uncompressed c).Ok)
    (hl : SampleRun l) : Becomes (.uncompressed c) (.uncompressed { c with samples := l }) l :=
  ⟨⟨⟨hl, h.sound.2⟩, h.minSize⟩, rfl, rfl, rfl⟩

variable (compression : ChunkEncoding)

theorem new_ok {chunkSize : Nat} (hsize : minChunkSize ≤ chunkSize) :
    (new compression chunkSize).Ok := by
  cases compression with
  | uncompressed => exact ⟨⟨SampleRun.nil, rfl⟩, hsize⟩
  | gorilla =>
    have h := withMaxSize_holds (E := GorillaEncoder) chunkSize
    exact ⟨show CompressedChunk.Holds _ (CompressedChunk.samples _) by rwa [h.samples_eq], hsize⟩
  | chimp =>
    have h := withMaxSize_holds (E := ChimpCompressor) chunkSize
    exact ⟨show CompressedChunk.Holds _ (CompressedChunk.samples _) by rwa [h.samples_eq], hsize⟩

@[simp] theorem samples_new (chunkSize : Nat) :
    (new compression chunkSize).samples = [] := by
  cases compression with
  | uncompressed => rfl
  | gorilla => exact (withMaxSize_holds (E := GorillaEncoder) chunkSize).samples_eq
  | chimp => exact (withMaxSize_holds (E := ChimpCompressor) chunkSize).samples_eq

@[simp] theorem getEncoding_new (chunkSize : Nat) :
    (new compression chunkSize).getEncoding = compression := by
  cases compression <;> rfl

theorem Ok.clear_spec (h : c.Ok) : Becomes c c.clear [] := by
  cases c with
  | uncompressed c => exact becomes_uncompressed h SampleRun.nil
  | gorilla c => exact becomes_gorilla h ⟨withMaxSize_holds c.maxSize, rfl⟩
  | chimp c => exact becomes_chimp h ⟨withMaxSize_holds c.maxSize, rfl⟩

theorem Ok.removeRange_spec (h : c.Ok) (startTs endTs : Int) : ∃ c', c.removeRange startTs endTs
    = .ok (c.samples.length - (samplesOut startTs endTs c.samples).length, c')
    ∧ Becomes c c' (samplesOut startTs endTs c.samples) := by
  cases c with
  | uncompressed c =>
    refine ⟨_, ?_, becomes_uncompressed h (h.run.sublist filter_sublist)⟩
    rw [removeRange, removeRange_spec h.sound.1]
    rfl
  | gorilla c =>
    obtain ⟨c', hc', hbecomes⟩ := CompressedChunk.Holds.removeRange_spec h.sound startTs endTs
    exact ⟨.gorilla c', by rw [removeRange, hc']; rfl, becomes_gorilla h hbecomes⟩
  | chimp c =>
    obtain ⟨c', hc', hbecomes⟩ := CompressedChunk.Holds.removeRange_spec h.sound startTs endTs
    exact ⟨.chimp c', by rw [removeRange, hc']; rfl, becomes_chimp h hbecomes⟩

theorem Ok.addSample_spec {s : Sample} (h : c.Ok) (hroom : c.isFull = false) (hrun : SampleRun (c.samples ++ [s])) :
    ∃ c', c.addSample s = .ok c' ∧ Becomes c c' (c.samples ++ [s]) := by
  cases c with
  | uncompressed c =>
    have hfull : ¬ c.isFull = true := by rw [show c.isFull = false from hroom]; exact Bool.false_ne_true
    refine ⟨_, ?_, becomes_uncompressed h hrun⟩
    rw [addSample, UncompressedChunk.addSample, if_neg hfull]
    rfl
  | gorilla c =>
    obtain ⟨c', hc', hbecomes⟩ := CompressedChunk.Holds.addSample_spec h.sound hrun
    exact ⟨.gorilla c', by rw [addSample, hc']; rfl, becomes_gorilla h hbecomes⟩
  | chimp c =>
    obtain ⟨c', hc', hbecomes⟩ := CompressedChunk.Holds.addSample_spec h.sound hrun
    exact ⟨.chimp c', by rw [addSample, hc']; rfl, becomes_chimp h hbecomes⟩

theorem new_isFull {chunkSize : Nat} (hsize : minChunkSize ≤ chunkSize) :
    (new compression chunkSize).isFull = false := by
  rw [minChunkSize] at hsize
  have hempty : ∀ {E : Type} [LawfulCodec E],
      (CompressedChunk.withMaxSize chunkSize : CompressedChunk E).isFull = false := by
    intro E _
    have hle := (withMaxSize_holds (E := E) chunkSize).size_le
    rw [length_nil] at hle
    exact decide_eq_false (show ¬ _ ≥ chunkSize by omega)
  cases compression with
  | uncompressed =>
    refine decide_eq_false (show ¬ (0 : Nat) ≥ chunkSize / sampleSize from ?_)
    rw [sampleSize]
    omega
  | gorilla => exact hempty
  | chimp => exact hempty

omit [DecimalHelpers] in
theorem halves_ne_nil {l : List Sample} (h : 2 ≤ l.length) : l.take (l.length / 2) ≠ [] ∧ l.drop (l.length / 2) ≠ [] :=
  ⟨ne_nil_of_length_pos (by rw [length_take]; omega), ne_nil_of_length_pos (by rw [length_drop]; omega)⟩

theorem Ok.split_spec (h : c.Ok) (hlen : 2 ≤ c.samples.length) :
    ∃ c₁ c₂, c.split = .ok (c₁, c₂) ∧ Becomes c c₁ (c.samples.take (c.samples.length / 2))
    ∧ Becomes c c₂ (c.samples.drop (c.samples.length / 2)) := by
  have hne : c.samples ≠ [] := by
    intro hnil
    rw [hnil] at hlen
    exact absurd hlen (by decide)
  have htake : SampleRun (c.samples.take (c.samples.length / 2)) := h.run.sublist (take_sublist ..)
  have hdrop : SampleRun (c.samples.drop (c.samples.length / 2)) := h.run.sublist (drop_sublist ..)
  cases c with
  | uncompressed c =>
    refine ⟨_, _, ?_, becomes_uncompressed h htake, becomes_uncompressed h hdrop⟩
    rw [split, split_spec hlen]
    rfl
  | gorilla c =>
    obtain ⟨c₁, c₂, hc, h₁, h₂⟩ := CompressedChunk.Holds.split_spec h.sound hne
    exact ⟨.gorilla c₁, .gorilla c₂, by rw [split, hc]; rfl, becomes_gorilla h h₁, becomes_gorilla h h₂⟩
  | chimp c =>
    obtain ⟨c₁, c₂, hc, h₁, h₂⟩ := CompressedChunk.Holds.split_spec h.sound hne
    exact ⟨.chimp c₁, .chimp c₂, by rw [split, hc]; rfl, becomes_chimp h h₁, becomes_chimp h h₂⟩

/-- What an upsert does to a chunk: it holds what the policy makes of its list,
or nothing changes. -/
def Upserted (c : TimeSeriesChunk) (r : Except TsdbError (List Sample))
    (res : Except TsdbError (Nat × TimeSeriesChunk)) : Prop :=
  match r with
  | .ok l => ∃ c', res = .ok (l.length, c') ∧ Becomes c c' l
  | .error e => res = .error e

theorem upserted_wrap {E : Type} [LawfulCodec E] {c : CompressedChunk E}
    {r : Except TsdbError (List Sample)} {res : Except TsdbError (Nat × CompressedChunk E)}
    (wrap : CompressedChunk E → TimeSeriesChunk)
    (hwrap : ∀ {c' l}, c.Becomes c' l → Becomes (wrap c) (wrap c') l) (h : c.Upserted r res) :
    Upserted (wrap c) r ((fun r => (r.1, wrap r.2)) <$> res) := by
  cases r with
  | ok l =>
    obtain ⟨c', rfl, hbecomes⟩ := h
    exact ⟨wrap c', rfl, hwrap hbecomes⟩
  | error e =>
    obtain rfl : res = .error e := h
    rfl

variable [FloatOps] {policy : DuplicatePolicy} {s : Sample}

theorem Ok.upsertSample_spec (h : c.Ok) (hs : ValidTs s.timestamp) (policy : DuplicatePolicy)
    (hroom : ¬ c.Overflows s.timestamp) : Upserted c (policy.upsert s c.samples) (c.upsertSample s policy) := by
  cases c with
  | uncompressed c =>
    have hspec := UncompressedChunk.upsertSample_spec (s := s) h.sound.1 policy
    replace hspec := hspec.trans (if_neg hroom)
    rw [upsertSample, hspec]
    change Upserted _ (policy.upsert s c.samples) _
    cases hr : policy.upsert s c.samples with
    | ok l => exact ⟨_, rfl, becomes_uncompressed h (SampleRun.upsert h.sound.1 hs hr)⟩
    | error e => rfl
  | gorilla c =>
    exact upserted_wrap .gorilla (becomes_gorilla h)
      (CompressedChunk.Holds.upsertSample_spec h.sound hs policy)
  | chimp c =>
    exact upserted_wrap .chimp (becomes_chimp h)
      (CompressedChunk.Holds.upsertSample_spec h.sound hs policy)

theorem Ok.upsert_spec (h : c.Ok) (hs : ValidTs s.timestamp) (policy : DuplicatePolicy)
    (hroom : ¬ c.Overflows s.timestamp) :
    match policy.upsert s c.samples with
    | .ok l => ∃ c', c.upsert s policy = ((l.length, .ok s), c') ∧ Becomes c c' l
    | .error _ => c.upsert s policy = ((0, .duplicate), c) := by
  have hspec := h.upsertSample_spec hs policy hroom
  cases hr : policy.upsert s c.samples with
  | ok l =>
    rw [hr] at hspec
    obtain ⟨c', hc', hbecomes⟩ := hspec
    exact ⟨c', by rw [upsert, hc'], hbecomes⟩
  | error e =>
    rw [hr] at hspec
    obtain ⟨what, rfl⟩ := DuplicatePolicy.upsert_error hr
    rw [upsert, hspec]

theorem Ok.upsert_overflows (h : c.Ok) (policy : DuplicatePolicy) (hover : c.Overflows s.timestamp) :
    c.upsert s policy = ((0, .error cannotAddSample), c) := by
  cases c with
  | uncompressed c =>
    have hspec := (UncompressedChunk.upsertSample_spec (s := s) h.sound.1 policy).trans (if_pos hover)
    rw [upsert, upsertSample, hspec]
    rfl
  | gorilla c => exact hover.elim
  | chimp c => exact hover.elim

theorem Ok.mergeSamples_spec (h : c.Ok) {samples : List Sample} (hs : SampleRun samples)
    (policy : DuplicatePolicy) (hroom : ∀ s, samples = [s] → c.isFull = true → ¬ ∀ b ∈ c.samples, b.timestamp <
    s.timestamp) :
    ∃ c', c.mergeSamples samples (some policy) = .ok (policy.mergeAnswers c.isCompressed c.samples samples, c')
    ∧ Becomes c c' (policy.putAll samples c.samples) := by
  cases c with
  | uncompressed c =>
    have haway : ¬ c.TurnsAway samples := by
      rintro ⟨s, hone, hfull, hlt⟩
      exact hroom s hone hfull hlt
    have hspec := mergeSamples_spec h.sound.1 hs (some policy) haway
    refine ⟨_, ?_, becomes_uncompressed h (h.run.putAll hs.times)⟩
    rw [mergeSamples, hspec]
    rfl
  | gorilla c =>
    obtain ⟨c', hc', hbecomes⟩ := CompressedChunk.Holds.mergeSamples_spec h.sound hs (some policy)
    exact ⟨.gorilla c', by rw [mergeSamples, hc']; rfl, becomes_gorilla h hbecomes⟩
  | chimp c =>
    obtain ⟨c', hc', hbecomes⟩ := CompressedChunk.Holds.mergeSamples_spec h.sound hs (some policy)
    exact ⟨.chimp c', by rw [mergeSamples, hc']; rfl, becomes_chimp h hbecomes⟩

end Specs

end TimeSeriesChunk

end ValkeyTimeSeries
