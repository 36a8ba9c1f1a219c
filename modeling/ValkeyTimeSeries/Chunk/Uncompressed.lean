/-
Chunk/Uncompressed.lean

The uncompressed chunk, `series/chunks/uncompressed/mod.rs`.

Design.  The chunk is a vector of samples with a capacity in elements.  Only `add_sample` looks at the
capacity, so a chunk can come to hold more than that, and then an upsert past its last sample fails.
-/
import ValkeyTimeSeries.Library.BinarySearch
import ValkeyTimeSeries.Chunk.Codec
import ValkeyTimeSeries.Chunk.Merge

namespace ValkeyTimeSeries

open List SortedList BinarySearch

def sampleSize : Nat := 16

def maxUncompressedSamples : Nat := 256

structure UncompressedChunk where
  maxSize : Nat
  samples : List Sample
  maxElements : Nat
deriving DecidableEq, Repr

/-- `binary_search_by` on timestamps: the index of the first sample not before
`ts`, and whether it is at `ts`. -/
def searchTimestamp (samples : List Sample) (ts : Int) : Nat × Bool :=
  match binarySearchBy (fun s => compare s.timestamp ts) samples with
  | .ok idx => (idx, true)
  | .error idx => (idx, false)

namespace UncompressedChunk

def withMaxSize (size : Nat) : UncompressedChunk := ⟨size, [], size / sampleSize⟩

def len (c : UncompressedChunk) : Nat := c.samples.length

def isEmpty (c : UncompressedChunk) : Bool := decide (c.len = 0)

def firstTimestamp (c : UncompressedChunk) : Int := (c.samples.head?.map (·.timestamp)).getD 0

def lastTimestamp (c : UncompressedChunk) : Int := (c.samples.getLast?.map (·.timestamp)).getD i64Max

/-- The last value, `f64::MAX` if there is none. -/
def lastValue (c : UncompressedChunk) : F64 := (c.samples.getLast?.map (·.value)).getD 0x7FEFFFFFFFFFFFFF

def size (c : UncompressedChunk) : Nat := c.len * sampleSize

def isFull (c : UncompressedChunk) : Bool := decide (c.len ≥ c.maxElements)

/-- The indices of the first and of the last sample in a range. -/
def getIndexBounds (c : UncompressedChunk) (start endTs : Int) : Option (Nat × Nat) :=
  if start > endTs then none
  else if c.len = 0 then none
  else if endTs < c.firstTimestamp ∨ start > c.lastTimestamp then none
  else
    let startIdx := (searchTimestamp c.samples start).1
    if startIdx ≥ c.len then none
    else
      let (endIdx, found) := searchTimestamp c.samples endTs
      -- an end that is not there means the sample before it
      let endIdx :=
        if !found ∧ endIdx > 0 ∧ (c.samples.drop (endIdx - 1)).head?.any (fun s => s.timestamp < endTs)
        then endIdx - 1 else endIdx
      if startIdx = endIdx ∧ (c.samples.drop startIdx).head?.any (fun s => s.timestamp > endTs) then none
      else some (startIdx, endIdx)

def rangeIter (c : UncompressedChunk) (startTs endTs : Int) : List Sample :=
  match c.getIndexBounds startTs endTs with
  | none => []
  | some (startIdx, endIdx) => (c.samples.take (endIdx + 1)).drop startIdx

def getRange (c : UncompressedChunk) (start endTs : Int) : Except TsdbError (List Sample) :=
  .ok (c.rangeIter start endTs)

def iter (c : UncompressedChunk) : List Sample := c.samples

def removeRange (c : UncompressedChunk) (startTs endTs : Int) :
    Except TsdbError (Nat × UncompressedChunk) :=
  let samples :=
    match c.getIndexBounds startTs endTs with
    | none => c.samples
    | some (startIdx, endIdx) => c.samples.take startIdx ++ c.samples.drop (endIdx + 1)
  .ok (c.len - samples.length, { c with samples })

def addSample (c : UncompressedChunk) (sample : Sample) : Except TsdbError UncompressedChunk :=
  if c.isFull then .error (.capacityFull maxUncompressedSamples)
  else .ok { c with samples := c.samples ++ [sample] }

def clear (c : UncompressedChunk) : UncompressedChunk := { c with samples := [] }

def split (c : UncompressedChunk) : Except TsdbError (UncompressedChunk × UncompressedChunk) :=
  if c.samples.isEmpty then .ok (c, c)
  else if c.samples.length = 1 then .ok (c, { c with samples := [] })
  else
    let half := c.samples.length / 2
    .ok ({ c with samples := c.samples.take half }, { c with samples := c.samples.drop half })

variable [FloatOps]

def handleInsert (c : UncompressedChunk) (sample : Sample) (policy : DuplicatePolicy) :
    Except TsdbError UncompressedChunk :=
  let (idx, found) := searchTimestamp c.samples sample.timestamp
  match found, (c.samples.drop idx).head? with
  | true, some current => do
      let value ← policy.duplicateValue current.value sample.value
      pure { c with samples := c.samples.set idx ⟨current.timestamp, value⟩ }
  | _, _ => .ok { c with samples := c.samples.take idx ++ sample :: c.samples.drop idx }

def upsertSample (c : UncompressedChunk) (sample : Sample) (policy : DuplicatePolicy) :
    Except TsdbError (Nat × UncompressedChunk) :=
  if c.isEmpty then .ok (1, { c with samples := [sample] })
  else
    (fun c => (c.len, c)) <$>
      if sample.timestamp > c.lastTimestamp then c.addSample sample
      else c.handleInsert sample policy

def mergeSamples (c : UncompressedChunk) (samples : List Sample) (policy : Option DuplicatePolicy) :
    Except TsdbError (List SampleAddResult × UncompressedChunk) :=
  match samples with
  | [] => .ok ([], c)
  | [first] =>
    if c.isEmpty then do
      let c ← c.addSample first
      pure ([.ok first], c)
    else
      match c.upsertSample first (policy.getD .keepLast) with
      | .ok (_, c) => .ok ([.ok first], c)
      | .error (.duplicateSample _) => .ok ([.duplicate], c)
      | .error e => .error e
  | first :: _ =>
    if c.isEmpty ∨ first.timestamp > c.lastTimestamp then
      .ok (samples.map .ok, { c with samples := c.samples ++ samples })
    else
      let merged := mergeChunkSamples c.samples samples policy
      .ok (merged.2, { c with samples := merged.1 })

end UncompressedChunk

/-! ### Searching -/

section Search

variable {l₁ l₂ : List Sample} {ts : Int}

theorem searchTimestamp_absent (h₁ : ∀ b ∈ l₁, b.timestamp < ts) (h₂ : ∀ b ∈ l₂, ts < b.timestamp) :
    searchTimestamp (l₁ ++ l₂) ts = (l₁.length, false) := by
  unfold searchTimestamp
  rw [binarySearchBy_absent (fun b hb => compare_lt_iff_lt.mpr (h₁ b hb)) (fun b hb => compare_gt_iff_gt.mpr (h₂ b hb))]

theorem searchTimestamp_present {b : Sample} (h₁ : ∀ d ∈ l₁, d.timestamp < ts) (hb : b.timestamp = ts)
    (h₂ : ∀ d ∈ l₂, ts < d.timestamp) : searchTimestamp (l₁ ++ b :: l₂) ts = (l₁.length, true) := by
  unfold searchTimestamp
  rw [binarySearchBy_present (fun d hd => (compare_lt_iff_lt.mpr (h₁ d hd)).trans_ne (by decide))
    (compare_eq_iff_eq.mpr hb)
    (fun d hd => compare_gt_iff_gt.mpr (h₂ d hd))]

theorem searchTimestamp_fst (h : Increasing l₂) (h₁ : ∀ b ∈ l₁, b.timestamp < ts)
    (h₂ : ∀ b ∈ l₂, ts ≤ b.timestamp) : (searchTimestamp (l₁ ++ l₂) ts).1 = l₁.length := by
  cases l₂ with
  | nil => rw [searchTimestamp_absent h₁ (by simp)]
  | cons b l₂ =>
    have hlater := (pairwise_cons.mp h).1
    rcases (h₂ b mem_cons_self).eq_or_lt with heq | hlt
    · rw [searchTimestamp_present h₁ heq.symm fun d hd => heq ▸ hlater d hd]
    · rw [searchTimestamp_absent h₁]
      exact forall_mem_cons.mpr ⟨hlt, fun d hd => hlt.trans (hlater d hd)⟩

end Search

namespace UncompressedChunk

variable {c : UncompressedChunk} {startTs endTs : Int}

theorem endIdx_eq {l l₃ : List Sample} {last : Sample} (hl : ∀ s ∈ l, s.timestamp < last.timestamp)
    (hlast : last.timestamp ≤ endTs) (h₃ : ∀ s ∈ l₃, endTs < s.timestamp) :
    let r := searchTimestamp (l ++ last :: l₃) endTs
    (if !r.2 ∧ r.1 > 0 ∧ ((l ++ last :: l₃).drop (r.1 - 1)).head?.any (fun s => s.timestamp < endTs)
    then r.1 - 1 else r.1) = l.length := by
  rcases hlast.eq_or_lt with heq | hlt
  · -- the end is the time of a sample
    rw [searchTimestamp_present (fun s hs => heq ▸ hl s hs) heq h₃]
    rfl
  · -- the end lies behind the last sample of the range
    have hbefore : ∀ s ∈ l ++ [last], s.timestamp < endTs := by
      intro s hs
      rcases mem_append.mp hs with hs | hs
      · exact (hl s hs).trans hlt
      · rwa [mem_singleton.mp hs]
    rw [append_cons, searchTimestamp_absent hbefore h₃]
    simp [hlt]

theorem le_lastTimestamp (h : SampleRun c.samples) {s : Sample} (hs : s ∈ c.samples) :
    s.timestamp ≤ c.lastTimestamp := by
  rcases eq_nil_or_concat c.samples with hnil | ⟨l, last, hl⟩
  · rw [hnil] at hs
    exact absurd hs not_mem_nil
  · rw [concat_eq_append] at hl
    rw [hl] at h hs
    rw [lastTimestamp, hl, getLast?_concat]
    exact h.le_last hs

theorem isEmpty_eq (c : UncompressedChunk) : c.isEmpty = decide (c.samples = []) := by
  rw [isEmpty, len, decide_eq_decide]
  exact length_eq_zero_iff

theorem firstTimestamp_eq (c : UncompressedChunk) : c.firstTimestamp = headTs c.samples := rfl

theorem getIndexBounds_spec (h : SampleRun c.samples) (startTs endTs : Int) :
    (c.getIndexBounds startTs endTs = none ∧ samplesIn startTs endTs c.samples = [])
    ∨ ∃ l₁ l₂ l₃ endIdx, c.samples = l₁ ++ (l₂ ++ l₃) ∧ samplesIn startTs endTs c.samples = l₂
    ∧ samplesOut startTs endTs c.samples = l₁ ++ l₃ ∧ c.getIndexBounds startTs endTs = some (l₁.length, endIdx)
    ∧ endIdx + 1 = l₁.length + l₂.length := by
  obtain ⟨l₁, l₂, l₃, hl, h₁, h₂, h₃⟩ := h.increasing.cut startTs endTs
  have hin := samplesIn_cut h₁ h₂ h₃
  have hout := samplesOut_cut h₁ h₂ h₃
  rw [← hl] at hin hout
  -- every early exit but the last leaves an empty range
  have hnone {r : Option (Nat × Nat)} (hr : r = none) (hempty : l₂ = []) :
      (r = none ∧ samplesIn startTs endTs c.samples = [])
        ∨ ∃ l₁ l₂ l₃ endIdx, c.samples = l₁ ++ (l₂ ++ l₃) ∧ samplesIn startTs endTs c.samples = l₂
          ∧ samplesOut startTs endTs c.samples = l₁ ++ l₃ ∧ r = some (l₁.length, endIdx)
          ∧ endIdx + 1 = l₁.length + l₂.length := .inl ⟨hr, hin.trans hempty⟩
  unfold getIndexBounds
  split
  · refine hnone rfl (eq_nil_iff_forall_not_mem.mpr fun s hs => ?_)
    have := h₂ s hs
    omega
  split
  · rename_i hlen
    rw [len, hl, length_append, length_append] at hlen
    exact hnone rfl (length_eq_zero_iff.mp (by omega))
  split
  · rename_i hout'
    refine hnone rfl (eq_nil_iff_forall_not_mem.mpr fun s hs => ?_)
    have hmem : s ∈ c.samples := by
      rw [hl]
      exact mem_append_right _ (mem_append_left _ hs)
    have hfirst := h.headTs_le hmem
    have hlast := le_lastTimestamp h hmem
    have := h₂ s hs
    rw [firstTimestamp_eq] at hout'
    omega
  rename_i hpos hrange
  have hstart : (searchTimestamp c.samples startTs).1 = l₁.length := by
    have hinc := h.increasing
    rw [hl] at hinc ⊢
    refine searchTimestamp_fst (pairwise_append.mp hinc).2.1 h₁ fun s hs => ?_
    rcases mem_append.mp hs with hs | hs
    · exact (h₂ s hs).1
    · have := h₃ s hs
      omega
  dsimp only
  rw [hstart]
  split
  · rename_i hge
    rw [len, hl, length_append, length_append] at hge
    exact hnone rfl (length_eq_zero_iff.mp (by omega))
  rcases eq_nil_or_concat (l₁ ++ l₂) with hnil | ⟨l, last, hcat⟩
  · -- nothing up to the end of the range
    obtain ⟨rfl, rfl⟩ := append_eq_nil_iff.mp hnil
    exfalso
    cases l₃ with
    | nil => exact hpos (by rw [len, hl]; rfl)
    | cons s l₃ =>
      refine hrange (.inl ?_)
      rw [firstTimestamp_eq, hl]
      exact h₃ s mem_cons_self
  · rw [concat_eq_append] at hcat
    have hsamples : c.samples = l ++ last :: l₃ := by
      rw [hl, ← append_assoc, hcat, append_assoc]
      rfl
    have hrun : SampleRun (l ++ [last]) := by
      rw [hl, ← append_assoc, hcat] at h
      exact h.sublist (sublist_append_left ..)
    have hlast : last.timestamp ≤ endTs := by
      have hmem : last ∈ l₁ ++ l₂ := hcat ▸ mem_append_right _ mem_cons_self
      rcases mem_append.mp hmem with hmem | hmem
      · have := h₁ last hmem
        omega
      · exact (h₂ last hmem).2
    have hend := endIdx_eq (fun s hs => (sampleRun_append.mp hrun).2.2 s hs last mem_cons_self) hlast h₃
    have hlen := congrArg List.length hcat
    rw [length_append, length_append, length_singleton] at hlen
    right
    refine ⟨l₁, l₂, l₃, l.length, hl, hin, hout, ?_, hlen.symm⟩
    rw [hsamples]
    rw [hend, if_neg]
    rintro ⟨heq, hgt⟩
    rw [heq, drop_left] at hgt
    have hgt' : last.timestamp > endTs := by simpa using hgt
    omega

/-! ### What the operations do -/

theorem rangeIter_eq (h : SampleRun c.samples) (startTs endTs : Int) :
    c.rangeIter startTs endTs = samplesIn startTs endTs c.samples := by
  unfold rangeIter
  rcases getIndexBounds_spec h startTs endTs with ⟨hnone, hin⟩ | ⟨l₁, l₂, l₃, endIdx, hl, hin, -, hsome, hend⟩
  · rw [hnone, hin]
  · rw [hsome, hin, hl]
    dsimp only
    rw [hend, ← append_assoc, ← length_append, take_left, drop_left]

theorem removeRange_spec (h : SampleRun c.samples) (startTs endTs : Int) : c.removeRange startTs endTs
    = .ok (c.len - (samplesOut startTs endTs c.samples).length,
    { c with samples := samplesOut startTs endTs c.samples }) := by
  unfold removeRange
  rcases getIndexBounds_spec h startTs endTs with ⟨hnone, hin⟩ | ⟨l₁, l₂, l₃, endIdx, hl, -, hout, hsome, hend⟩
  · have hout : samplesOut startTs endTs c.samples = c.samples :=
      samplesOut_eq_self fun s hs hs' => filter_eq_nil_iff.mp hin s hs (decide_eq_true hs')
    rw [hnone, hout]
  · have htake : c.samples.take l₁.length = l₁ := by rw [hl, take_left]
    have hdrop : c.samples.drop (endIdx + 1) = l₃ := by
      rw [hend, hl, ← append_assoc, ← length_append, drop_left]
    rw [hsome, hout]
    dsimp only
    rw [htake, hdrop]

variable [FloatOps] {policy : DuplicatePolicy} {s : Sample}

theorem handleInsert_spec (h : SampleRun c.samples) :
    c.handleInsert s policy = (fun l => { c with samples := l }) <$> policy.upsert s c.samples := by
  unfold handleInsert
  generalize hl : c.samples = l at *
  cases h.increasing.sorted.place s.timestamp with
  | absent h₁ h₂ =>
    have hr : policy.upsert s _ = .ok _ := insertWith_new h₁ h₂
    rw [searchTimestamp_absent h₁ h₂, hr]
    dsimp only
    rw [take_left, drop_left]
    rfl
  | present h₁ hb h₂ =>
    rename_i l₁ l₂ b
    rw [searchTimestamp_present h₁ hb h₂, DuplicatePolicy.upsert, insertWith_old h₁ hb]
    dsimp only
    rw [drop_left]
    dsimp only [head?_cons]
    rw [DuplicatePolicy.combine]
    cases policy.duplicateValue b.value s.value with
    | error e => rfl
    | ok v =>
      have hset : (l₁ ++ b :: l₂).set l₁.length ⟨b.timestamp, v⟩ = l₁ ++ ⟨b.timestamp, v⟩ :: l₂ := by
        simp
      simp only [bind, Except.bind, hset]
      rfl

theorem upsertSample_spec (h : SampleRun c.samples) (policy : DuplicatePolicy) : c.upsertSample s policy =
    if c.samples ≠ [] ∧ c.isFull = true ∧
    c.lastTimestamp < s.timestamp then .error (.capacityFull maxUncompressedSamples)
    else (fun l => (l.length, { c with samples := l })) <$> policy.upsert s c.samples := by
  unfold upsertSample
  rw [isEmpty_eq]
  by_cases hnil : c.samples = []
  · rw [if_pos (decide_eq_true hnil), if_neg (fun h => h.1 hnil), hnil]
    rfl
  rw [decide_eq_false hnil, if_neg Bool.false_ne_true]
  by_cases hlast : c.lastTimestamp < s.timestamp
  · rw [if_pos hlast, addSample]
    by_cases hfull : c.isFull = true
    · rw [if_pos hfull, if_pos ⟨hnil, hfull, hlast⟩]
      rfl
    · have hr : policy.upsert s c.samples = .ok (c.samples ++ [s]) :=
        insertWith_concat fun b hb => (le_lastTimestamp h hb).trans_lt hlast
      rw [if_neg hfull, if_neg (fun h => hfull h.2.1), hr]
      rfl
  · rw [if_neg hlast, if_neg (fun h => hlast h.2.2), handleInsert_spec h]
    cases policy.upsert s c.samples <;> rfl

/-- A single sample past the end of a full chunk: `add_sample` turns it away. -/
def TurnsAway (c : UncompressedChunk) (samples : List Sample) : Prop :=
  ∃ first, samples = [first] ∧ c.isFull = true ∧ ∀ b ∈ c.samples, b.timestamp < first.timestamp

/-- The answers of a merge: a sample that comes alone is handed back as it was given. -/
def mergeAnswers (policy : DuplicatePolicy) (l : List Sample) : List Sample → List SampleAddResult
  | [s] => [(policy.outcome l s).asGiven s]
  | samples => samples.map (policy.outcome l)

def Merged (c : UncompressedChunk) (samples : List Sample) (policy : Option DuplicatePolicy) : Prop :=
  c.mergeSamples samples policy = .ok (mergeAnswers (policy.getD .keepLast) c.samples samples,
    { c with samples := (policy.getD .keepLast).putAll samples c.samples })

theorem mergeSamples_one (h : SampleRun c.samples) (policy : Option DuplicatePolicy)
    (hroom : ¬ c.TurnsAway [s]) : c.Merged [s] policy := by
  have hout := outcome_eq (policy.getD .keepLast) h.increasing s
  have hput : (policy.getD .keepLast).putAll [s] c.samples
      = ((policy.getD .keepLast).upsert s c.samples).toOption.getD c.samples := by
    rw [DuplicatePolicy.putAll, putAll_cons, putAll_nil, putWith, DuplicatePolicy.upsert]
    cases insertWith Sample.timestamp ((policy.getD .keepLast).combine s) s c.samples <;> rfl
  unfold Merged mergeSamples mergeAnswers
  dsimp only
  rw [isEmpty_eq, hput]
  by_cases hnil : c.samples = []
  · have hfull : ¬ c.isFull = true := fun hfull => hroom ⟨s, rfl, hfull, by simp [hnil]⟩
    rw [if_pos (decide_eq_true hnil), addSample, if_neg hfull, hnil]
    rfl
  · have hpast : ¬ (c.samples ≠ [] ∧ c.isFull = true ∧ c.lastTimestamp < s.timestamp) := by
      rintro ⟨-, hfull, hlast⟩
      exact hroom ⟨s, rfl, hfull, fun b hb => (le_lastTimestamp h hb).trans_lt hlast⟩
    rw [decide_eq_false hnil, if_neg Bool.false_ne_true, upsertSample_spec h, if_neg hpast]
    cases hr : (policy.getD .keepLast).upsert s c.samples with
    | ok r =>
      rw [hr] at hout
      obtain ⟨stored, hstored, -⟩ := hout
      rw [hstored]
      rfl
    | error e =>
      rw [hr] at hout
      obtain ⟨what, rfl⟩ := DuplicatePolicy.upsert_error hr
      rw [hout]
      rfl

theorem mergeSamples_spec (h : SampleRun c.samples) {samples : List Sample} (hs : SampleRun samples)
    (policy : Option DuplicatePolicy) (hroom : ¬ c.TurnsAway samples) : c.Merged samples policy := by
  match samples with
  | [] => exact rfl
  | [s] => exact mergeSamples_one h policy hroom
  | first :: second :: rest =>
    unfold Merged mergeSamples mergeAnswers
    dsimp only
    rw [isEmpty_eq]
    split
    · rename_i hpast
      have hlt : ∀ a ∈ first :: second :: rest, ∀ b ∈ c.samples, b.timestamp < a.timestamp := by
        intro a ha b hb
        have hlast := le_lastTimestamp h hb
        have hfirst : first.timestamp ≤ a.timestamp := hs.headTs_le ha
        rw [decide_eq_true_eq] at hpast
        rcases hpast with hnil | hpast
        · rw [hnil] at hb
          exact absurd hb not_mem_nil
        · omega
      rw [putAll_of_lt hlt hs.increasing, map_congr_left fun a ha => outcome_of_lt (hlt a ha)]
    · rw [mergeChunkSamples_eq policy h.increasing hs.increasing]

theorem mergeSamples_turnsAway (h : SampleRun c.samples) {samples : List Sample}
    (policy : Option DuplicatePolicy) (haway : c.TurnsAway samples) :
    c.mergeSamples samples policy = .error (.capacityFull maxUncompressedSamples) := by
  obtain ⟨first, rfl, hfull, hlt⟩ := haway
  unfold mergeSamples
  dsimp only
  rw [isEmpty_eq]
  by_cases hnil : c.samples = []
  · rw [if_pos (decide_eq_true hnil), addSample, if_pos hfull]
    rfl
  · have hlast : c.lastTimestamp < first.timestamp := by
      obtain ⟨l, last, hl⟩ := (eq_nil_or_concat c.samples).resolve_left hnil
      rw [concat_eq_append] at hl
      rw [lastTimestamp, hl, getLast?_concat]
      exact hlt last (by rw [hl]; simp)
    rw [decide_eq_false hnil, if_neg Bool.false_ne_true, upsertSample_spec h, if_pos ⟨hnil, hfull, hlast⟩]

omit [FloatOps] in
theorem split_spec (hlen : 2 ≤ c.samples.length) : c.split = .ok
    ({ c with samples := c.samples.take (c.samples.length / 2) },
    { c with samples := c.samples.drop (c.samples.length / 2) }) := by
  have hne : c.samples.isEmpty = false := by
    cases hl : c.samples with
    | nil =>
      rw [hl] at hlen
      exact absurd hlen (by decide)
    | cons s l => rfl
  rw [split, hne, if_neg Bool.false_ne_true, if_neg (by omega)]

end UncompressedChunk

/-! ### The answers of a merge -/

variable [FloatOps] {policy : DuplicatePolicy}

/-- The answers of a merge into one chunk; those of a compressed one are exact. -/
def DuplicatePolicy.mergeAnswers (policy : DuplicatePolicy) (exact : Bool) (l samples : List Sample) :
    List SampleAddResult :=
  if exact then samples.map (policy.outcome l) else UncompressedChunk.mergeAnswers policy l samples

theorem mergeAnswers_congr {exact : Bool} {l l' samples : List Sample}
    (h : ∀ x ∈ samples, policy.outcome l x = policy.outcome l' x) :
    policy.mergeAnswers exact l samples = policy.mergeAnswers exact l' samples := by
  have hmap := map_congr_left h
  unfold DuplicatePolicy.mergeAnswers
  split
  · exact hmap
  · match samples with
    | [] => rfl
    | [x] => rw [UncompressedChunk.mergeAnswers, UncompressedChunk.mergeAnswers, h x mem_cons_self]
    | x :: y :: rest => exact hmap

theorem answersAll_mergeAnswers (policy : DuplicatePolicy) (exact : Bool) (l samples : List Sample) :
    policy.AnswersAll exact l samples (policy.mergeAnswers exact l samples) := by
  unfold DuplicatePolicy.mergeAnswers
  split
  · exact answersAll_outcome ..
  · rename_i hexact
    match samples with
    | [] => exact .nil
    | [x] =>
      refine .cons ?_ .nil
      unfold DuplicatePolicy.Answers SampleAddResult.asGiven
      split
      · rename_i hok
        exact .inr ⟨Bool.eq_false_of_not_eq_true hexact, hok, rfl⟩
      · exact .inl rfl
    | x :: y :: rest => exact answersAll_outcome ..

end ValkeyTimeSeries
