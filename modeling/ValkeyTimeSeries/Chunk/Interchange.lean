/-
Chunk/Interchange.lean

Chunks of different encodings that hold the same samples, side by side.

Design.  `ChunkCall` is a call on a chunk, `observe` what can be seen of it: its answer and the samples held
afterwards.  `observeList` computes the same from the list of samples and one bit, whether the chunk is
uncompressed.  The bit counts in two places: the half that keeps the only sample of a split, and the sample
that a merge of one sample hands back.
-/
import ValkeyTimeSeries.Chunk.TimeSeriesChunk

namespace ValkeyTimeSeries

open SortedList TimeSeriesChunk

inductive ChunkCall where
  | upsertSample (sample : Sample) (policy : DuplicatePolicy)
  | mergeSamples (samples : List Sample) (policy : Option DuplicatePolicy)
  | removeRange (startTs endTs : Int)
  | split
  | getRange (startTs endTs : Int)
deriving DecidableEq, Repr

/-- The samples of a call are ones the commands accept; a batch is sorted and has each
timestamp once. -/
def ChunkCall.Valid : ChunkCall → Prop
  | .upsertSample sample _ => ValidTs sample.timestamp
  | .mergeSamples samples _ => SampleRun samples
  | .removeRange _ _ | .split | .getRange _ _ => True

/-- A count, outcomes, or samples: those of the upper half or of a range. -/
inductive ChunkAnswer where
  | count (n : Nat)
  | outcomes (results : List SampleAddResult)
  | samples (l : List Sample)
deriving DecidableEq, Repr

variable [DecimalHelpers] [FloatOps]

namespace TimeSeriesChunk

/-- The answer to a call, and the samples held after it. -/
def observe (c : TimeSeriesChunk) : ChunkCall → Except TsdbError (ChunkAnswer × List Sample)
  | .upsertSample sample policy =>
    (fun r => (.count r.1, r.2.samples)) <$> c.upsertSample sample policy
  | .mergeSamples samples policy =>
    (fun r => (.outcomes r.1, r.2.samples)) <$> c.mergeSamples samples policy
  | .removeRange startTs endTs =>
    (fun r => (.count r.1, r.2.samples)) <$> c.removeRange startTs endTs
  | .split => (fun r => (.samples r.2.samples, r.1.samples)) <$> c.split
  | .getRange startTs endTs => (fun l => (.samples l, c.samples)) <$> c.getRange startTs endTs

/-- A call the chunk has the capacity for. -/
def HasCapacity (c : TimeSeriesChunk) (call : ChunkCall) : Prop :=
  ∀ capacity, c.observe call ≠ .error (.capacityFull capacity)

end TimeSeriesChunk

omit [DecimalHelpers] in
/-- The halves of a list of samples; an uncompressed chunk keeps a sample that is alone. -/
def halves (uncompressed : Bool) (l : List Sample) : List Sample × List Sample :=
  if l = [] then (l, l)
  else if uncompressed ∧ l.length = 1 then (l, [])
  else (l.take (l.length / 2), l.drop (l.length / 2))

omit [DecimalHelpers] in
/-- What can be seen of a call on a chunk that holds `l`. -/
def observeList (uncompressed : Bool) (l : List Sample) : ChunkCall → Except TsdbError (ChunkAnswer × List Sample)
  | .upsertSample sample policy => (fun l' => (.count l'.length, l')) <$> policy.upsert sample l
  | .mergeSamples samples policy =>
    let policy := policy.getD .keepLast
    .ok (.outcomes (if uncompressed then UncompressedChunk.mergeAnswers policy l samples
      else samples.map (policy.outcome l)), policy.putAll samples l)
  | .removeRange startTs endTs =>
    .ok (.count (l.length - (samplesOut startTs endTs l).length), samplesOut startTs endTs l)
  | .split => .ok (.samples (halves uncompressed l).2, (halves uncompressed l).1)
  | .getRange startTs endTs => .ok (.samples (samplesIn startTs endTs l), l)

/-! ### A call is seen on the list -/

namespace TimeSeriesChunk

variable {c : TimeSeriesChunk}

theorem Ok.not_overflows (h : c.Ok) {sample : Sample} {policy : DuplicatePolicy}
    (hcap : c.HasCapacity (.upsertSample sample policy)) : ¬ c.Overflows sample.timestamp := by
  intro hover
  cases c with
  | uncompressed c =>
    have hspec := (UncompressedChunk.upsertSample_spec (s := sample) h.sound.1 policy).trans (if_pos hover)
    refine hcap maxUncompressedSamples ?_
    rw [observe, upsertSample, hspec]
    rfl
  | gorilla c => exact hover.elim
  | chimp c => exact hover.elim

theorem Ok.observe_upsert (h : c.Ok) {sample : Sample} (hts : ValidTs sample.timestamp)
    (policy : DuplicatePolicy) (hcap : c.HasCapacity (.upsertSample sample policy)) :
    c.observe (.upsertSample sample policy)
    = observeList (!c.isCompressed) c.samples (.upsertSample sample policy) := by
  have hspec := h.upsertSample_spec hts policy (h.not_overflows hcap)
  rw [observe, observeList]
  cases hr : policy.upsert sample c.samples with
  | ok l =>
    rw [hr] at hspec
    obtain ⟨c', hc', hbecomes⟩ := hspec
    rw [hc']
    change Except.ok (ChunkAnswer.count l.length, c'.samples) = .ok (.count l.length, l)
    rw [hbecomes.samples_eq]
  | error e =>
    rw [hr] at hspec
    rw [hspec]
    rfl

theorem Ok.observe_merge (h : c.Ok) {samples : List Sample} (hs : SampleRun samples)
    (policy : Option DuplicatePolicy) (hcap : c.HasCapacity (.mergeSamples samples policy)) :
    c.observe (.mergeSamples samples policy)
    = observeList (!c.isCompressed) c.samples (.mergeSamples samples policy) := by
  rw [observe, observeList]
  cases c with
  | uncompressed c =>
    have haway : ¬ c.TurnsAway samples := by
      intro haway
      refine hcap maxUncompressedSamples ?_
      rw [observe, mergeSamples, UncompressedChunk.mergeSamples_turnsAway h.sound.1 policy haway]
      rfl
    have hspec := UncompressedChunk.mergeSamples_spec h.sound.1 hs policy haway
    rw [mergeSamples, hspec]
    rfl
  | gorilla c =>
    obtain ⟨c', hc', hbecomes⟩ := CompressedChunk.Holds.mergeSamples_spec h.sound hs policy
    rw [mergeSamples, hc']
    exact congrArg (fun l => Except.ok (ChunkAnswer.outcomes _, l)) (becomes_gorilla h hbecomes).samples_eq
  | chimp c =>
    obtain ⟨c', hc', hbecomes⟩ := CompressedChunk.Holds.mergeSamples_spec h.sound hs policy
    rw [mergeSamples, hc']
    exact congrArg (fun l => Except.ok (ChunkAnswer.outcomes _, l)) (becomes_chimp h hbecomes).samples_eq

theorem Ok.observe_removeRange (h : c.Ok) (startTs endTs : Int) : c.observe (.removeRange startTs endTs)
    = observeList (!c.isCompressed) c.samples (.removeRange startTs endTs) := by
  obtain ⟨c', hc', hbecomes⟩ := h.removeRange_spec startTs endTs
  rw [observe, observeList, hc']
  exact congrArg (fun l => Except.ok (ChunkAnswer.count _, l)) hbecomes.samples_eq

omit [DecimalHelpers] [FloatOps] in
theorem split_compressed {E : Type} [LawfulCodec E] {c : CompressedChunk E} (h : c.Holds c.samples) :
    ∃ c₁ c₂, c.split = .ok (c₁, c₂) ∧ (c₁.samples, c₂.samples) = halves false c.samples := by
  unfold halves
  by_cases hnil : c.samples = []
  · refine ⟨c, c, ?_, (if_pos hnil).symm⟩
    rw [CompressedChunk.split, h.isEmpty_eq, decide_eq_true hnil, if_pos rfl]
  · obtain ⟨c₁, c₂, hc, ⟨h₁, -⟩, h₂, -⟩ := h.split_spec hnil
    refine ⟨c₁, c₂, hc, ?_⟩
    rw [if_neg hnil, if_neg (by simp), h₁.samples_eq, h₂.samples_eq]

theorem Ok.observe_split (h : c.Ok) :
    c.observe .split = observeList (!c.isCompressed) c.samples .split := by
  cases c with
  | uncompressed c =>
    obtain ⟨maxSize, l, maxElements⟩ := c
    match l with
    | [] => rfl
    | [_] => rfl
    | _ :: _ :: _ => rfl
  | gorilla c =>
    obtain ⟨c₁, c₂, hc, heq⟩ := split_compressed (c := c) h.sound
    rw [observe, split, hc]
    exact congrArg (fun p : List Sample × List Sample => Except.ok (ChunkAnswer.samples p.2, p.1)) heq
  | chimp c =>
    obtain ⟨c₁, c₂, hc, heq⟩ := split_compressed (c := c) h.sound
    rw [observe, split, hc]
    exact congrArg (fun p : List Sample × List Sample => Except.ok (ChunkAnswer.samples p.2, p.1)) heq

/-- **What can be seen of a call depends on the samples and on one bit of the encoding.** -/
theorem Ok.observe_eq (h : c.Ok) {call : ChunkCall} (hvalid : call.Valid) (hcap : c.HasCapacity call) :
    c.observe call = observeList (!c.isCompressed) c.samples call := by
  cases call with
  | upsertSample sample policy => exact h.observe_upsert hvalid policy hcap
  | mergeSamples samples policy => exact h.observe_merge hvalid policy hcap
  | removeRange startTs endTs => exact h.observe_removeRange startTs endTs
  | split => exact h.observe_split
  | getRange startTs endTs =>
    rw [observe, observeList, h.getRange_eq]
    rfl

end TimeSeriesChunk

/-! ### Where the bit counts -/

/-- A sample stored with another value than the one given. -/
def SampleAddResult.OtherValue (r : SampleAddResult) (sample : Sample) : Prop :=
  match r with
  | .ok stored => stored ≠ sample
  | _ => False

instance (r : SampleAddResult) (sample : Sample) : Decidable (r.OtherValue sample) :=
  match r with
  | .ok stored => inferInstanceAs (Decidable (stored ≠ sample))
  | .duplicate | .ignored _ | .tooOld | .error _ => inferInstanceAs (Decidable False)

omit [DecimalHelpers] [FloatOps] in
theorem asGiven_eq_iff (r : SampleAddResult) (sample : Sample) :
    r.asGiven sample = r ↔ ¬ r.OtherValue sample := by
  cases r with
  | ok stored =>
    change SampleAddResult.ok sample = .ok stored ↔ ¬ stored ≠ sample
    rw [SampleAddResult.ok.injEq, not_not, eq_comm]
  | duplicate => exact ⟨fun _ h => h, fun _ => rfl⟩
  | ignored timestamp => exact ⟨fun _ h => h, fun _ => rfl⟩
  | tooOld => exact ⟨fun _ h => h, fun _ => rfl⟩
  | error message => exact ⟨fun _ h => h, fun _ => rfl⟩

/-- The calls that tell an uncompressed chunk from the others: a split of a single sample,
and a merge of a single sample that is stored with another value. -/
def ChunkCall.Differs (l : List Sample) : ChunkCall → Prop
  | .split => l.length = 1
  | .mergeSamples [sample] policy => ((policy.getD .keepLast).outcome l sample).OtherValue sample
  | _ => False

omit [DecimalHelpers] in
theorem observeList_eq_iff (l : List Sample) (call : ChunkCall) :
    observeList true l call = observeList false l call ↔ ¬ call.Differs l := by
  cases call with
  | upsertSample sample policy => exact ⟨fun _ h => h, fun _ => rfl⟩
  | removeRange startTs endTs => exact ⟨fun _ h => h, fun _ => rfl⟩
  | getRange startTs endTs => exact ⟨fun _ h => h, fun _ => rfl⟩
  | split =>
    match l with
    | [] => exact ⟨fun _ h => absurd h Nat.zero_ne_one, fun _ => rfl⟩
    | [x] =>
      refine ⟨fun h => ?_, fun h => absurd rfl h⟩
      have heq := ChunkAnswer.samples.inj (Prod.mk.inj (Except.ok.inj h)).1
      simp [halves] at heq
    | x :: y :: l =>
      refine ⟨fun _ h => ?_, fun _ => rfl⟩
      have hlen : l.length + 1 + 1 = 1 := h
      omega
  | mergeSamples samples policy =>
    match samples with
    | [] => exact ⟨fun _ h => h, fun _ => rfl⟩
    | x :: y :: samples => exact ⟨fun _ h => h, fun _ => rfl⟩
    | [sample] =>
      refine Iff.trans ?_ (asGiven_eq_iff ((policy.getD .keepLast).outcome l sample) sample)
      constructor
      · intro h
        have heq := ChunkAnswer.outcomes.inj (Prod.mk.inj (Except.ok.inj h)).1
        exact (List.cons.inj heq).1
      · intro h
        exact congrArg (fun r => Except.ok (ChunkAnswer.outcomes [r], _)) h

/-- **Chunks of different encodings that hold the same samples are told apart exactly** by a
split of a single sample and by a merge of a single sample that is stored with another value,
where one of them is uncompressed. -/
theorem observe_eq_iff (c₁ c₂ : TimeSeriesChunk) (h₁ : c₁.Ok) (h₂ : c₂.Ok)
    (hencoding : c₁.getEncoding ≠ c₂.getEncoding) (hsamples : c₁.samples = c₂.samples)
    (call : ChunkCall) (hvalid : call.Valid) (hcap₁ : c₁.HasCapacity call) (hcap₂ : c₂.HasCapacity call) :
    c₁.observe call = c₂.observe call ↔
      (c₁.isCompressed = true ∧ c₂.isCompressed = true) ∨ ¬ call.Differs c₁.samples := by
  have hone : ¬ (c₁.isCompressed = false ∧ c₂.isCompressed = false) := by
    rintro ⟨hc₁, hc₂⟩
    rw [TimeSeriesChunk.isCompressed, decide_eq_false_iff_not, not_not] at hc₁ hc₂
    exact hencoding (hc₁.trans hc₂.symm)
  have hiff := observeList_eq_iff c₁.samples call
  rw [h₁.observe_eq hvalid hcap₁, h₂.observe_eq hvalid hcap₂, ← hsamples]
  cases hc₁ : c₁.isCompressed with
  | true =>
    cases hc₂ : c₂.isCompressed with
    | true => exact ⟨fun _ => .inl ⟨rfl, rfl⟩, fun _ => rfl⟩
    | false =>
      rw [Bool.not_true, Bool.not_false, eq_comm, hiff]
      exact ⟨.inr, fun h => h.resolve_left fun hboth => Bool.false_ne_true hboth.2⟩
  | false =>
    cases hc₂ : c₂.isCompressed with
    | true =>
      rw [Bool.not_true, Bool.not_false, hiff]
      exact ⟨.inr, fun h => h.resolve_left fun hboth => Bool.false_ne_true hboth.1⟩
    | false => exact absurd ⟨hc₁, hc₂⟩ hone

def oneSample (encoding : ChunkEncoding) : TimeSeriesChunk :=
  match (TimeSeriesChunk.new encoding 48).addSample ⟨10, 0⟩ with
  | .ok c => c
  | .error _ => .new encoding 48

omit [FloatOps] in
theorem oneSample_becomes (encoding : ChunkEncoding) :
    (TimeSeriesChunk.new encoding 48).Becomes (oneSample encoding) [⟨10, 0⟩] := by
  have hok : (TimeSeriesChunk.new encoding 48).Ok := new_ok encoding (by decide)
  have hrun : SampleRun [⟨10, 0⟩] := ⟨by decide, List.pairwise_singleton ..⟩
  obtain ⟨c, hc, hbecomes⟩ := hok.addSample_spec (new_isFull encoding (by decide))
    (s := ⟨10, 0⟩) (by rwa [samples_new])
  rw [samples_new] at hbecomes
  rw [oneSample, hc]
  exact hbecomes

end ValkeyTimeSeries

namespace ValkeyTimeSeries

/-- Arithmetic on values that are not negative, as far as the examples use it. -/
@[reducible] def plainFloats : FloatOps where
  add a b := if a = 0 then b else a
  sub a b := if a = b then 0 else a
  min a b := if a.toNat ≤ b.toNat then a else b
  max a b := if a.toNat ≤ b.toNat then b else a

/-- The only sample stays in the lower half of an uncompressed chunk and moves to the upper
half of a compressed one; and a sample that the policy keeps from the chunk is handed back
with the value given by the one and with the value stored by the other. -/
theorem observe_differs :
    letI := oneTenth
    letI := plainFloats
    (oneSample .uncompressed).samples = (oneSample .gorilla).samples
      ∧ (oneSample .uncompressed).observe .split = .ok (.samples [], [⟨10, 0⟩])
      ∧ (oneSample .gorilla).observe .split = .ok (.samples [⟨10, 0⟩], [])
      ∧ (oneSample .uncompressed).observe (.mergeSamples [⟨10, 5⟩] (some .keepFirst))
          = .ok (.outcomes [.ok ⟨10, 5⟩], [⟨10, 0⟩])
      ∧ (oneSample .gorilla).observe (.mergeSamples [⟨10, 5⟩] (some .keepFirst))
          = .ok (.outcomes [.ok ⟨10, 0⟩], [⟨10, 0⟩]) := by
  decide +kernel

theorem observe_eq_iff_getRange :
    letI := oneTenth
    letI := plainFloats
    (oneSample .uncompressed).observe (.getRange 0 20) = (oneSample .chimp).observe (.getRange 0 20) :=
  letI := oneTenth
  letI := plainFloats
  have hu := oneSample_becomes .uncompressed
  have hc := oneSample_becomes .chimp
  (observe_eq_iff _ _ hu.ok hc.ok (by rw [hu.encoding_eq, hc.encoding_eq]; decide)
    (hu.samples_eq.trans hc.samples_eq.symm) (.getRange 0 20) trivial
    (fun capacity h => by
      rw [TimeSeriesChunk.observe, hu.ok.getRange_eq] at h
      cases h)
    (fun capacity h => by
      rw [TimeSeriesChunk.observe, hc.ok.getRange_eq] at h
      cases h)).mpr (.inr id)

end ValkeyTimeSeries
