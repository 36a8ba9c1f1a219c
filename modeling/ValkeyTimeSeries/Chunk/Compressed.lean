/-
Chunk/Compressed.lean

The compressed chunks: `gorilla/gorilla_chunk.rs` and `chimp/chimp_chunk.rs`, which are the same code over two
encoders.

Design.  A codec is sequential, so everything but an append decodes the chunk and encodes it again.  `Holds c
l` says that the chunk holds the list `l`; no operation fails on such a chunk, except where the duplicate
policy refuses.
-/
import ValkeyTimeSeries.Chunk.Codec
import ValkeyTimeSeries.Chunk.Merge

namespace ValkeyTimeSeries

open List SampleCodec SortedList Bits Codec DuplicatePolicy

theorem SampleRun.upsert [FloatOps] {policy : DuplicatePolicy} {s : Sample} {l r : List Sample}
    (h : SampleRun l) (hs : ValidTs s.timestamp) (hr : policy.upsert s l = .ok r) : SampleRun r := by
  have hinc : Sorted Sample.timestamp l := h.increasing
  refine ⟨fun x hx => ?_, hinc.insertWith (fun _ _ => combine_timestamp) hr⟩
  rcases (mem_map_insertWith hinc (fun _ _ => combine_timestamp) hr).mp (mem_map_of_mem hx) with heq | hmem
  · rw [heq]
    exact hs
  · obtain ⟨y, hy, heq⟩ := mem_map.mp hmem
    rw [← heq]
    exact h.times y hy

theorem SampleRun.putAll [FloatOps] {policy : DuplicatePolicy} {samples l : List Sample}
    (h : SampleRun l) (hs : ValidTimes samples) : SampleRun (policy.putAll samples l) := by
  have hinc : Sorted Sample.timestamp l := h.increasing
  refine ⟨fun x hx => ?_, hinc.putAll fun _ _ _ => combine_timestamp⟩
  rcases (mem_map_putAll hinc (fun _ _ _ => combine_timestamp)).mp (mem_map_of_mem hx) with hmem | hmem
  · obtain ⟨y, hy, heq⟩ := mem_map.mp hmem
    exact heq ▸ hs y hy
  · obtain ⟨y, hy, heq⟩ := mem_map.mp hmem
    exact heq ▸ h.times y hy

structure CompressedChunk (E : Type) where
  encoder : E
  maxSize : Nat
deriving DecidableEq, Repr

namespace CompressedChunk

section Operations

variable {E : Type} [SampleCodec E]

def withMaxSize (maxSize : Nat) : CompressedChunk E := ⟨new, maxSize⟩

def pushSample (encoder : E) (sample : Sample) : Except TsdbError E :=
  (addSample encoder sample).mapError fun _ => .cannotAddSample sample

def pushAll (encoder : E) (l : List Sample) : Except TsdbError E := l.foldlM pushSample encoder

/-- Such a loop at its end: a sample that could not be decoded is an error. -/
def finish (decoded : Decoded) (encoder : E) : Except TsdbError E :=
  match decoded.2 with
  | none => .ok encoder
  | some e => .error e

def firstTimestamp (c : CompressedChunk E) : Int := firstTs c.encoder

def lastTimestamp (c : CompressedChunk E) : Int := lastTs c.encoder

def len (c : CompressedChunk E) : Nat := numSamples c.encoder

def isEmpty (c : CompressedChunk E) : Bool := decide (c.len = 0)

def size (c : CompressedChunk E) : Nat := (buf c.encoder).length

def isFull (c : CompressedChunk E) : Bool := decide (c.size ≥ c.maxSize)

def minSamplesForBpsEstimate : Nat := 16

/-- The samples of `range_iter`: it stops at the first one past the end, or that
cannot be decoded, and skips to the first one from the start on. -/
def rangeIter (c : CompressedChunk E) (startTs endTs : Int) : List Sample :=
  ((decode c.encoder).1.takeWhile fun s => s.timestamp ≤ endTs).dropWhile fun s =>
    s.timestamp < startTs

def iter (c : CompressedChunk E) : List Sample := c.rangeIter i64Min i64Max

def getRange (c : CompressedChunk E) (start endTs : Int) : Except TsdbError (List Sample) :=
  if c.isEmpty then .ok [] else .ok (c.rangeIter start endTs)

def removeRange (c : CompressedChunk E) (startTs endTs : Int) :
    Except TsdbError (Nat × CompressedChunk E) :=
  if c.isEmpty ∨ startTs > c.lastTimestamp ∨ endTs < c.firstTimestamp then .ok (0, c)
  else do
    let decoded := decode c.encoder
    let kept := decoded.1.filter fun s => !decide (startTs ≤ s.timestamp ∧ s.timestamp ≤ endTs)
    let encoder ← pushAll new kept
    let encoder ← finish decoded encoder
    pure (c.len - numSamples encoder, { c with encoder })

def addSample (c : CompressedChunk E) (sample : Sample) : Except TsdbError (CompressedChunk E) := do
  let encoder ← pushSample c.encoder sample
  pure { c with encoder }

def addAll (c : CompressedChunk E) (l : List Sample) : Except TsdbError (CompressedChunk E) :=
  l.foldlM addSample c

def upsertSample [FloatOps] (c : CompressedChunk E) (sample : Sample) (policy : DuplicatePolicy) :
    Except TsdbError (Nat × CompressedChunk E) :=
  let count := c.len
  if count = 0 then do
    let c ← c.addSample sample
    pure (1, c)
  else
    let decoded := decode c.encoder
    if sample.timestamp < c.firstTimestamp then do
      let encoder ← pushSample new sample
      let encoder ← pushAll encoder decoded.1
      let encoder ← finish decoded encoder
      pure (count + 1, { c with encoder })
    else do
      let encoder ← pushAll new (decoded.1.takeWhile fun s => s.timestamp < sample.timestamp)
      match decoded.1.dropWhile fun s => s.timestamp < sample.timestamp with
      | [] => do
          let encoder ← finish decoded encoder
          let encoder ← pushSample encoder sample
          pure (count + 1, { c with encoder })
      | current :: rest =>
        if current.timestamp = sample.timestamp then do
          let value ← policy.duplicateValue current.value sample.value
          let encoder ← pushSample encoder ⟨current.timestamp, value⟩
          let encoder ← pushAll encoder rest
          let encoder ← finish decoded encoder
          pure (count, { c with encoder })
        else do
          let encoder ← pushSample encoder sample
          let encoder ← pushSample encoder current
          let encoder ← pushAll encoder rest
          let encoder ← finish decoded encoder
          pure (count + 1, { c with encoder })

/-- `append_samples`: a sample that cannot be added is reported in its slot. -/
def appendSamples : CompressedChunk E → List Sample → List SampleAddResult × CompressedChunk E
  | c, [] => ([], c)
  | c, sample :: samples =>
    match c.addSample sample with
    | .ok c =>
      let rest := appendSamples c samples
      (.ok sample :: rest.1, rest.2)
    | .error _ =>
      let rest := appendSamples c samples
      (.error cannotAddSample :: rest.1, rest.2)

def mergeSamples [FloatOps] (c : CompressedChunk E) (samples : List Sample)
    (policy : Option DuplicatePolicy) : Except TsdbError (List SampleAddResult × CompressedChunk E) :=
  match samples with
  | [] => .ok ([], c)
  | first :: _ =>
    if c.isEmpty ∨ first.timestamp > c.lastTimestamp then .ok (c.appendSamples samples)
    else do
      let merged := mergeChunkSamples c.iter samples policy
      let encoder ← pushAll new merged.1
      pure (merged.2, { c with encoder })

/-- The lower half, which the chunk keeps, and the upper one. -/
def split (c : CompressedChunk E) : Except TsdbError (CompressedChunk E × CompressedChunk E) :=
  if c.isEmpty then .ok (c, c)
  else do
    let mid := c.len / 2
    let decoded := decode c.encoder
    let left ← pushAll new (decoded.1.take mid)
    let right ← pushAll new (decoded.1.drop mid)
    let _ ← finish decoded left
    pure ({ c with encoder := left }, { c with encoder := right })

def clear (c : CompressedChunk E) : CompressedChunk E := { c with encoder := new }

def serialize (c : CompressedChunk E) : List (BitVec 8) :=
  uvarintBytes (BitVec.ofNat 64 c.maxSize) ++ SampleCodec.serialize c.encoder

def deserialize (b : List (BitVec 8)) : Except TsdbError (CompressedChunk E) :=
  match tryReadUvarint b with
  | .error _ => .error .chunkDecoding
  | .ok (maxSize, rest) => do
      let encoder ← SampleCodec.deserialize rest
      pure ⟨encoder, maxSize.toNat⟩

end Operations

/-! ### What the operations do -/

variable {E : Type} [LawfulCodec E]

open LawfulCodec

def Holds (c : CompressedChunk E) (l : List Sample) : Prop := Encodes c.encoder l

variable {c : CompressedChunk E} {l : List Sample}

theorem withMaxSize_holds (maxSize : Nat) : Holds (withMaxSize maxSize : CompressedChunk E) [] :=
  encodes_new

theorem Holds.run (h : Holds c l) : SampleRun l := run_of_encodes h

theorem Holds.len_eq (h : Holds c l) : c.len = l.length := numSamples_eq h

theorem Holds.isEmpty_eq (h : Holds c l) : c.isEmpty = decide (l = []) := by
  rw [isEmpty, h.len_eq, decide_eq_decide]
  exact length_eq_zero_iff

theorem Holds.firstTimestamp_eq (h : Holds c l) : c.firstTimestamp = headTs l := firstTs_eq h

theorem pushAll_encodes {e : E} {l : List Sample} (he : Encodes e l) (l' : List Sample)
    (hrun : SampleRun (l ++ l')) : ∃ e', pushAll e l' = .ok e' ∧ Encodes e' (l ++ l') := by
  induction l' generalizing e l with
  | nil => exact ⟨e, rfl, by rwa [append_nil]⟩
  | cons s l' ih =>
    rw [append_cons] at hrun
    obtain ⟨e₁, h₁, he₁⟩ := encodes_addSample he (hrun.sublist (sublist_append_left ..))
    obtain ⟨e₂, h₂, he₂⟩ := ih he₁ hrun
    refine ⟨e₂, ?_, by rwa [append_cons]⟩
    rw [pushAll, foldlM_cons, pushSample, h₁]
    exact h₂

theorem pushAll_new (hrun : SampleRun l) : ∃ e : E, pushAll new l = .ok e ∧ Encodes e l :=
  pushAll_encodes encodes_new l hrun

theorem pushSample_encodes {e : E} {s : Sample} (he : Encodes e l) (hrun : SampleRun (l ++ [s])) :
    ∃ e', pushSample e s = .ok e' ∧ Encodes e' (l ++ [s]) := by
  obtain ⟨e', h, he'⟩ := encodes_addSample he hrun
  exact ⟨e', by rw [pushSample, h]; rfl, he'⟩

/-- A chunk of the same budget that holds the list. -/
def Becomes (c c' : CompressedChunk E) (l : List Sample) : Prop :=
  Holds c' l ∧ c'.maxSize = c.maxSize

section

variable (h : Holds c l)
include h

variable (startTs endTs : Int)

theorem Holds.rangeIter_eq :
    c.rangeIter startTs endTs = samplesIn startTs endTs l := by
  rw [rangeIter, decode_eq h]
  exact dropWhile_takeWhile_eq_samplesIn h.run.increasing startTs endTs

theorem Holds.iter_eq : c.iter = l := by
  rw [iter, h.rangeIter_eq, samplesIn_eq_self]
  intro s hs
  obtain ⟨hlo, hhi⟩ := h.run.times s hs
  exact ⟨hlo.trans' (by decide), hhi⟩

theorem Holds.getRange_eq :
    c.getRange startTs endTs = .ok (samplesIn startTs endTs l) := by
  rw [getRange, h.isEmpty_eq, h.rangeIter_eq]
  split
  · rename_i hnil
    rw [of_decide_eq_true hnil]
    rfl
  · rfl

theorem Holds.size_le : c.size ≤ 21 * l.length := length_buf_le h

theorem Holds.addSample_spec {s : Sample} (hrun : SampleRun (l ++ [s])) :
    ∃ c', c.addSample s = .ok c' ∧ Becomes c c' (l ++ [s]) := by
  obtain ⟨e, he, henc⟩ := pushSample_encodes h hrun
  exact ⟨{ c with encoder := e }, by rw [addSample, he]; rfl, henc, rfl⟩

theorem Holds.le_lastTimestamp {s : Sample} (hs : s ∈ l) : s.timestamp ≤ c.lastTimestamp := by
  rcases eq_nil_or_concat l with rfl | ⟨l', last, rfl⟩
  · exact absurd hs not_mem_nil
  · rw [concat_eq_append] at h hs
    rw [lastTimestamp, (last_eq h).1]
    exact h.run.le_last hs

theorem Holds.addAll_spec (samples : List Sample) (hrun : SampleRun (l ++ samples)) :
    ∃ c', c.addAll samples = .ok c' ∧ c.appendSamples samples = (samples.map SampleAddResult.ok, c')
    ∧ Becomes c c' (l ++ samples) := by
  induction samples generalizing c l with
  | nil => exact ⟨c, rfl, rfl, by rwa [append_nil], rfl⟩
  | cons s samples ih =>
    rw [append_cons] at hrun
    obtain ⟨c₁, h₁, hc₁, hmax₁⟩ := h.addSample_spec (hrun.sublist (sublist_append_left ..))
    obtain ⟨c₂, h₂, happend, hc₂, hmax₂⟩ := ih hc₁ hrun
    refine ⟨c₂, ?_, ?_, by rwa [append_cons], hmax₂.trans hmax₁⟩
    · rw [addAll, foldlM_cons, h₁]
      exact h₂
    · rw [appendSamples, h₁]
      simp only [happend]
      rfl

theorem Holds.unique {c' : CompressedChunk E} (h' : Holds c' l)
    (hmax : c'.maxSize = c.maxSize) : c' = c := by
  obtain ⟨e, m⟩ := c
  obtain ⟨e', m'⟩ := c'
  obtain rfl : m' = m := hmax
  rw [show e' = e from encodes_unique h' h]

theorem Holds.removeRange_spec : ∃ c', c.removeRange startTs endTs
    = .ok (l.length - (samplesOut startTs endTs l).length, c') ∧ Becomes c c' (samplesOut startTs endTs l) := by
  unfold removeRange
  split
  · rename_i hout
    -- nothing lies in the range
    have hall : samplesOut startTs endTs l = l := by
      refine samplesOut_eq_self fun s hs hin => ?_
      have hlast := h.le_lastTimestamp hs
      have hfirst := h.run.headTs_le hs
      rw [h.isEmpty_eq, h.firstTimestamp_eq, decide_eq_true_eq] at hout
      rcases hout with rfl | hout | hout
      · exact not_mem_nil hs
      · omega
      · omega
    rw [hall, Nat.sub_self]
    exact ⟨c, rfl, h, rfl⟩
  · have hrun : SampleRun (samplesOut startTs endTs l) := h.run.sublist filter_sublist
    obtain ⟨e, he, henc⟩ := pushAll_new (E := E) hrun
    refine ⟨{ c with encoder := e }, ?_, henc, rfl⟩
    rw [decode_eq h]
    change (pushAll new (samplesOut startTs endTs l) >>= _) = _
    rw [he]
    change Except.ok _ = _
    rw [h.len_eq, numSamples_eq henc]

end

variable [FloatOps] {policy : DuplicatePolicy} {s : Sample}

/-- What an upsert does to a chunk that holds `l`: it holds what the policy makes
of `l`, or nothing changes. -/
def Upserted (c : CompressedChunk E) (r : Except TsdbError (List Sample))
    (res : Except TsdbError (Nat × CompressedChunk E)) : Prop :=
  match r with
  | .ok l => ∃ c', res = .ok (l.length, c') ∧ Becomes c c' l
  | .error e => res = .error e

omit [FloatOps] in
theorem cut_lt {l₁ l₂ : List Sample} (h₁ : ∀ b ∈ l₁, b.timestamp < s.timestamp)
    (h₂ : ∀ b ∈ l₂, s.timestamp ≤ b.timestamp) : ((l₁ ++ l₂).takeWhile fun b => b.timestamp < s.timestamp) = l₁
    ∧ ((l₁ ++ l₂).dropWhile fun b => b.timestamp < s.timestamp) = l₂ :=
  takeWhile_dropWhile_append (fun b hb => decide_eq_true (h₁ b hb))
    (fun b hb => decide_eq_false (not_lt.mpr (h₂ b hb)))

theorem Holds.upsertSample_absent {l₁ l₂ : List Sample} (h : Holds c (l₁ ++ l₂))
    (h₁ : ∀ b ∈ l₁, b.timestamp < s.timestamp) (h₂ : ∀ b ∈ l₂, s.timestamp < b.timestamp)
    (hrun : SampleRun (l₁ ++ s :: l₂)) : ∃ c', c.upsertSample s policy = .ok ((l₁ ++ s :: l₂).length, c')
    ∧ Becomes c c' (l₁ ++ s :: l₂) := by
  have hlen : (l₁ ++ s :: l₂).length = (l₁ ++ l₂).length + 1 := by
    rw [length_append, length_append, length_cons]
    omega
  obtain ⟨htake, hdrop⟩ := cut_lt h₁ fun b hb => (h₂ b hb).le
  obtain ⟨e₁, he₁, henc₁⟩ := pushAll_new (E := E) (hrun.sublist (sublist_append_left ..))
  have hrun' := hrun
  rw [append_cons] at hrun'
  obtain ⟨e₂, he₂, henc₂⟩ := pushSample_encodes henc₁ (hrun'.sublist (sublist_append_left ..))
  obtain ⟨e₃, he₃, henc₃⟩ := pushAll_encodes henc₂ l₂ hrun'
  rw [← append_cons] at henc₃
  have hfin (e : E) : finish (l₁ ++ l₂, none) e = .ok e := rfl
  unfold upsertSample
  dsimp only
  rw [h.len_eq, decode_eq h, h.firstTimestamp_eq, htake, hdrop, hlen]
  cases l₁ with
  | nil =>
    obtain rfl : e₁ = new := (Except.ok.inj he₁).symm
    cases l₂ with
    | nil =>
      -- the chunk is empty
      obtain ⟨c', hc', hbecomes⟩ := h.addSample_spec hrun
      refine ⟨c', ?_, hbecomes⟩
      rw [if_pos (show ([] ++ [] : List Sample).length = 0 from rfl), hc']
      rfl
    | cons b l₂ =>
      -- the new sample comes first
      have hb : s.timestamp < headTs ([] ++ b :: l₂) := h₂ b mem_cons_self
      refine ⟨{ c with encoder := e₃ }, ?_, henc₃, rfl⟩
      rw [if_neg (by simp), if_pos hb, he₂]
      simp only [bind, Except.bind, nil_append, he₃] at hfin ⊢
      rfl
  | cons b l₁ =>
    have hb : ¬ s.timestamp < headTs (b :: l₁ ++ l₂) := (h₁ b mem_cons_self).le.not_gt
    refine ⟨{ c with encoder := e₃ }, ?_, henc₃, rfl⟩
    rw [if_neg (by simp), if_neg hb, he₁]
    cases l₂ with
    | nil =>
      obtain rfl : e₃ = e₂ := (Except.ok.inj he₃).symm
      simp only [bind, Except.bind, hfin, he₂]
      rfl
    | cons d l₂ =>
      have hd : ¬ d.timestamp = s.timestamp := (h₂ d mem_cons_self).ne'
      rw [pushAll, foldlM_cons] at he₃
      simp only [bind, Except.bind, hd, he₂]
      cases hd' : pushSample e₂ d with
      | error err =>
        rw [hd'] at he₃
        cases he₃
      | ok e₄ =>
        rw [hd'] at he₃
        change pushAll e₄ l₂ = .ok e₃ at he₃
        simp only [he₃]
        rfl

theorem Holds.upsertSample_present {l₁ l₂ : List Sample} {b : Sample} (h : Holds c (l₁ ++ b :: l₂))
    (h₁ : ∀ d ∈ l₁, d.timestamp < s.timestamp) (hb : b.timestamp = s.timestamp)
    (h₂ : ∀ d ∈ l₂, s.timestamp < d.timestamp) :
    Upserted c ((fun d => l₁ ++ d :: l₂) <$> policy.combine s b) (c.upsertSample s policy) := by
  have hge : ∀ d ∈ b :: l₂, s.timestamp ≤ d.timestamp := by
    exact forall_mem_cons.mpr ⟨hb.ge, fun d hd => (h₂ d hd).le⟩
  obtain ⟨htake, hdrop⟩ := cut_lt h₁ hge
  have hfirst : ¬ s.timestamp < headTs (l₁ ++ b :: l₂) := by
    have := h.run.headTs_le (mem_append_right l₁ mem_cons_self)
    omega
  obtain ⟨e₁, he₁, henc₁⟩ := pushAll_new (E := E) (h.run.sublist (sublist_append_left ..))
  unfold upsertSample
  dsimp only
  rw [h.len_eq, decode_eq h, h.firstTimestamp_eq, htake, hdrop, if_neg (by simp), if_neg hfirst, he₁]
  simp only [bind, Except.bind, hb, DuplicatePolicy.combine]
  cases hv : policy.duplicateValue b.value s.value with
  | error e => rfl
  | ok v =>
    have hrun : SampleRun (l₁ ++ ⟨s.timestamp, v⟩ :: l₂) := by
      obtain ⟨hr₁, hr₂, hlt⟩ := sampleRun_append.mp h.run
      obtain ⟨hbl, hl₂⟩ := pairwise_cons.mp hr₂.increasing
      refine sampleRun_append.mpr ⟨hr₁, ⟨?_, pairwise_cons.mpr ⟨h₂, hl₂⟩⟩, ?_⟩
      · exact forall_mem_cons.mpr ⟨hb ▸ hr₂.times b mem_cons_self, fun d hd => hr₂.times d (mem_cons_of_mem _ hd)⟩
      · intro d hd
        exact forall_mem_cons.mpr ⟨h₁ d hd, fun d' hd' => hlt d hd d' (mem_cons_of_mem _ hd')⟩
    have hlen : (l₁ ++ ⟨s.timestamp, v⟩ :: l₂).length = (l₁ ++ b :: l₂).length := by simp
    have hrun' := hrun
    rw [append_cons] at hrun'
    obtain ⟨e₂, he₂, henc₂⟩ := pushSample_encodes henc₁ (hrun'.sublist (sublist_append_left ..))
    obtain ⟨e₃, he₃, henc₃⟩ := pushAll_encodes henc₂ l₂ hrun'
    rw [← append_cons] at henc₃
    refine ⟨{ c with encoder := e₃ }, ?_, henc₃, rfl⟩
    simp only [he₂, he₃, hlen]
    rfl

theorem Holds.upsertSample_spec (h : Holds c l) (hs : ValidTs s.timestamp) (policy : DuplicatePolicy) :
    Upserted c (policy.upsert s l) (c.upsertSample s policy) := by
  cases h.run.increasing.sorted.place s.timestamp with
  | absent h₁ h₂ =>
    have hr : policy.upsert s _ = .ok _ := insertWith_new h₁ h₂
    rw [hr]
    exact h.upsertSample_absent h₁ h₂ (h.run.upsert hs hr)
  | present h₁ hb h₂ =>
    rw [DuplicatePolicy.upsert, insertWith_old h₁ hb]
    exact h.upsertSample_present h₁ hb h₂

theorem Holds.mergeSamples_spec (h : Holds c l) {samples : List Sample} (hs : SampleRun samples)
    (policy : Option DuplicatePolicy) : ∃ c', c.mergeSamples samples policy
    = .ok (samples.map ((policy.getD .keepLast).outcome l), c')
    ∧ Becomes c c' ((policy.getD .keepLast).putAll samples l) := by
  cases samples with
  | nil => exact ⟨c, rfl, h, rfl⟩
  | cons first rest =>
    unfold mergeSamples
    dsimp only
    split
    · rename_i hpast
      -- every new sample is past the chunk
      have hlt : ∀ a ∈ first :: rest, ∀ b ∈ l, b.timestamp < a.timestamp := by
        intro a ha b hb
        have hlast := h.le_lastTimestamp hb
        have hfirst : first.timestamp ≤ a.timestamp := hs.headTs_le ha
        rw [h.isEmpty_eq, decide_eq_true_eq] at hpast
        rcases hpast with rfl | hpast
        · exact absurd hb not_mem_nil
        · omega
      obtain ⟨c', -, hc', hbecomes⟩ := h.addAll_spec (first :: rest)
        (sampleRun_append.mpr ⟨h.run, hs, fun a ha b hb => hlt b hb a ha⟩)
      refine ⟨c', ?_, ?_⟩
      · rw [hc']
        congr 2
        exact map_congr_left fun a ha => (outcome_of_lt (hlt a ha)).symm
      · rw [putAll_of_lt hlt hs.increasing]
        exact hbecomes
    · rw [h.iter_eq, mergeChunkSamples_eq policy h.run.increasing hs.increasing]
      obtain ⟨e, he, henc⟩ := pushAll_new (E := E) (h.run.putAll hs.times)
      refine ⟨{ c with encoder := e }, ?_, henc, rfl⟩
      rw [he]
      rfl

omit [FloatOps] in
theorem Holds.split_spec (h : Holds c l) (hne : l ≠ []) :
    ∃ c₁ c₂, c.split = .ok (c₁, c₂) ∧ Becomes c c₁ (l.take (l.length / 2)) ∧ Becomes c c₂ (l.drop (l.length / 2)) := by
  obtain ⟨e₁, he₁, henc₁⟩ := pushAll_new (E := E) (h.run.sublist (take_sublist (l.length / 2) l))
  obtain ⟨e₂, he₂, henc₂⟩ := pushAll_new (E := E) (h.run.sublist (drop_sublist (l.length / 2) l))
  refine ⟨{ c with encoder := e₁ }, { c with encoder := e₂ }, ?_, ⟨henc₁, rfl⟩, henc₂, rfl⟩
  unfold split
  rw [h.isEmpty_eq, decide_eq_false hne, if_neg Bool.false_ne_true]
  dsimp only
  rw [decode_eq h, h.len_eq, he₁, he₂]
  rfl

omit [FloatOps] in
theorem Holds.deserialize_serialize (h : Holds c l) (hlen : l.length < 2 ^ 59)
    (hmax : c.maxSize < 2 ^ 64) : deserialize c.serialize = .ok c := by
  obtain ⟨rest, hread, rfl⟩ := tryReadUvarint_reads (BitVec.ofNat 64 c.maxSize)
    c.serialize (SampleCodec.serialize c.encoder) rfl
  rw [deserialize, hread]
  dsimp only
  rw [LawfulCodec.deserialize_serialize h hlen, BitVec.toNat_ofNat, Nat.mod_eq_of_lt hmax]
  rfl

omit [FloatOps] in
/-- Saving and loading a chunk between two appends changes nothing. -/
theorem resume_spec (l₁ l₂ : List Sample) (hrun : SampleRun (l₁ ++ l₂)) (hlen : l₁.length < 2 ^ 59)
    {maxSize : Nat} (hmax : maxSize < 2 ^ 64) : ∃ whole part : CompressedChunk E,
    (withMaxSize maxSize).addAll (l₁ ++ l₂) = .ok whole ∧ Holds whole (l₁ ++ l₂)
    ∧ (withMaxSize maxSize).addAll l₁ = .ok part ∧ Holds part l₁
    ∧ (deserialize part.serialize >>= fun loaded => addAll loaded l₂) = .ok whole := by
  have hnew := withMaxSize_holds (E := E) maxSize
  obtain ⟨whole, hw, -, hwhole, hmaxw⟩ := hnew.addAll_spec (l₁ ++ l₂) hrun
  obtain ⟨part, hp, -, hpart, hmaxp⟩ := hnew.addAll_spec l₁ (hrun.sublist (sublist_append_left ..))
  obtain ⟨whole', hw', -, hwhole', hmaxw'⟩ := hpart.addAll_spec l₂ hrun
  refine ⟨whole, part, hw, hwhole, hp, hpart, ?_⟩
  rw [hpart.deserialize_serialize hlen (by rw [hmaxp]; exact hmax)]
  change addAll part l₂ = _
  rw [hw', hwhole.unique hwhole' (by rw [hmaxw', hmaxp, hmaxw])]

end CompressedChunk

end ValkeyTimeSeries
