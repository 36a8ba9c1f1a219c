/-
Series/Upsert.lean

Upserting a sample that is not later than the newest one.

Design.  Every chunk before the target holds earlier samples only, every chunk after it later ones only, so
upserting into the target is upserting into the whole list.  An upsert between the two halves goes to the
lower one, and is turned away there if that half of an uncompressed chunk is full by itself (`Overflows`):
then nothing is stored, while the chunk stays split.
-/
import ValkeyTimeSeries.Series.WellFormed

namespace ValkeyTimeSeries

open List SortedList BinarySearch

section Pieces

variable [FloatOps] {policy : DuplicatePolicy} {sample : Sample} {l l₁ l₂ : List Sample}

theorem upsert_middle (h₁ : ∀ b ∈ l₁, b.timestamp < sample.timestamp) (h₂ : ∀ b ∈ l₂, sample.timestamp < b.timestamp) :
    policy.upsert sample (l₁ ++ (l ++ l₂)) = (fun r => l₁ ++ (r ++ l₂)) <$> policy.upsert sample l := by
  rw [DuplicatePolicy.upsert, insertWith_append_of_lt h₁, insertWith_append_of_gt h₂]
  unfold DuplicatePolicy.upsert
  cases insertWith Sample.timestamp (policy.combine sample) sample l <;> rfl

theorem upsert_ne_nil {r : List Sample} (h : policy.upsert sample l = .ok r) : r ≠ [] := by
  cases l with
  | nil =>
    obtain rfl := Except.ok.inj h
    simp
  | cons b l =>
    have := (length_insertWith h).1
    rintro rfl
    simp at this

theorem min_headTs {r : List Sample} (hne : l ≠ [])
    (hr : policy.upsert sample l = .ok r) : min sample.timestamp (headTs l) = headTs r := by
  cases l with
  | nil => exact absurd rfl hne
  | cons b l =>
    rw [DuplicatePolicy.upsert, insertWith] at hr
    change min sample.timestamp b.timestamp = headTs r
    split at hr
    · rename_i hlt
      obtain ⟨r', hl, rfl⟩ := Except.ok_of_map hr
      exact min_eq_right hlt.le
    · split at hr
      · rename_i heq
        obtain ⟨d, hc, rfl⟩ := Except.ok_of_map hr
        change _ = d.timestamp
        rw [DuplicatePolicy.combine_timestamp hc, heq, min_self]
      · obtain rfl := Except.ok.inj hr
        exact min_eq_left (by omega)

end Pieces

variable [DecimalHelpers]

/-- A timestamp strictly between the halves of an uncompressed chunk that holds
twice its capacity at least. -/
def BetweenHalves (c : TimeSeriesChunk) (ts : Int) : Prop :=
  match c with
  | .uncompressed c =>
    2 * c.maxElements ≤ c.samples.length
      ∧ (∀ b ∈ c.samples.take (c.samples.length / 2), b.timestamp < ts)
      ∧ ∀ b ∈ c.samples.drop (c.samples.length / 2), ts < b.timestamp
  | _ => False

instance (c : TimeSeriesChunk) (ts : Int) : Decidable (BetweenHalves c ts) :=
  match c with
  | .uncompressed _ => inferInstanceAs (Decidable (_ ∧ _ ∧ _))
  | .gorilla _ => inferInstanceAs (Decidable False)
  | .chimp _ => inferInstanceAs (Decidable False)

section BetweenHalves

variable {c : TimeSeriesChunk} {ts : Int}

/-- Both halves of such a chunk hold samples, and it is split by an upsert. -/
theorem BetweenHalves.facts (h : BetweenHalves c ts) (hc : c.Ok) :
    (∃ b ∈ c.samples, b.timestamp < ts) ∧ (∃ b ∈ c.samples, ts < b.timestamp) ∧ c.shouldSplit = true := by
  cases c with
  | uncompressed c =>
    obtain ⟨hlen, hlow, hhigh⟩ := h
    have hmax : c.maxElements = c.maxSize / 16 := hc.sound.2
    have hmin : 48 ≤ c.maxSize := hc.minSize
    refine ⟨?_, ?_, decide_eq_true ⟨show c.maxSize ≠ 0 by omega, ?_⟩⟩
    · have hmem : c.samples[0] ∈ c.samples.take (c.samples.length / 2) :=
        mem_take_iff_getElem.mpr ⟨0, by omega, rfl⟩
      exact ⟨_, mem_of_mem_take hmem, hlow _ hmem⟩
    · have hmem : c.samples[c.samples.length / 2] ∈ c.samples.drop (c.samples.length / 2) :=
        mem_drop_iff_getElem.mpr ⟨0, by omega, by simp⟩
      exact ⟨_, mem_of_mem_drop hmem, hhigh _ hmem⟩
    · change 5 * (c.samples.length * 16) ≥ 6 * c.maxSize
      omega
  | gorilla c => exact h.elim
  | chimp c => exact h.elim

/-- Only the chunk around a timestamp can have it between its halves. -/
theorem betweenHalves_target {cs₁ cs₂ : List TimeSeriesChunk} (h : ChunksOk (cs₁ ++ c :: cs₂))
    (h₁ : ∀ b ∈ stored cs₁, b.timestamp < ts) (h₂ : ∀ b ∈ stored cs₂, ts < b.timestamp) :
    (∃ d ∈ cs₁ ++ c :: cs₂, BetweenHalves d ts) ↔ BetweenHalves c ts := by
  constructor
  · rintro ⟨d, hd, hbetween⟩
    obtain ⟨⟨b, hb, hlt⟩, ⟨b', hb', hgt⟩, -⟩ := hbetween.facts (h.ok d hd)
    rcases mem_append.mp hd with hd | hd
    · exact absurd (h₁ b' (mem_stored.mpr ⟨d, hd, hb'⟩)) hgt.le.not_gt
    · rcases mem_cons.mp hd with rfl | hd
      · exact hbetween
      · exact absurd (h₂ b (mem_stored.mpr ⟨d, hd, hb⟩)) hlt.le.not_gt
  · intro hc
    exact ⟨c, mem_append_right _ mem_cons_self, hc⟩

/-- The lower half of a split turns a sample away that lies before the upper half
exactly if the sample is between the halves of a chunk twice over its capacity. -/
theorem overflows_lower {c₁ : TimeSeriesChunk} (hc : c.Ok) (hc₁ : c.Becomes c₁ (c.samples.take (c.samples.length / 2)))
    (hhigh : ∀ b ∈ c.samples.drop (c.samples.length / 2), ts < b.timestamp)
    (hlen : 2 ≤ c.samples.length) : c₁.Overflows ts ↔ BetweenHalves c ts := by
  have hne := (TimeSeriesChunk.halves_ne_nil hlen).1
  cases c with
  | uncompressed c =>
    cases c₁ with
    | uncompressed c₁ =>
      have hsamples : c₁.samples = c.samples.take (c.samples.length / 2) := hc₁.samples_eq
      have hmax : c₁.maxElements = c.maxElements := by
        have hsize : c₁.maxSize = c.maxSize := hc₁.maxSize_eq
        rw [hc₁.ok.sound.2, hc.sound.2, hsize]
      have hfull : c₁.isFull = true ↔ 2 * c.maxElements ≤ c.samples.length := by
        rw [UncompressedChunk.isFull, decide_eq_true_eq, UncompressedChunk.len, hsamples, hmax, length_take]
        omega
      constructor
      · rintro ⟨-, hfull', hlt⟩
        refine ⟨hfull.mp hfull', fun b hb => ?_, hhigh⟩
        rw [← hsamples] at hb
        exact (UncompressedChunk.le_lastTimestamp hc₁.ok.sound.1 hb).trans_lt hlt
      · rintro ⟨htwice, hlow, -⟩
        refine ⟨fun hnil => hne (hsamples ▸ hnil), hfull.mpr htwice, ?_⟩
        obtain ⟨x, hx, hlast⟩ := hc₁.ok.last_mem (by rw [hc₁.samples_eq]; exact hne)
        rw [hc₁.samples_eq] at hx
        exact lt_of_eq_of_lt hlast.symm (hlow x hx)
    | gorilla c₁ => cases hc₁.encoding_eq
    | chimp c₁ => cases hc₁.encoding_eq
  | gorilla c =>
    cases c₁ with
    | uncompressed c₁ => cases hc₁.encoding_eq
    | gorilla c₁ => exact Iff.rfl
    | chimp c₁ => cases hc₁.encoding_eq
  | chimp c =>
    cases c₁ with
    | uncompressed c₁ => cases hc₁.encoding_eq
    | gorilla c₁ => cases hc₁.encoding_eq
    | chimp c₁ => exact Iff.rfl

end BetweenHalves

/-! ### One chunk among others -/

section OneChunk

variable [FloatOps] {cs₁ cs₂ : List TimeSeriesChunk} {c : TimeSeriesChunk} {sample : Sample}

/-- Upserting into the chunk whose neighbours are all earlier or later is
upserting into the list of all. -/
theorem ChunksOk.upsert_spec (h : ChunksOk (cs₁ ++ c :: cs₂)) (hts : ValidTs sample.timestamp)
    (h₁ : ∀ b ∈ stored cs₁, b.timestamp < sample.timestamp)
    (h₂ : ∀ b ∈ stored cs₂, sample.timestamp < b.timestamp) (policy : DuplicatePolicy)
    (hroom : ¬ c.Overflows sample.timestamp) :
    match policy.upsert sample (stored (cs₁ ++ c :: cs₂)) with
    | .ok l => ∃ size c', c.upsert sample policy = ((size, .ok sample), c')
        ∧ ChunksOk (cs₁ ++ c' :: cs₂) ∧ stored (cs₁ ++ c' :: cs₂) = l
        ∧ (stored (cs₁ ++ c :: cs₂)).length + (size - c.len) = l.length ∧ c'.getEncoding = c.getEncoding
    | .error _ => c.upsert sample policy = ((0, .duplicate), c) := by
  have hmem : c ∈ cs₁ ++ c :: cs₂ := mem_append_right _ mem_cons_self
  have hc := h.ok c hmem
  have hspec := hc.upsert_spec hts policy hroom
  have hstored : stored (cs₁ ++ c :: cs₂) = stored cs₁ ++ (c.samples ++ stored cs₂) := by
    rw [stored_append, stored_cons]
  rw [hstored, upsert_middle h₁ h₂]
  cases hr : policy.upsert sample c.samples with
  | error e =>
    rw [hr] at hspec
    exact hspec
  | ok r =>
    rw [hr] at hspec
    obtain ⟨c', hc', hbecomes⟩ := hspec
    have hrun : SampleRun (stored cs₁ ++ (r ++ stored cs₂)) := by
      have hwhole := h.run
      rw [hstored] at hwhole
      exact hwhole.upsert hts (by rw [upsert_middle h₁ h₂, hr]; rfl)
    obtain ⟨hok, hstored'⟩ := h.replace hbecomes (upsert_ne_nil hr) hrun
    refine ⟨r.length, c', hc', hok, hstored', ?_, hbecomes.encoding_eq⟩
    have hle := (length_insertWith hr).1
    rw [hc.len_eq]
    simp only [length_append]
    omega

end OneChunk

namespace TimeSeries

variable {s : TimeSeries} {sample : Sample}

/-- Where an upsert is turned away: between the halves of a chunk that is twice
over its capacity. -/
def Overflows (s : TimeSeries) (ts : Int) : Prop := ∃ c ∈ s.chunks, BetweenHalves c ts

instance (s : TimeSeries) (ts : Int) : Decidable (s.Overflows ts) :=
  inferInstanceAs (Decidable (∃ c ∈ s.chunks, _))

/-! ### The target -/

theorem WF.upsertTarget_spec (h : s.WF) {ts : Int} (hne : s.samples ≠ []) (hle : ts ≤ s.lastTimestamp)
    (hwin : s.isOlderThanRetention ts = false) : ∃ cs₁ c cs₂, s.chunks = cs₁ ++ c :: cs₂ ∧
    s.upsertTarget ts = some cs₁.length
    ∧ (∀ b ∈ stored cs₁, b.timestamp < ts) ∧ (∀ b ∈ stored cs₂, ts < b.timestamp) ∧ ts ≤ c.lastTimestamp := by
  have hchunks := h.chunks
  have hne' : s.chunks ≠ [] := fun hnil => hne (show stored s.chunks = [] by rw [hnil, stored_nil])
  obtain ⟨d, ds, hcons⟩ := exists_cons_of_ne_nil hne'
  have hfirst : s.firstTimestamp = d.firstTimestamp := by
    have := headTs_stored hchunks
    rw [hcons] at this
    rw [h.first, samples, hcons, ← this]
    rfl
  unfold upsertTarget
  split
  · -- not after the first sample: the first chunk
    rw [hcons] at hchunks
    have hd := hchunks.first_le_last mem_cons_self
    rw [hwin, if_neg Bool.false_ne_true]
    refine ⟨[], d, ds, hcons, rfl, by simp, ?_, by omega⟩
    refine lt_stored hchunks.tail.ok fun e he => ?_
    have := hchunks.head_lt he
    omega
  · have hlast : ∃ e ∈ s.chunks, s.lastTimestamp = e.lastTimestamp := by
      obtain ⟨es, e, hes⟩ := (eq_nil_or_concat s.chunks).resolve_left hne'
      rw [concat_eq_append] at hes
      have hmem : e ∈ s.chunks := by rw [hes]; simp
      have hsome := getLast?_stored hchunks
      rw [hes, getLast?_concat, Option.bind_some, ← hes, TimeSeriesChunk.lastSample,
        (hchunks.ok e hmem).isEmpty_eq, decide_eq_false (hchunks.nonempty e hmem),
        if_neg Bool.false_ne_true] at hsome
      refine ⟨e, hmem, ?_⟩
      rw [lastTimestamp, h.last, samples, ← hsome]
      rfl
    have hfl : ∀ e ∈ s.chunks, e.firstTimestamp ≤ e.lastTimestamp := fun e he =>
      hchunks.first_le_last he
    have haround := hchunks.around ts
    generalize s.chunks = cs at *
    cases haround with
    | inside h₁ hc hc' h₂ =>
      rename_i cs₁ cs₂ c
      have hfl₁ : ∀ e ∈ cs₁, e.firstTimestamp ≤ e.lastTimestamp := fun e he =>
        hfl e (mem_append_left _ he)
      obtain ⟨hok₁, hok₂, -⟩ := chunksOk_append.mp hchunks
      rw [getChunkIndex_inside h₁ h₂ hfl₁ hc hc']
      exact ⟨cs₁, c, cs₂, rfl, rfl, stored_lt hok₁.ok h₁, lt_stored hok₂.tail.ok h₂, hc'⟩
    | gap h₁ h₂ =>
      rename_i cs₁ cs₂
      have hfl₁ : ∀ e ∈ cs₁, e.firstTimestamp ≤ e.lastTimestamp := fun e he =>
        hfl e (mem_append_left _ he)
      obtain ⟨hok₁, hok₂, -⟩ := chunksOk_append.mp hchunks
      have hmiss := getChunkIndex_gap h₁ h₂ hfl₁
      -- there is a chunk after the gap
      cases cs₂ with
      | nil =>
        obtain ⟨e, he, heq⟩ := hlast
        rw [append_nil] at he
        have := h₁ e he
        omega
      | cons c cs₂ =>
        have hc := h₂ c mem_cons_self
        have hidx : (cs₁ ++ c :: cs₂).findIdx? (fun e => decide (e.firstTimestamp > ts)) = some cs₁.length := by
          refine findIdx?_append_cons (fun e he => decide_eq_false ?_) (decide_eq_true hc)
          have := h₁ e he
          have := hfl₁ e he
          omega
        have hcl := hfl c (by simp)
        dsimp only
        rw [hmiss, if_neg Bool.false_ne_true, hidx]
        exact ⟨cs₁, c, cs₂, rfl, rfl, stored_lt hok₁.ok h₁,
          lt_stored hok₂.tail.ok fun e he => h₂ e (mem_cons_of_mem _ he), by omega⟩

/-- A chunk does not turn away a sample that is not later than its last one. -/
theorem not_overflows {c : TimeSeriesChunk} {ts : Int} (h : ts ≤ c.lastTimestamp) : ¬ c.Overflows ts := by
  cases c with
  | uncompressed c =>
    rintro ⟨-, -, hlt⟩
    exact absurd h hlt.not_ge
  | gorilla c => exact id
  | chimp c => exact id

/-- A chunk that replaces another one keeps the settings and the encodings. -/
theorem WF.encoding_replace (h : s.WF) {cs₁ cs₂ : List TimeSeriesChunk}
    {c c' : TimeSeriesChunk} (hcs : s.chunks = cs₁ ++ c :: cs₂) (henc : c'.getEncoding = c.getEncoding) :
    ∀ d ∈ cs₁ ++ c' :: cs₂, d.getEncoding = s.chunkEncoding := by
  have hall := h.encoding
  rw [hcs] at hall
  exact forall_mem_replace hall (henc.trans (hall c (by simp)))

/-! ### Into a chunk that need not be split -/

variable [Env]

inductive Upserted (s : TimeSeries) (sample : Sample) (policy : DuplicatePolicy) :
    SampleAddResult × TimeSeries → Prop
  | stored {l : List Sample} {s' : TimeSeries} (hroom : ¬ s.Overflows sample.timestamp)
      (hl : policy.upsert sample s.samples = .ok l) (hs' : Becomes s s' l) :
      Upserted s sample policy (.ok sample, s')
  | refused {e : TsdbError} {s' : TimeSeries} (hroom : ¬ s.Overflows sample.timestamp)
      (he : policy.upsert sample s.samples = .error e) (hs' : Becomes s s' s.samples) :
      Upserted s sample policy (.duplicate, s')
  | overflowed {s' : TimeSeries} (hover : s.Overflows sample.timestamp)
      (hs' : Becomes s s' s.samples) : Upserted s sample policy (.error cannotAddSample, s')

section Target

variable {cs₁ cs₂ : List TimeSeriesChunk} {c : TimeSeriesChunk}

theorem WF.upsertDirect_spec (h : s.WF) (hcs : s.chunks = cs₁ ++ c :: cs₂)
    (hts : ValidTs sample.timestamp) (h₁ : ∀ b ∈ stored cs₁, b.timestamp < sample.timestamp)
    (h₂ : ∀ b ∈ stored cs₂, sample.timestamp < b.timestamp) (hle : sample.timestamp ≤ c.lastTimestamp)
    (hsplit : c.shouldSplit = false) (policy : DuplicatePolicy) :
    Upserted s sample policy (s.upsertDirect cs₁.length c sample policy) := by
  have hchunks := h.chunks
  rw [hcs] at hchunks
  have hc : c.Ok := hchunks.ok c (by simp)
  have hroom : ¬ s.Overflows sample.timestamp := by
    intro hover
    rw [Overflows, hcs, betweenHalves_target hchunks h₁ h₂] at hover
    have := (hover.facts hc).2.2
    rw [hsplit] at this
    cases this
  have hspec := hchunks.upsert_spec hts h₁ h₂ policy (not_overflows hle)
  have hsamples : s.samples = stored (cs₁ ++ c :: cs₂) := by rw [samples, hcs]
  rw [← hsamples] at hspec
  unfold upsertDirect
  dsimp only
  cases hr : policy.upsert sample s.samples with
  | error e =>
    rw [hr] at hspec
    rw [hspec]
    refine .refused hroom hr ?_
    have hset : s.chunks.set cs₁.length c = s.chunks := by rw [hcs]; simp
    rw [hset]
    exact h.becomes
  | ok l =>
    rw [hr] at hspec
    obtain ⟨size, c', hc', hok, hstored, hlen, henc⟩ := hspec
    have hset : s.chunks.set cs₁.length c' = cs₁ ++ c' :: cs₂ := by rw [hcs]; simp
    have hencs := h.encoding_replace hcs henc
    have hne : s.samples ≠ [] := by
      intro hnil
      have := h.chunks_eq_nil hnil
      rw [hcs] at this
      simp at this
    rw [hc', hset]
    refine .stored hroom hr ?_
    have hfirst : min sample.timestamp s.firstTimestamp = headTs (stored (cs₁ ++ c' :: cs₂)) := by
      rw [h.first, min_headTs hne hr, hstored]
    have htotal : s.totalSamples + (size - c.len) = (stored (cs₁ ++ c' :: cs₂)).length := by
      rw [h.total, hlen, hstored]
    rw [hcs]
    by_cases hlast : cs₁.length + 1 = (cs₁ ++ c :: cs₂).length
    · rw [decide_eq_true hlast]
      exact ⟨⟨hok, hencs, h.minSize, htotal, hfirst, getLast?_stored hok⟩, hstored, ⟨rfl, rfl, rfl, rfl, rfl⟩⟩
    · -- the newest sample is in a later chunk
      have hne₂ : stored cs₂ ≠ [] := by
        intro hnil
        have hok₂ := (chunksOk_append.mp hchunks).2.1.tail
        cases cs₂ with
        | nil => simp at hlast
        | cons d cs₂ =>
          exact hok₂.nonempty d mem_cons_self (append_eq_nil_iff.mp hnil).1
      rw [decide_eq_false hlast]
      refine ⟨⟨hok, hencs, h.minSize, htotal, hfirst, ?_⟩, hstored, ⟨rfl, rfl, rfl, rfl, rfl⟩⟩
      change s.lastSample = (stored (cs₁ ++ c' :: cs₂)).getLast?
      rw [h.last, hsamples, stored_append, stored_append, stored_cons, stored_cons, ← append_assoc,
        ← append_assoc, getLast?_append_of_ne_nil _ hne₂, getLast?_append_of_ne_nil _ hne₂]

/-! ### Into a half of a split chunk -/

omit [Env] in
theorem WF.rechunk (h : s.WF) {cs : List TimeSeriesChunk} (hok : ChunksOk cs)
    (henc : ∀ d ∈ cs, d.getEncoding = s.chunkEncoding) (hstored : stored cs = s.samples) :
    Becomes s { s with chunks := cs } s.samples := by
  refine ⟨⟨hok, henc, h.minSize, ?_, ?_, ?_⟩, hstored, ⟨rfl, rfl, rfl, rfl, rfl⟩⟩
  · exact h.total.trans (congrArg List.length hstored).symm
  · exact h.first.trans (congrArg headTs hstored).symm
  · exact h.last.trans (congrArg List.getLast? hstored).symm

omit [Env] in
theorem insertChunk_eq {ds₁ ds₂ : List TimeSeriesChunk} {d : TimeSeriesChunk} (h : ChunksOk (ds₁ ++ d :: ds₂)) :
    insertChunk { s with chunks := ds₁ ++ ds₂ } d = { s with chunks := ds₁ ++ d :: ds₂ } := by
  have hd : d ∈ ds₁ ++ d :: ds₂ := mem_append_right _ mem_cons_self
  have hlen : d.len > 0 := by
    rw [(h.ok d hd).len_eq]
    exact length_pos_iff.mpr (h.nonempty d hd)
  have hpoint : partitionPoint (fun e : TimeSeriesChunk => decide (e.firstTimestamp ≤ d.firstTimestamp))
      (ds₁ ++ ds₂) = ds₁.length := by
    refine partitionPoint_append (fun e he => decide_eq_true ?_) (fun e he => decide_eq_false ?_)
    · have := h.last_lt_first he (mem_cons_self (a := d) (l := ds₂))
      have := h.first_le_last (mem_append_left _ he)
      omega
    · have hok := (chunksOk_append.mp h).2.1
      have := hok.head_lt he
      have := hok.first_le_last mem_cons_self
      omega
  unfold insertChunk
  rw [if_pos hlen]
  dsimp only
  rw [hpoint, take_left, drop_left]

theorem WF.upsertHalf (h : s.WF) {ds₁ ds₂ : List TimeSeriesChunk} {d : TimeSeriesChunk}
    (hok : ChunksOk (ds₁ ++ d :: ds₂)) (hstored : stored (ds₁ ++ d :: ds₂) = s.samples)
    (henc : ∀ e ∈ ds₁ ++ d :: ds₂, e.getEncoding = s.chunkEncoding) (hts : ValidTs sample.timestamp)
    (h₁ : ∀ b ∈ stored ds₁, b.timestamp < sample.timestamp)
    (h₂ : ∀ b ∈ stored ds₂, sample.timestamp < b.timestamp) (policy : DuplicatePolicy)
    (hroom : ¬ s.Overflows sample.timestamp) (hroom' : ¬ d.Overflows sample.timestamp)
    {r : SampleAddResult × TimeSeries}
    (hr : ∀ size res d', d.upsert sample policy = ((size, res), d') → ChunksOk (ds₁ ++ d' :: ds₂) →
    r = if res.isOk then (.ok sample, updateFirstLastTimestamps
    { s with chunks := ds₁ ++ d' :: ds₂, totalSamples := s.totalSamples + (size - d.len) })
    else (res, { s with chunks := ds₁ ++ d' :: ds₂ })) :
    Upserted s sample policy r := by
  have hspec := hok.upsert_spec hts h₁ h₂ policy hroom'
  rw [hstored] at hspec
  cases hp : policy.upsert sample s.samples with
  | error e =>
    rw [hp] at hspec
    rw [hr _ _ _ hspec hok]
    exact .refused hroom hp (h.rechunk hok henc hstored)
  | ok l =>
    rw [hp] at hspec
    obtain ⟨size, d', hd', hok', hstored', hlen, henc'⟩ := hspec
    rw [hr _ _ _ hd' hok']
    refine .stored hroom hp ?_
    have hencs := forall_mem_replace henc (henc'.trans (henc d (by simp)))
    have hwf := wf_updateFirstLast
      (s := { s with chunks := ds₁ ++ d' :: ds₂, totalSamples := s.totalSamples + (size - d.len) })
      hok' hencs h.minSize (show _ = (stored (ds₁ ++ d' :: ds₂)).length by rw [h.total, hlen, hstored'])
    exact ⟨hwf.wf, hstored', ⟨rfl, rfl, rfl, rfl, rfl⟩⟩

theorem WF.upsertSplit_spec (h : s.WF) (hcs : s.chunks = cs₁ ++ c :: cs₂)
    (hts : ValidTs sample.timestamp) (h₁ : ∀ b ∈ stored cs₁, b.timestamp < sample.timestamp)
    (h₂ : ∀ b ∈ stored cs₂, sample.timestamp < b.timestamp) (hle : sample.timestamp ≤ c.lastTimestamp)
    (hsplit : c.shouldSplit = true) (policy : DuplicatePolicy) :
    Upserted s sample policy (s.upsertSplit cs₁.length c sample policy) := by
  have hchunks := h.chunks
  have hencs := h.encoding
  rw [hcs] at hchunks hencs
  have hc : c.Ok := hchunks.ok c (by simp)
  have hcenc := hencs c (by simp)
  have hlen := hc.two_le_of_shouldSplit hsplit
  obtain ⟨c₁, c₂, hsp, hb₁, hb₂⟩ := hc.split_spec hlen
  have hhalves : c.samples = c₁.samples ++ c₂.samples := by
    rw [hb₁.samples_eq, hb₂.samples_eq, take_append_drop]
  obtain ⟨hne₁, hne₂⟩ := TimeSeriesChunk.halves_ne_nil hlen
  rw [← hb₁.samples_eq] at hne₁
  rw [← hb₂.samples_eq] at hne₂
  -- the chunks with the halves in place of the chunk
  have hstored : stored (cs₁ ++ c₁ :: c₂ :: cs₂) = s.samples := by
    rw [samples, hcs]
    simp only [stored_append, stored_cons, hhalves, append_assoc]
  have hput {p : TimeSeriesChunk → Prop} (hp : ∀ d ∈ cs₁ ++ c :: cs₂, p d) (hp₁ : p c₁) (hp₂ : p c₂) :
      ∀ d ∈ cs₁ ++ c₁ :: c₂ :: cs₂, p d := by
    rw [forall_mem_append, forall_mem_cons] at hp
    exact forall_mem_append.mpr ⟨hp.1, forall_mem_cons.mpr ⟨hp₁, forall_mem_cons.mpr ⟨hp₂, hp.2.2⟩⟩⟩
  have hok : ChunksOk (cs₁ ++ c₁ :: c₂ :: cs₂) :=
    ⟨hput hchunks.ok hb₁.ok hb₂.ok, hput hchunks.nonempty hne₁ hne₂, hstored ▸ h.run⟩
  have henc := hput hencs (hb₁.encoding_eq.trans hcenc) (hb₂.encoding_eq.trans hcenc)
  have hpos₂ : c₂.len > 0 := by
    rw [hb₂.ok.len_eq]
    exact length_pos_iff.mpr hne₂
  have hover : s.Overflows sample.timestamp ↔ BetweenHalves c sample.timestamp := by
    rw [Overflows, hcs]
    exact betweenHalves_target hchunks h₁ h₂
  have hset (d : TimeSeriesChunk) : s.chunks.set cs₁.length d = cs₁ ++ d :: cs₂ := by rw [hcs]; simp
  obtain ⟨x, hx, hxt⟩ := hb₂.ok.first_mem hne₂
  unfold upsertSplit
  rw [hsp]
  dsimp only
  by_cases hnew : c₂.firstTimestamp ≤ sample.timestamp
  · -- the upper half owns the timestamp
    have hroom : ¬ s.Overflows sample.timestamp := by
      rw [hover]
      intro hbetween
      cases c with
      | uncompressed c =>
        have hhigh := hbetween.2.2 x (by rw [hb₂.samples_eq] at hx; exact hx)
        omega
      | gorilla c => exact hbetween.elim
      | chimp c => exact hbetween.elim
    have hlast : c₂.lastTimestamp = c.lastTimestamp := by
      obtain ⟨m, y, hm⟩ := (eq_nil_or_concat c₂.samples).resolve_left hne₂
      rw [concat_eq_append] at hm
      rw [(hb₂.ok.last_eq hm).1, (hc.last_eq (l := c₁.samples ++ m) (by rw [hhalves, hm, append_assoc])).1]
    rw [append_cons] at hok hstored henc
    refine h.upsertHalf hok hstored henc hts ?_ h₂ policy hroom
      (not_overflows (by rw [hlast]; exact hle)) ?_
    · rw [stored_append]
      intro b hb
      rcases mem_append.mp hb with hb | hb
      · exact h₁ b hb
      · rw [stored_cons, stored_nil, append_nil] at hb
        have hrun := hc.run
        rw [hhalves] at hrun
        have := (sampleRun_append.mp hrun).2.2 b hb x hx
        omega
    · intro size res d' hd' hok'
      rw [decide_eq_true ⟨hpos₂, hnew⟩]
      simp only [if_true, hd']
      rw [hset, append_cons, insertChunk_eq hok']
  · have hbelow : ∀ b ∈ c₂.samples, sample.timestamp < b.timestamp := by
      intro b hb
      have := (hb₂.ok.bounds hb).1
      omega
    have hinto : decide (c₂.len > 0 ∧ sample.timestamp ≥ c₂.firstTimestamp) = false :=
      decide_eq_false fun hand => hnew hand.2
    have hlower := overflows_lower hc hb₁ (by rw [← hb₂.samples_eq]; exact hbelow) hlen
    simp only [hinto, Bool.false_eq_true, if_false]
    by_cases hfull : c₁.Overflows sample.timestamp
    · -- the lower half is full
      rw [hb₁.ok.upsert_overflows policy hfull]
      rw [hset, append_cons, insertChunk_eq (by rw [← append_cons]; exact hok)]
      refine .overflowed (hover.mpr (hlower.mp hfull)) ?_
      rw [append_cons] at hok hstored henc
      exact h.rechunk hok henc hstored
    · refine h.upsertHalf hok hstored henc hts h₁ ?_ policy (by rw [hover, ← hlower]; exact hfull) hfull ?_
      · exact forall_mem_append.mpr ⟨hbelow, h₂⟩
      · intro size res d' hd' hok'
        simp only [hd']
        rw [hset, append_cons, insertChunk_eq (by rw [← append_cons]; exact hok')]
        cases res <;> simp [SampleAddResult.isOk]

end Target

/-- **Upserting.**  A sample that is neither expired nor later than the newest one
is put where it belongs, or refused by the policy, or turned away. -/
theorem WF.upsertSample_spec (h : s.WF) (hts : ValidTs sample.timestamp) (hne : s.samples ≠ [])
    (hle : sample.timestamp ≤ s.lastTimestamp) (hwin : s.isOlderThanRetention sample.timestamp = false)
    (override : Option DuplicatePolicy) :
    Upserted s sample (s.sampleDuplicates.resolvePolicy override) (s.upsertSample sample override) := by
  obtain ⟨cs₁, c, cs₂, hcs, htarget, h₁, h₂, hc⟩ := h.upsertTarget_spec hne hle hwin
  have hget : s.chunks[cs₁.length]? = some c := by rw [hcs]; simp
  unfold upsertSample
  rw [htarget]
  dsimp only
  rw [hget]
  dsimp only
  cases hsplit : c.shouldSplit with
  | true => exact h.upsertSplit_spec hcs hts h₁ h₂ hc hsplit _
  | false => exact h.upsertDirect_spec hcs hts h₁ h₂ hc hsplit _

end TimeSeries

end ValkeyTimeSeries
