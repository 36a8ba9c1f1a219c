/-
Series/WellFormed.lean

The invariant of a series, and what appending, trimming and deleting do to it.

Design.  `samples` is the list of what is stored; `WF` says that the chunks hold it in order and that the four
cached fields agree with it.  The samples that are part of the series are the `visible` ones: a lazy trim
leaves expired samples in the head chunk, so `visible` is `samples` cut to the retention window.
-/
import ValkeyTimeSeries.Series.TimeSeries

namespace ValkeyTimeSeries

open List TimeSeriesChunk

/-! ### The retention window of a list -/

def windowStart (retention : Retention) (last : Sample) : Int := max (last.timestamp - retention.val) 0

/-- A list cut to the retention window, which follows its last sample. -/
def window (retention : Retention) (l : List Sample) : List Sample :=
  if retention = 0 then l
  else
    match l.getLast? with
    | none => []
    | some last => l.filter fun s => windowStart retention last ≤ s.timestamp

section Window

variable {retention : Retention} {l : List Sample} {last : Sample}

@[simp] theorem window_nil : window retention [] = [] := by
  unfold window
  split <;> rfl

theorem window_concat (hret : retention ≠ 0) : window retention (l ++ [last])
    = (l ++ [last]).filter fun s => windowStart retention last ≤ s.timestamp := by
  rw [window, if_neg hret, getLast?_concat]

theorem windowStart_le (hlast : ValidTs last.timestamp) : windowStart retention last ≤ last.timestamp := by
  rw [windowStart]
  have := hlast.1
  omega

theorem window_eq_concat (retention : Retention) (h : ValidTs last.timestamp) :
    ∃ l', window retention (l ++ [last]) = l' ++ [last] ∧ l'.Sublist l := by
  by_cases hret : retention = 0
  · exact ⟨l, by rw [window, if_pos hret], List.Sublist.refl _⟩
  · rw [window_concat hret, filter_append, filter_cons_of_pos (by simpa using windowStart_le h), filter_nil]
    exact ⟨_, rfl, filter_sublist⟩

theorem getLast?_window (retention : Retention) (h : ValidTimes l) : (window retention l).getLast? = l.getLast? := by
  rcases eq_nil_or_concat l with rfl | ⟨l, last, rfl⟩
  · rw [window_nil]
  · rw [concat_eq_append] at h ⊢
    obtain ⟨l', hl', -⟩ := window_eq_concat retention (l := l) (h last (by simp))
    rw [hl', getLast?_concat, getLast?_concat]

theorem window_sublist : (window retention l).Sublist l := by
  unfold window
  split
  · exact List.Sublist.refl _
  · split
    · exact nil_sublist _
    · exact filter_sublist

theorem window_filter_le {k : Int} (hl : l.getLast? = some last) (hk : k ≤ windowStart retention last)
    (hlast : ValidTs last.timestamp) (hret : retention ≠ 0) :
    window retention (l.filter fun s => k ≤ s.timestamp) = window retention l := by
  obtain ⟨l', rfl⟩ : ∃ l', l = l' ++ [last] := by
    rcases eq_nil_or_concat l with rfl | ⟨l', x, rfl⟩
    · cases hl
    · rw [concat_eq_append, getLast?_concat] at hl
      exact ⟨l', by rw [concat_eq_append, Option.some.inj hl]⟩
  have hmem : k ≤ last.timestamp := hk.trans (windowStart_le hlast)
  have hcat : ((l' ++ [last]).filter fun s => decide (k ≤ s.timestamp))
      = (l'.filter fun s => decide (k ≤ s.timestamp)) ++ [last] := by
    rw [filter_append, filter_cons_of_pos (by simpa using hmem), filter_nil]
  rw [hcat, window_concat hret, window_concat hret, ← hcat, filter_filter]
  refine filter_congr fun s _ => ?_
  rw [← Bool.decide_and, decide_eq_decide]
  omega

/-- What is left of a window is in its own window: the window only moves back when
samples are removed. -/
theorem window_eq_self_of_sublist {l' : List Sample} (h : SampleRun l)
    (hsub : l'.Sublist (window retention l)) : window retention l' = l' := by
  by_cases hret : retention = 0
  · rw [window, if_pos hret]
  rcases eq_nil_or_concat l with rfl | ⟨l, last, rfl⟩
  · rw [window_nil] at hsub
    rw [sublist_nil.mp hsub, window_nil]
  rcases eq_nil_or_concat l' with rfl | ⟨l', last', rfl⟩
  · rw [window_nil]
  rw [concat_eq_append] at h hsub ⊢
  rw [concat_eq_append, window_concat hret] at hsub
  rw [window_concat hret]
  refine filter_eq_self.mpr fun x hx => decide_eq_true ?_
  have hle : last'.timestamp ≤ last.timestamp :=
    h.le_last (mem_filter.mp (hsub.subset (by simp))).1
  have hx' : windowStart retention last ≤ x.timestamp := by
    simpa using (mem_filter.mp (hsub.subset hx)).2
  rw [windowStart] at hx' ⊢
  omega

end Window

namespace TimeSeries

/-! ### The invariant -/

/-- The same settings: what an operation on samples does not change. -/
structure SameSettings (s s' : TimeSeries) : Prop where
  retention : s'.retention = s.retention
  sampleDuplicates : s'.sampleDuplicates = s.sampleDuplicates
  chunkEncoding : s'.chunkEncoding = s.chunkEncoding
  rounding : s'.rounding = s.rounding
  chunkSizeBytes : s'.chunkSizeBytes = s.chunkSizeBytes

theorem SameSettings.refl (s : TimeSeries) : SameSettings s s := ⟨rfl, rfl, rfl, rfl, rfl⟩

theorem SameSettings.trans {s s' s'' : TimeSeries} (h : SameSettings s s') (h' : SameSettings s' s'') :
    SameSettings s s'' :=
  ⟨h'.retention.trans h.retention, h'.sampleDuplicates.trans h.sampleDuplicates,
    h'.chunkEncoding.trans h.chunkEncoding, h'.rounding.trans h.rounding,
    h'.chunkSizeBytes.trans h.chunkSizeBytes⟩

variable [DecimalHelpers]

def samples (s : TimeSeries) : List Sample := stored s.chunks

def visible (s : TimeSeries) : List Sample :=
  s.samples.filter fun x => s.getMinTimestamp ≤ x.timestamp

structure WF (s : TimeSeries) : Prop where
  chunks : ChunksOk s.chunks
  encoding : ∀ c ∈ s.chunks, c.getEncoding = s.chunkEncoding
  minSize : minChunkSize ≤ s.chunkSizeBytes
  total : s.totalSamples = s.samples.length
  first : s.firstTimestamp = headTs s.samples
  last : s.lastSample = s.samples.getLast?

/-- A well-formed series of the same settings that stores the list. -/
structure Becomes (s s' : TimeSeries) (l : List Sample) : Prop where
  wf : s'.WF
  samples_eq : s'.samples = l
  settings : SameSettings s s'

variable {s : TimeSeries}

theorem WF.run (h : s.WF) : SampleRun s.samples := h.chunks.run

theorem WF.becomes (h : s.WF) : Becomes s s s.samples := ⟨h, rfl, .refl s⟩

theorem Becomes.trans {s' s'' : TimeSeries} {l l' : List Sample} (h : Becomes s s' l)
    (h' : Becomes s' s'' l') : Becomes s s'' l' := ⟨h'.wf, h'.samples_eq, h.settings.trans h'.settings⟩

theorem WF.isEmpty_eq (h : s.WF) : s.isEmpty = decide (s.samples = []) := by
  rw [isEmpty, h.total, decide_eq_decide]
  exact length_eq_zero_iff

theorem WF.chunks_eq_nil (h : s.WF) (hs : s.samples = []) : s.chunks = [] := by
  rcases hc : s.chunks with - | ⟨c, cs⟩
  · rfl
  · have hmem : c ∈ s.chunks := hc ▸ mem_cons_self
    have hnil : c.samples = [] := by
      rw [samples, hc, stored_cons] at hs
      exact (append_eq_nil_iff.mp hs).1
    exact absurd hnil (h.chunks.nonempty c hmem)

theorem WF.getMinTimestamp_concat (h : s.WF) (hret : s.retention ≠ 0) {l : List Sample} {last : Sample}
    (hl : s.samples = l ++ [last]) : s.getMinTimestamp = windowStart s.retention last := by
  have hts : ValidTs last.timestamp := h.run.times last (by rw [hl]; simp)
  obtain ⟨hlo, hhi⟩ := hts
  rw [getMinTimestamp, if_neg hret, h.last, hl, getLast?_concat]
  dsimp only
  rw [windowStart, saturatingSub]
  rw [i64Min]
  omega

theorem WF.visible_eq (h : s.WF) : s.visible = window s.retention s.samples := by
  unfold visible
  by_cases hret : s.retention = 0
  · rw [window, if_pos hret, getMinTimestamp, if_pos hret, h.first]
    exact filter_eq_self.mpr fun x hx => decide_eq_true (h.run.headTs_le hx)
  · rcases eq_nil_or_concat s.samples with hnil | ⟨l, last, hl⟩
    · rw [hnil, window_nil]
      rfl
    · rw [concat_eq_append] at hl
      rw [h.getMinTimestamp_concat hret hl, hl, window_concat hret]

theorem Becomes.visible_eq {s' : TimeSeries} {l : List Sample} (h : Becomes s s' l) :
    s'.visible = window s.retention l := by
  rw [h.wf.visible_eq, h.samples_eq, h.settings.retention]

theorem visible_sublist : s.visible.Sublist s.samples := filter_sublist

/-! ### The cached fields -/

end TimeSeries

variable [DecimalHelpers] {cs : List TimeSeriesChunk}

theorem headTs_stored (h : ChunksOk cs) : (cs.head?.map (·.firstTimestamp)).getD 0 = headTs (stored cs) := by
  cases cs with
  | nil => rfl
  | cons c cs =>
    have hc := h.ok c mem_cons_self
    have hne := h.nonempty c mem_cons_self
    change c.firstTimestamp = headTs (c.samples ++ stored cs)
    rw [hc.firstTimestamp_eq]
    cases hl : c.samples with
    | nil => exact absurd hl hne
    | cons x l => rfl

theorem getLast?_stored (h : ChunksOk cs) : cs.getLast?.bind (·.lastSample) = (stored cs).getLast? := by
  rcases eq_nil_or_concat cs with rfl | ⟨cs, c, rfl⟩
  · rfl
  · rw [concat_eq_append] at h ⊢
    have hmem : c ∈ cs ++ [c] := mem_append_right _ mem_cons_self
    rw [getLast?_concat, Option.bind_some, (h.ok c hmem).lastSample_eq, stored_append, stored_cons,
      stored_nil, append_nil, getLast?_append_of_ne_nil _ (h.nonempty c hmem)]

theorem sum_len (h : ∀ c ∈ cs, c.Ok) : (cs.map (·.len)).sum = (stored cs).length := by
  induction cs with
  | nil => rfl
  | cons c cs ih =>
    rw [map_cons, sum_cons, stored_cons, length_append, (h c mem_cons_self).len_eq, ih fun d hd =>
      h d (mem_cons_of_mem _ hd)]

/-- A chunk in the middle is replaced by one that holds another list. -/
theorem ChunksOk.replace {cs₁ cs₂ : List TimeSeriesChunk} {c c' : TimeSeriesChunk} {l : List Sample}
    (h : ChunksOk (cs₁ ++ c :: cs₂)) (hc' : c.Becomes c' l) (hne : l ≠ [])
    (hrun : SampleRun (stored cs₁ ++ (l ++ stored cs₂))) :
    ChunksOk (cs₁ ++ c' :: cs₂) ∧ stored (cs₁ ++ c' :: cs₂) = stored cs₁ ++ (l ++ stored cs₂) := by
  have hstored : stored (cs₁ ++ c' :: cs₂) = stored cs₁ ++ (l ++ stored cs₂) := by
    rw [stored_append, stored_cons, hc'.samples_eq]
  refine ⟨⟨forall_mem_replace h.ok hc'.ok, forall_mem_replace h.nonempty ?_, hstored ▸ hrun⟩, hstored⟩
  rwa [hc'.samples_eq]

theorem ChunksOk.replace_head {c c' : TimeSeriesChunk} {l : List Sample} (h : ChunksOk (c :: cs))
    (hc' : c.Becomes c' l) (hne : l ≠ []) (hrun : SampleRun (l ++ stored cs)) :
    ChunksOk (c' :: cs) ∧ stored (c' :: cs) = l ++ stored cs := by
  rw [← nil_append (c :: cs)] at h
  exact h.replace hc' hne hrun

namespace TimeSeries

variable {s : TimeSeries}

/-- Recomputing the ends makes a series with good chunks and count well formed. -/
theorem wf_updateFirstLast (hchunks : ChunksOk s.chunks)
    (henc : ∀ c ∈ s.chunks, c.getEncoding = s.chunkEncoding) (hmin : minChunkSize ≤ s.chunkSizeBytes)
    (htotal : s.totalSamples = s.samples.length) : Becomes s s.updateFirstLastTimestamps s.samples :=
  ⟨⟨hchunks, henc, hmin, htotal, headTs_stored hchunks, getLast?_stored hchunks⟩, rfl, ⟨rfl, rfl, rfl, rfl, rfl⟩⟩

/-! ### Appending -/

omit [DecimalHelpers] in
theorem headTs_concat (l : List Sample) (x : Sample) :
    headTs (l ++ [x]) = if l.length = 0 then x.timestamp else headTs l := by
  cases l with
  | nil => rfl
  | cons y l => rfl

variable {sample : Sample}

theorem WF.recordAppended (h : s.WF) {chunks : List TimeSeriesChunk}
    (hchunks : ChunksOk chunks) (henc : ∀ c ∈ chunks, c.getEncoding = s.chunkEncoding)
    (hstored : stored chunks = s.samples ++ [sample]) :
    Becomes s (recordAppendedSample { s with chunks } sample) (s.samples ++ [sample]) := by
  refine ⟨⟨hchunks, henc, h.minSize, ?_, ?_, ?_⟩, hstored, ⟨rfl, rfl, rfl, rfl, rfl⟩⟩
  · change s.totalSamples + 1 = (stored chunks).length
    rw [hstored, length_append, length_singleton, h.total]
  · change (if s.totalSamples = 0 then sample.timestamp else s.firstTimestamp) = headTs (stored chunks)
    rw [hstored, headTs_concat, h.total, h.first]
  · change some sample = (stored chunks).getLast?
    rw [hstored, getLast?_concat]

theorem WF.createChunk_ok (h : s.WF) : s.createChunk.Ok := new_ok _ h.minSize

theorem WF.newChunk (h : s.WF) (hts : ValidTs sample.timestamp) :
    ∃ c, s.createChunk.addSample sample = .ok c ∧ c.Ok ∧ c.samples = [sample] ∧ c.getEncoding = s.chunkEncoding := by
  have hsamples : s.createChunk.samples = [] := samples_new ..
  have hone : SampleRun [sample] :=
    ⟨fun x hx => by rwa [mem_singleton.mp hx], pairwise_singleton ..⟩
  obtain ⟨c, hc, hbecomes⟩ := h.createChunk_ok.addSample_spec (new_isFull _ h.minSize)
    (s := sample) (by rw [hsamples]; exact hone)
  refine ⟨c, hc, hbecomes.ok, by rw [hbecomes.samples_eq, hsamples]; rfl, ?_⟩
  rw [hbecomes.encoding_eq]
  exact getEncoding_new ..

/-- Where an appended sample goes: into a chunk of its own, or to the end of the last one. -/
inductive Appended (s : TimeSeries) (sample : Sample) : List TimeSeriesChunk → Prop
  | fresh {c : TimeSeriesChunk} (hok : c.Ok) (hsamples : c.samples = [sample])
      (henc : c.getEncoding = s.chunkEncoding) : Appended s sample (s.chunks ++ [c])
  | last {cs : List TimeSeriesChunk} {c c' : TimeSeriesChunk} (hcs : s.chunks = cs ++ [c]) (hfull : c.isFull = false)
      (hc' : TimeSeriesChunk.Becomes c c' (c.samples ++ [sample])) : Appended s sample (cs ++ [c'])

theorem WF.addSampleInternal_appended (h : s.WF) (hrun : SampleRun (s.samples ++ [sample])) :
    ∃ chunks, Appended s sample chunks
    ∧ s.addSampleInternal sample = (.ok sample, recordAppendedSample { s with chunks } sample) := by
  obtain ⟨new, hnew, hok, hnewSamples, henc⟩ := h.newChunk (hrun.times sample (by simp))
  unfold addSampleInternal
  dsimp only
  rcases eq_nil_or_concat s.chunks with hnil | ⟨cs, c, hcs⟩
  · -- the first sample of the series
    have hens : s.ensureChunk = { s with chunks := [s.createChunk] } := by
      rw [ensureChunk, hnil]
      rfl
    have hlast : getLastChunk { s with chunks := [s.createChunk] } = s.createChunk := rfl
    have hfull : s.createChunk.isFull = false := new_isFull _ h.minSize
    rw [hens, hlast, hfull, if_neg Bool.false_ne_true, hnew]
    refine ⟨_, .fresh hok hnewSamples henc, ?_⟩
    rw [hnil]
    rfl
  · rw [concat_eq_append] at hcs
    have hens : s.ensureChunk = s := by
      rw [ensureChunk, hcs, if_neg (by simp)]
    have hlast : s.getLastChunk = c := by
      rw [getLastChunk, hcs]
      simp
    rw [hens, hlast]
    cases hfull : c.isFull with
    | true =>
      refine ⟨_, .fresh hok hnewSamples henc, ?_⟩
      rw [if_pos rfl, handleFullChunk, addChunkWithSample, hnew]
      rfl
    | false =>
      rw [samples, hcs, stored_append, stored_cons, stored_nil, append_nil, append_assoc] at hrun
      obtain ⟨c', hc', hbecomes⟩ := (h.chunks.ok c (by rw [hcs]; simp)).addSample_spec hfull
        (sampleRun_append.mp hrun).2.1
      refine ⟨_, .last hcs hfull hbecomes, ?_⟩
      rw [if_neg Bool.false_ne_true, hc', hcs]
      rw [dropLast_concat]

/-- A sample later than all others is appended, to the last chunk or a new one. -/
theorem WF.addSampleInternal_spec (h : s.WF) (hrun : SampleRun (s.samples ++ [sample])) :
    ∃ s', s.addSampleInternal sample = (.ok sample, s') ∧ Becomes s s' (s.samples ++ [sample]) := by
  obtain ⟨chunks, happended, heq⟩ := h.addSampleInternal_appended hrun
  refine ⟨_, heq, ?_⟩
  cases happended with
  | fresh hok hsamples henc =>
    have hchunks := chunksOk_append.mpr ⟨h.chunks, chunksOk_singleton hok (by rw [hsamples]; simp), ?_⟩
    · refine h.recordAppended hchunks (fun d hd => ?_) ?_
      · rcases mem_append.mp hd with hd | hd
        · exact h.encoding d hd
        · rwa [mem_singleton.mp hd]
      · rw [stored_append, stored_cons, stored_nil, append_nil, hsamples]
        rfl
    · rw [stored_cons, stored_nil, append_nil, hsamples]
      exact (sampleRun_append.mp hrun).2.2
  | last hcs hfull hbecomes =>
    rename_i cs c c'
    have hsamples : s.samples = stored cs ++ c.samples := by
      rw [samples, hcs, stored_append, stored_cons, stored_nil, append_nil]
    have hrun' := hrun
    rw [hsamples, append_assoc] at hrun'
    have hchunks := h.chunks
    have henc := h.encoding
    rw [hcs] at hchunks henc
    obtain ⟨hok, hstored⟩ := hchunks.replace hbecomes (by simp) (by rw [stored_nil, append_nil]; exact hrun')
    refine h.recordAppended hok (fun d hd => ?_) ?_
    · rcases mem_append.mp hd with hd | hd
      · exact henc d (mem_append_left _ hd)
      · rw [mem_singleton.mp hd, hbecomes.encoding_eq]
        exact henc c (by simp)
    · rw [hstored, hsamples, stored_nil, append_nil, append_assoc]

/-! ### Trimming -/

/-- What a trim leaves: a suffix of the stored samples that has all visible ones,
and nothing else if it is exact. -/
structure Trimmed (s : TimeSeries) (exact : Bool) (count : Nat) (s' : TimeSeries) : Prop where
  becomes : ∃ l, s.samples = l ++ s'.samples ∧ Becomes s s' s'.samples ∧ count = l.length
    ∧ ∀ x ∈ l, x.timestamp < s.getMinTimestamp
  exact : exact = true ∨ s.chunkEncoding = .uncompressed → s'.samples = s.visible

/-- A series with expired samples has a chunk that reaches the window: the chunks
before it are expired, and what is visible starts in it. -/
theorem WF.boundary (h : s.WF) (hmin : s.firstTimestamp < s.getMinTimestamp) :
    ∃ cs₁ c cs₂, s.chunks = cs₁ ++ c :: cs₂ ∧ (∀ d ∈ cs₁, d.lastTimestamp < s.getMinTimestamp)
    ∧ s.getMinTimestamp ≤ c.lastTimestamp ∧ (∀ d ∈ cs₂, s.getMinTimestamp < d.firstTimestamp) := by
  have hret : s.retention ≠ 0 := by
    intro hret
    rw [getMinTimestamp, if_pos hret] at hmin
    exact absurd hmin (lt_irrefl _)
  obtain ⟨l, last, hl⟩ : ∃ l last, s.samples = l ++ [last] := by
    rcases eq_nil_or_concat s.samples with hnil | ⟨l, last, hl⟩
    · rw [h.first, getMinTimestamp, if_neg hret, h.last, hnil] at hmin
      exact absurd hmin (lt_irrefl _)
    · exact ⟨l, last, by rw [hl, concat_eq_append]⟩
  have hlast : s.getMinTimestamp ≤ last.timestamp := by
    rw [h.getMinTimestamp_concat hret hl]
    exact windowStart_le (h.run.times last (by rw [hl]; simp))
  have hmem : last ∈ stored s.chunks := by
    rw [show stored s.chunks = l ++ [last] from hl]
    simp
  have hok := h.chunks.ok
  have haround := h.chunks.around s.getMinTimestamp
  have hfl : ∀ d ∈ s.chunks, d.firstTimestamp ≤ d.lastTimestamp := fun d hd => h.chunks.first_le_last hd
  generalize s.chunks = cs at *
  cases haround with
  | inside h₁ hfirst hc h₂ => exact ⟨_, _, _, rfl, h₁, hc, h₂⟩
  | gap h₁ h₂ =>
    rename_i cs₁ cs₂
    cases cs₂ with
    | nil =>
      rw [append_nil] at hmem hok
      have := stored_lt hok h₁ last hmem
      omega
    | cons c cs₂ =>
      have := h₂ c mem_cons_self
      have := hfl c (by simp)
      exact ⟨cs₁, c, cs₂, rfl, h₁, by omega, fun d hd => h₂ d (mem_cons_of_mem _ hd)⟩

/-- The chunks left by a trim, and the samples dropped with it. -/
theorem WF.trimChunks (h : s.WF) (force : Bool) (hmin : s.firstTimestamp < s.getMinTimestamp) :
    ∃ l cs count₁ s₁ count₂, s.removeExpiredChunks s.getMinTimestamp = (count₁, s₁)
    ∧ s₁.trimHead force s.getMinTimestamp = .ok (count₂, { s with chunks := cs })
    ∧ s.samples = l ++ stored cs ∧ count₁ + count₂ = l.length ∧ (∀ x ∈ l, x.timestamp < s.getMinTimestamp)
    ∧ ChunksOk cs ∧ (∀ c ∈ cs, c.getEncoding = s.chunkEncoding)
    ∧ (force = true ∨ s.chunkEncoding = .uncompressed → stored cs = s.visible) := by
  obtain ⟨cs₁, c, cs₂, hcs, h₁, hc, h₂⟩ := h.boundary hmin
  have hchunks := h.chunks
  have henc := h.encoding
  rw [hcs] at hchunks henc
  obtain ⟨hok₁, hok₂, hlt⟩ := chunksOk_append.mp hchunks
  have hcok : c.Ok := hok₂.ok c mem_cons_self
  have henc₂ : ∀ d ∈ c :: cs₂, d.getEncoding = s.chunkEncoding := fun d hd =>
    henc d (mem_append_right _ hd)
  generalize hk : s.getMinTimestamp = k at *
  have hlow : ∀ x ∈ stored cs₁, x.timestamp < k := stored_lt hok₁.ok h₁
  have hhigh : ∀ x ∈ stored cs₂, k < x.timestamp := lt_stored hok₂.tail.ok h₂
  have hsamples : s.samples = stored cs₁ ++ (c.samples ++ stored cs₂) := by
    rw [samples, hcs, stored_append, stored_cons]
  have hvis : s.visible = (c.samples.filter fun x => k ≤ x.timestamp) ++ stored cs₂ := by
    have hnone : ((stored cs₁).filter fun x => decide (k ≤ x.timestamp)) = [] :=
      filter_eq_nil_iff.mpr fun x hx => by simpa using hlow x hx
    have hall : ((stored cs₂).filter fun x => decide (k ≤ x.timestamp)) = stored cs₂ :=
      filter_eq_self.mpr fun x hx => by simpa using (hhigh x hx).le
    rw [visible, hsamples, hk, filter_append, filter_append, hnone, hall, nil_append]
  have hexp : s.removeExpiredChunks k = ((stored cs₁).length, { s with chunks := c :: cs₂ }) := by
    have hge : ∀ d ∈ c :: cs₂, decide (d.lastTimestamp < k) = false := by
      intro d hd
      rcases mem_cons.mp hd with rfl | hd
      · exact decide_eq_false (by omega)
      · have := h₂ d hd
        have := hok₂.tail.first_le_last hd
        exact decide_eq_false (by omega)
    obtain ⟨htake, -⟩ := SortedList.takeWhile_dropWhile_append
      (p := fun d : TimeSeriesChunk => decide (d.lastTimestamp < k))
      (fun d hd => decide_eq_true (h₁ d hd)) hge
    rw [removeExpiredChunks, hcs, htake, take_left, drop_left, sum_len hok₁.ok]
    split
    · rename_i hzero
      obtain rfl := length_eq_zero_iff.mp hzero
      rw [← show s.chunks = c :: cs₂ from hcs]
      rfl
    · rfl
  rw [hexp]
  by_cases hdue : c.firstTimestamp < k ∧ (force ∨ headTrimDue c k)
  · -- the head chunk loses what is expired
    obtain ⟨c', hc', hbecomes⟩ := hcok.removeRange_spec 0 (k - 1)
    rw [samplesOut_eq_filter hcok.run.times] at hc' hbecomes
    have hsplit := hcok.run.increasing.sorted.split k
    have hne : (c.samples.filter fun x => decide (k ≤ x.timestamp)) ≠ [] := by
      obtain ⟨x, hx, hxt⟩ := hcok.last_mem (hok₂.nonempty c mem_cons_self)
      exact ne_nil_of_mem (mem_filter.mpr ⟨hx, decide_eq_true (by omega)⟩)
    obtain ⟨hok', hstored⟩ := hok₂.replace_head hbecomes hne
      (hok₂.run.sublist (filter_sublist.append_right _))
    have htrim : trimHead { s with chunks := c :: cs₂ } force k
        = .ok (c.samples.length - (c.samples.filter fun x => k ≤ x.timestamp).length,
          { s with chunks := c' :: cs₂ }) := by
      unfold trimHead
      dsimp only
      rw [if_pos hdue, hc']
    refine ⟨stored cs₁ ++ c.samples.filter (fun x => x.timestamp < k), c' :: cs₂, _, _, _, rfl, htrim, ?_, ?_, ?_,
      hok', ?_, fun _ => ?_⟩
    · rw [hsamples, hstored, append_assoc, ← append_assoc (c.samples.filter _), ← hsplit]
    · rw [length_append]
      have := congrArg List.length hsplit
      rw [length_append] at this
      omega
    · intro x hx
      rcases mem_append.mp hx with hx | hx
      · exact hlow x hx
      · simpa using (mem_filter.mp hx).2
    · intro d hd
      rcases mem_cons.mp hd with rfl | hd
      · rw [hbecomes.encoding_eq]
        exact henc₂ c mem_cons_self
      · exact henc₂ d (mem_cons_of_mem _ hd)
    · rw [hvis]
      exact hstored
  · refine ⟨stored cs₁, c :: cs₂, _, _, 0, rfl, ?_, hsamples, by simp, hlow, hok₂, henc₂, fun hforce => ?_⟩
    · unfold trimHead
      dsimp only
      rw [if_neg hdue]
    · -- an exact trim leaves the head chunk alone only if nothing in it is expired
      have hfirst : k ≤ c.firstTimestamp := by
        by_contra hlt'
        refine hdue ⟨by omega, ?_⟩
        rcases hforce with hforce | hunc
        · exact .inl hforce
        · right
          rw [headTrimDue, TimeSeriesChunk.isCompressed, henc₂ c mem_cons_self, hunc]
          rfl
      rw [hvis, filter_eq_self.mpr fun x hx => decide_eq_true (hfirst.trans (hcok.bounds hx).1)]
      rfl

theorem WF.trimExpired_spec (h : s.WF) (force : Bool) :
    ∃ count s', s.trimExpired force = .ok (count, s') ∧ Trimmed s force count s' := by
  unfold trimExpired
  dsimp only
  split
  · refine ⟨0, s, rfl, ⟨[], rfl, h.becomes, rfl, by simp⟩, fun _ => ?_⟩
    refine (filter_eq_self.mpr fun x hx => decide_eq_true ?_).symm
    have := h.run.headTs_le hx
    rw [← h.first] at this
    omega
  · obtain ⟨l, cs, count₁, s₁, count₂, h₁, h₂, hl, hcount, hlt, hok, henc, hexact⟩ :=
      h.trimChunks force (by omega)
    rw [h₁]
    rw [h₂]
    have htotal : s.totalSamples - (count₁ + count₂) = (stored cs).length := by
      rw [h.total, hl, length_append, hcount]
      omega
    have hwf := wf_updateFirstLast (s := { s with chunks := cs, totalSamples := s.totalSamples - (count₁ + count₂) })
      hok henc h.minSize htotal
    refine ⟨_, _, rfl, ⟨l, ?_, ?_, hcount, hlt⟩, ?_⟩
    · split <;> exact hl
    · split
      · exact ⟨hwf.wf, rfl, ⟨rfl, rfl, rfl, rfl, rfl⟩⟩
      · -- nothing was dropped
        obtain rfl : l = [] := length_eq_zero_iff.mp (by omega)
        refine ⟨⟨hok, henc, h.minSize, htotal, ?_, ?_⟩, rfl, ⟨rfl, rfl, rfl, rfl, rfl⟩⟩
        · exact h.first.trans (congrArg headTs hl)
        · exact h.last.trans (congrArg List.getLast? hl)
    · split <;> exact hexact

theorem WF.getMinTimestamp_le_last (h : s.WF) {l : List Sample} {last : Sample}
    (hl : s.samples = l ++ [last]) : s.getMinTimestamp ≤ last.timestamp := by
  have hmem : last ∈ s.samples := by rw [hl]; simp
  by_cases hret : s.retention = 0
  · rw [getMinTimestamp, if_pos hret, h.first]
    exact h.run.headTs_le hmem
  · rw [h.getMinTimestamp_concat hret hl]
    exact windowStart_le (h.run.times last hmem)

section Trim

variable {s' : TimeSeries} {exact : Bool} {count : Nat}

theorem Trimmed.lastSample_eq (h : s.WF) (ht : Trimmed s exact count s') : s'.lastSample = s.lastSample := by
  obtain ⟨l, hl, hbecomes, -, hlt⟩ := ht.becomes
  rw [hbecomes.wf.last, h.last]
  rcases eq_nil_or_concat s'.samples with hnil | ⟨m, last, hm⟩
  · rcases eq_nil_or_concat l with rfl | ⟨m, last, rfl⟩
    · rw [hl, nil_append]
    · -- the newest sample is not expired
      rw [hnil, append_nil, concat_eq_append] at hl
      have hmin := h.getMinTimestamp_le_last hl
      have := hlt last (by simp)
      omega
  · rw [hl, getLast?_append_of_ne_nil _ (by rw [hm]; simp)]

theorem Trimmed.visible_eq (h : s.WF) (ht : Trimmed s exact count s') : s'.visible = s.visible := by
  have hlast := ht.lastSample_eq h
  obtain ⟨l, hl, hbecomes, -, hlt⟩ := ht.becomes
  by_cases hret : s.retention = 0
  · -- without retention nothing is expired
    have hnil : l = [] := eq_nil_iff_forall_not_mem.mpr fun x hx => by
      have := hlt x hx
      have := h.run.headTs_le (s := x) (by rw [hl]; exact mem_append_left _ hx)
      rw [getMinTimestamp, if_pos hret, h.first] at *
      omega
    rw [hnil, nil_append] at hl
    rw [hbecomes.visible_eq, h.visible_eq, hl]
  · have hmin : s'.getMinTimestamp = s.getMinTimestamp := by
      rw [getMinTimestamp, getMinTimestamp, hbecomes.settings.retention, if_neg hret, if_neg hret, hlast]
    have hnone : (l.filter fun x => decide (s.getMinTimestamp ≤ x.timestamp)) = [] :=
      filter_eq_nil_iff.mpr fun x hx => by simpa using hlt x hx
    rw [visible, visible, hmin, hl, filter_append, hnone, nil_append]

theorem WF.applyRetention_spec (h : s.WF) : ∃ count, Trimmed s false count s.applyRetention := by
  unfold applyRetention
  split
  · rename_i hret
    refine ⟨0, ⟨[], rfl, h.becomes, rfl, by simp⟩, fun _ => ?_⟩
    rw [h.visible_eq, window, if_pos hret]
  · obtain ⟨count, s', hs', ht⟩ := h.trimExpired_spec false
    rw [trimLazily, hs']
    exact ⟨count, ht⟩

end Trim

end TimeSeries

end ValkeyTimeSeries
