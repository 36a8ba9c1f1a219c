/-
Series/Delete.lean

Deleting a range of samples.

Design.  `get_chunk_index_bounds` answers a slice of chunks outside which nothing lies in the range.  A
deletion trims exactly first, so what is left of an untrimmed prefix cannot come back when the window moves
with the newest sample.
-/
import ValkeyTimeSeries.Series.WellFormed

namespace ValkeyTimeSeries

open List

namespace TimeSeries

variable [DecimalHelpers] {s : TimeSeries}

/-! ### The chunks of a range -/

/-- The bounds of a range: the chunks before them end before it, the chunks
after them start after it. -/
theorem WF.getChunkIndexBounds_spec (h : s.WF) (start endTs : Int) :
    (s.getChunkIndexBounds start endTs = none ∧ samplesIn start endTs s.samples = [])
    ∨ ∃ cs₁ cs cs₂ endIdx, s.chunks = cs₁ ++ (cs ++ cs₂)
    ∧ s.getChunkIndexBounds start endTs = some (cs₁.length, endIdx) ∧ endIdx + 1 = cs₁.length + cs.length
    ∧ (∀ d ∈ cs₁, d.lastTimestamp < start) ∧ ∀ d ∈ cs₂, endTs < d.firstTimestamp := by
  unfold getChunkIndexBounds
  split
  · rename_i hout
    refine .inl ⟨rfl, samplesIn_eq_nil fun x hx => ?_⟩
    rw [h.isEmpty_eq, decide_eq_true_eq] at hout
    rcases hout with hnil | hgt
    · rw [hnil] at hx
      exact absurd hx not_mem_nil
    · omega
  · obtain ⟨cs₁, cs', hcs, h₁, h₂⟩ := h.chunks.spans.cut start
    have hchunks := h.chunks
    rw [hcs] at hchunks
    obtain ⟨hok₁, hok', -⟩ := chunksOk_append.mp hchunks
    have hlow := stored_lt hok₁.ok h₁
    have hsamples : s.samples = stored cs₁ ++ stored cs' := by rw [samples, hcs, stored_append]
    dsimp only
    rw [hcs, findStartChunkIndex_eq hchunks.spans h₁ h₂, drop_left, length_append]
    rcases eq_or_ne cs' [] with rfl | hne
    · -- every chunk ends before the range
      rw [length_nil, if_pos (by omega)]
      refine .inl ⟨rfl, samplesIn_eq_nil fun x hx => .inl (hlow x ?_)⟩
      rwa [hsamples, stored_nil, append_nil] at hx
    · have hlen := length_pos_iff.mpr hne
      obtain ⟨r₁, r₂, hr, hidx, hlater⟩ := findLastGeIndex_spec hok'.spans hne endTs
      have hend : min (cs₁.length + (findLastGeIndex cs' endTs).1) (cs₁.length + cs'.length - 1) + 1
          = cs₁.length + r₁.length := by omega
      rw [if_neg (by omega)]
      split
      · -- the one chunk that reaches the range starts after it
        rename_i hone
        obtain ⟨heq, hfirst⟩ := hone
        obtain ⟨c, rfl⟩ : ∃ c, r₁ = [c] := length_eq_one_iff.mp (by omega)
        rw [hr, getElem?_append_right (Nat.le_refl _), Nat.sub_self] at hfirst
        have hc : endTs < c.firstTimestamp := by simpa using hfirst
        have hhigh : ∀ x ∈ stored cs', endTs < x.timestamp := by
          refine lt_stored hok'.ok fun d hd => ?_
          rw [hr] at hd
          rcases mem_cons.mp hd with rfl | hd
          · exact hc
          · exact hlater d hd
        refine .inl ⟨rfl, samplesIn_eq_nil fun x hx => ?_⟩
        rw [hsamples] at hx
        rcases mem_append.mp hx with hx | hx
        · exact .inl (hlow x hx)
        · exact .inr (hhigh x hx)
      · exact .inr ⟨cs₁, r₁, r₂, _, by rw [hr], rfl, hend, h₁, hlater⟩

/-! ### Removing -/

theorem removeInternal_spec {c : TimeSeriesChunk} (h : c.Ok) (startTs endTs : Int) :
    ∃ c', removeInternal c startTs endTs = .ok (c.samples.length - (samplesOut startTs endTs c.samples).length, c')
    ∧ c.Becomes c' (samplesOut startTs endTs c.samples) := by
  unfold removeInternal
  split
  · -- the range covers the chunk
    rename_i hin
    rw [TimeSeriesChunk.isContainedByRange, decide_eq_true_eq] at hin
    have hnone : samplesOut startTs endTs c.samples = [] := by
      refine filter_eq_nil_iff.mpr fun x hx => ?_
      have := h.bounds hx
      rw [decide_eq_true (by omega)]
      exact Bool.false_ne_true
    rw [hnone, length_nil, Nat.sub_zero, h.len_eq]
    exact ⟨_, rfl, h.clear_spec⟩
  · exact h.removeRange_spec startTs endTs

/-- **Run lemma** of the removal from a slice of chunks. -/
theorem removeFromChunks_spec {cs : List TimeSeriesChunk} (h : ∀ c ∈ cs, c.Ok) (startTs endTs : Int) :
    ∃ count cs', removeFromChunks startTs endTs cs = .ok (count, cs')
    ∧ stored cs' = samplesOut startTs endTs (stored cs) ∧ count + (stored cs').length = (stored cs).length
    ∧ ∀ c' ∈ cs', c'.Ok ∧ ∃ c ∈ cs, c'.getEncoding = c.getEncoding := by
  induction cs with
  | nil => exact ⟨0, [], rfl, rfl, rfl, by simp⟩
  | cons c cs ih =>
    obtain ⟨c', hc', hbecomes⟩ := removeInternal_spec (h c mem_cons_self) startTs endTs
    obtain ⟨count, cs', hcs', hstored, hcount, hok⟩ := ih fun d hd => h d (mem_cons_of_mem _ hd)
    refine ⟨_, c' :: cs', by rw [removeFromChunks, hc', hcs']; rfl, ?_, ?_, ?_⟩
    · rw [stored_cons, stored_cons, hbecomes.samples_eq, hstored, samplesOut_append]
    · have hle : (samplesOut startTs endTs c.samples).length ≤ c.samples.length :=
        length_filter_le ..
      rw [stored_cons, stored_cons, length_append, length_append, hbecomes.samples_eq]
      omega
    · intro d hd
      rcases mem_cons.mp hd with rfl | hd
      · exact ⟨hbecomes.ok, c, mem_cons_self, hbecomes.encoding_eq⟩
      · obtain ⟨hd', e, he, heq⟩ := hok d hd
        exact ⟨hd', e, mem_cons_of_mem _ he, heq⟩

theorem stored_filter_isEmpty {cs : List TimeSeriesChunk} (h : ∀ c ∈ cs, c.Ok) :
    stored (cs.filter fun c => !c.isEmpty) = stored cs := by
  induction cs with
  | nil => rfl
  | cons c cs ih =>
    have hc := (h c mem_cons_self).isEmpty_eq
    have hrest := ih fun d hd => h d (mem_cons_of_mem _ hd)
    by_cases hnil : c.samples = []
    · rw [filter_cons_of_neg (by rw [hc, decide_eq_true hnil]; simp), hrest, stored_cons, hnil, nil_append]
    · rw [filter_cons_of_pos (by rw [hc, decide_eq_false hnil]; rfl), stored_cons, stored_cons, hrest]

theorem WF.removeStored_spec (h : s.WF) (startTs endTs : Int) :
    ∃ count s', s.removeStored startTs endTs = .ok (count, s') ∧ Becomes s s' (samplesOut startTs endTs s.samples)
    ∧ count + (samplesOut startTs endTs s.samples).length = s.samples.length := by
  unfold removeStored
  rcases h.getChunkIndexBounds_spec startTs endTs with ⟨hnone, hin⟩ | ⟨cs₁, cs, cs₂, endIdx, hcs, hsome, hend, h₁, h₂⟩
  · have hall : samplesOut startTs endTs s.samples = s.samples :=
      samplesOut_eq_self fun x hx hx' => filter_eq_nil_iff.mp hin x hx (decide_eq_true hx')
    rw [hnone, hall]
    exact ⟨0, s, rfl, h.becomes, Nat.zero_add _⟩
  · have hchunks := h.chunks
    have henc := h.encoding
    rw [hcs] at hchunks henc
    obtain ⟨hok₁, hok', -⟩ := chunksOk_append.mp hchunks
    obtain ⟨hok, hok₂, -⟩ := chunksOk_append.mp hok'
    obtain ⟨count, cs', hcs', hstored, hcount, hnew⟩ := removeFromChunks_spec hok.ok startTs endTs
    have hslice : (s.chunks.take (endIdx + 1)).drop cs₁.length = cs := by
      rw [hcs, hend, ← append_assoc, ← length_append, take_left, drop_left]
    have htake : s.chunks.take cs₁.length = cs₁ := by rw [hcs, take_left]
    have hdrop : s.chunks.drop (endIdx + 1) = cs₂ := by
      rw [hcs, hend, ← append_assoc, ← length_append, drop_left]
    have hout : stored (cs₁ ++ cs' ++ cs₂) = samplesOut startTs endTs s.samples := by
      have hlow : samplesOut startTs endTs (stored cs₁) = stored cs₁ :=
        samplesOut_eq_self fun x hx hx' => by
          have := stored_lt hok₁.ok h₁ x hx
          omega
      have hhigh : samplesOut startTs endTs (stored cs₂) = stored cs₂ :=
        samplesOut_eq_self fun x hx hx' => by
          have := lt_stored hok₂.ok h₂ x hx
          omega
      rw [samples, hcs]
      simp only [stored_append, samplesOut_append, hlow, hhigh, hstored, append_assoc]
    have hokAll : ∀ c ∈ cs₁ ++ cs' ++ cs₂, c.Ok ∧ c.getEncoding = s.chunkEncoding := by
      intro c hc
      rcases mem_append.mp hc with hc | hc
      · rcases mem_append.mp hc with hc | hc
        · exact ⟨hok₁.ok c hc, henc c (mem_append_left _ hc)⟩
        · obtain ⟨hc', d, hd, heq⟩ := hnew c hc
          exact ⟨hc', heq.trans (henc d (mem_append_right _ (mem_append_left _ hd)))⟩
      · exact ⟨hok₂.ok c hc, henc c (mem_append_right _ (mem_append_right _ hc))⟩
    have hkeep : stored ((cs₁ ++ cs' ++ cs₂).filter fun c => !c.isEmpty)
        = samplesOut startTs endTs s.samples :=
      (stored_filter_isEmpty fun c hc => (hokAll c hc).1).trans hout
    have hlen : count + (samplesOut startTs endTs s.samples).length = s.samples.length := by
      rw [← hout, samples, hcs]
      simp only [stored_append, length_append]
      omega
    rw [hsome]
    dsimp only
    rw [hslice, hcs', htake, hdrop]
    have hwf := wf_updateFirstLast
      (s := { s with
        chunks := (cs₁ ++ cs' ++ cs₂).filter fun c => !c.isEmpty
        totalSamples := s.totalSamples - count }) ?_ ?_ h.minSize ?_
    · refine ⟨count, _, rfl, ⟨hwf.wf, hkeep, ⟨rfl, rfl, rfl, rfl, rfl⟩⟩, hlen⟩
    · refine ⟨fun c hc => (hokAll c (mem_filter.mp hc).1).1, fun c hc => ?_, ?_⟩
      · obtain ⟨hmem, hne⟩ := mem_filter.mp hc
        rw [(hokAll c hmem).1.isEmpty_eq] at hne
        simpa using hne
      · rw [hkeep]
        exact h.run.sublist filter_sublist
    · exact fun c hc => (hokAll c (mem_filter.mp hc).1).2
    · change s.totalSamples - count = (stored _).length
      rw [hkeep, h.total]
      omega

/-- **Deleting.**  The samples of the range that are visible are removed, and
nothing else: expired samples are dropped, not counted, and stay gone. -/
theorem WF.removeRange_spec (h : s.WF) (startTs endTs : Int) :
    ∃ count s', s.removeRange startTs endTs = .ok (count, s') ∧ s'.WF ∧ SameSettings s s'
    ∧ s'.visible = samplesOut startTs endTs s.visible ∧ count = (samplesIn startTs endTs s.visible).length
    ∧ (startTs ≤ endTs ∨ s.visible = s.samples → s'.visible = s'.samples) := by
  have hcount := length_samplesIn_add startTs endTs s.visible
  unfold removeRange
  split
  · -- an inverted range has no samples
    have hall : samplesOut startTs endTs s.visible = s.visible :=
      samplesOut_eq_self fun x hx hx' => by omega
    refine ⟨0, s, rfl, h, .refl s, hall.symm, ?_, fun h => h.resolve_left (by omega)⟩
    rw [samplesIn_eq_nil fun x hx => by omega]
    rfl
  split
  · rename_i hret
    obtain ⟨count, s', hs', hbecomes, hlen⟩ := h.removeStored_spec startTs endTs
    have hvis : s.visible = s.samples := by rw [h.visible_eq, window, if_pos hret]
    have hvis' : s'.visible = s'.samples := by
      rw [hbecomes.visible_eq, window, if_pos hret, hbecomes.samples_eq]
    refine ⟨count, s', hs', hbecomes.wf, hbecomes.settings, ?_, ?_, fun _ => hvis'⟩
    · rw [hvis', hbecomes.samples_eq, hvis]
    · rw [hvis] at hcount ⊢
      omega
  · obtain ⟨dropped, s₁, hs₁, ht⟩ := h.trimExpired_spec true
    have hvis₁ := ht.visible_eq h
    have hsamples₁ := ht.exact (.inl rfl)
    obtain ⟨-, -, hbecomes₁, -⟩ := ht.becomes
    have hmin : ∀ x ∈ s.visible, s₁.getMinTimestamp ≤ x.timestamp := by
      intro x hx
      rw [← hvis₁] at hx
      simpa using (mem_filter.mp hx).2
    have hsame : samplesOut (max startTs s₁.getMinTimestamp) endTs s.visible
        = samplesOut startTs endTs s.visible := by
      refine filter_congr fun x hx => ?_
      have := hmin x hx
      congr 1
      rw [decide_eq_decide]
      omega
    rw [trim, hs₁]
    change ∃ count s', (if max startTs s₁.getMinTimestamp > endTs then _ else _) = _ ∧ _
    split
    · have hnone : samplesIn startTs endTs s.visible = [] := samplesIn_eq_nil fun x hx => by
        have := hmin x hx
        omega
      have hall : samplesOut startTs endTs s.visible = s.visible :=
        samplesOut_eq_self fun x hx hx' => by
          have := hmin x hx
          omega
      refine ⟨0, s₁, rfl, hbecomes₁.wf, hbecomes₁.settings, ?_, ?_, fun _ => hvis₁.trans hsamples₁.symm⟩
      · rw [hvis₁, hall]
      · rw [hnone]
        rfl
    · obtain ⟨count, s', hs', hbecomes, hlen⟩ :=
        hbecomes₁.wf.removeStored_spec (max startTs s₁.getMinTimestamp) endTs
      rw [hsamples₁, hsame] at hbecomes hlen
      have hset := hbecomes₁.settings.trans hbecomes.settings
      have hvis : s'.visible = samplesOut startTs endTs s.visible := by
        rw [hbecomes.visible_eq, hbecomes₁.settings.retention]
        refine window_eq_self_of_sublist h.run ?_
        rw [← h.visible_eq]
        exact filter_sublist
      exact ⟨count, s', hs', hbecomes.wf, hset, hvis, by omega,
        fun _ => hvis.trans hbecomes.samples_eq.symm⟩

/-- **A deletion takes the visible samples of the range, counts them and leaves the others as
they are.**  A range that is not inverted takes the expired samples too, so that what is left
is all that is stored. -/
theorem removeRange_deletes_visible (s : TimeSeries) (h : s.WF) (startTs endTs : Int) :
    ∃ s', s.removeRange startTs endTs = .ok ((samplesIn startTs endTs s.visible).length, s')
      ∧ s'.WF ∧ s'.visible = samplesOut startTs endTs s.visible
      ∧ (startTs ≤ endTs → s'.samples = samplesOut startTs endTs s.visible) := by
  obtain ⟨count, s', hs', hwf, -, hvis, rfl, hexact⟩ := h.removeRange_spec startTs endTs
  exact ⟨s', hs', hwf, hvis, fun hle => (hexact (.inl hle)).symm.trans hvis⟩

end TimeSeries

end ValkeyTimeSeries

namespace ValkeyTimeSeries

open List

namespace TimeSeries

/-- Two chunks, with a sample in the first one that has expired. -/
def untrimmed : TimeSeries where
  retention := 100
  sampleDuplicates := ⟨none, 0, 0⟩
  chunkEncoding := .uncompressed
  rounding := none
  chunkSizeBytes := 48
  chunks := [.uncompressed ⟨48, [⟨0, 1⟩, ⟨100, 2⟩], 3⟩, .uncompressed ⟨48, [⟨150, 3⟩], 3⟩]
  totalSamples := 3
  firstTimestamp := 0
  lastSample := some ⟨150, 3⟩

theorem untrimmed_wf : letI := oneTenth; untrimmed.WF := by
  let _ := oneTenth
  have hrun : SampleRun [⟨0, 1⟩, ⟨100, 2⟩, ⟨150, 3⟩] := ⟨by decide, by decide⟩
  have h₁ : SampleRun [⟨0, 1⟩, ⟨100, 2⟩] := ⟨by decide, by decide⟩
  have h₂ : SampleRun [⟨150, 3⟩] := ⟨by decide, by decide⟩
  refine ⟨⟨fun c hc => ?_, by decide, hrun⟩, by decide, by decide, rfl, rfl, rfl⟩
  rcases mem_cons.mp hc with rfl | hc
  · exact ⟨⟨h₁, rfl⟩, by decide⟩
  · rw [mem_singleton.mp hc]
    exact ⟨⟨h₂, rfl⟩, by decide⟩

/-- The expired sample is neither counted nor kept. -/
theorem removeRange_deletes_visible_untrimmed : letI := oneTenth
    ∃ s', untrimmed.removeRange 0 120 = .ok (1, s') ∧ s'.samples = [⟨150, 3⟩] := by
  let _ := oneTenth
  obtain ⟨s', hs', -, -, hsamples⟩ := removeRange_deletes_visible untrimmed untrimmed_wf 0 120
  have hvis : untrimmed.visible = [⟨100, 2⟩, ⟨150, 3⟩] := by decide
  exact ⟨s', hs', hsamples (by decide)⟩

end TimeSeries

end ValkeyTimeSeries
