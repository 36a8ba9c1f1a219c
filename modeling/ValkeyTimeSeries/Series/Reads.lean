/-
Series/Reads.lean

Reading a range of a series: `get_range` and its relatives in `series/time_series.rs`, and
the sample iterator of `series/series_sample_iterator.rs`.

Design.  An iterator is modelled by the samples it yields, and the position of its walk
over the chunks by the chunks that are left.  Every path is compared with one list, the
samples of the range among those that are visible: the start of the range is clamped to the
retention window, and the chunks that a path skips hold no samples of the range.
-/
import ValkeyTimeSeries.Series.Delete

namespace ValkeyTimeSeries

open List

section

variable [DecimalHelpers]

def forwardChunks (start endTs : Int) : List TimeSeriesChunk → List TimeSeriesChunk
  | [] => []
  | chunk :: chunks =>
    if chunk.firstTimestamp > endTs then []
    else if chunk.lastTimestamp ≥ start ∧ ¬ chunk.isEmpty then chunk :: forwardChunks start endTs chunks
    else forwardChunks start endTs chunks

def reverseChunks (start endTs : Int) : List TimeSeriesChunk → List TimeSeriesChunk
  | [] => []
  | chunk :: chunks =>
    if chunk.lastTimestamp < start then []
    else if chunk.firstTimestamp ≤ endTs ∧ ¬ chunk.isEmpty then chunk :: reverseChunks start endTs chunks
    else reverseChunks start endTs chunks

/-- The buffer that a reverse iterator fills from a chunk, and reads from its end. -/
def fillBufferReverse (start endTs : Int) (chunk : TimeSeriesChunk) : List Sample :=
  let endTs := min chunk.lastTimestamp endTs
  let start := max chunk.firstTimestamp start
  if start > endTs then [] else chunk.rangeIter start endTs

def getRangeParallel (start endTs : Int) : List TimeSeriesChunk → Except TsdbError (List Sample)
  | [] => .ok []
  | chunk :: chunks => do
      let l ← chunk.getRange start endTs
      let rest ← getRangeParallel start endTs chunks
      pure (l ++ rest)

namespace TimeSeries

variable (s : TimeSeries)

def overlaps (startTs endTs : Int) : Bool :=
  !s.isEmpty && decide (s.lastTimestamp ≥ startTs) && decide (s.firstTimestamp ≤ endTs)

def sampleIterator (start endTs : Int) (isReverse : Bool) : List Sample :=
  if s.chunks.isEmpty ∨ start > endTs then []
  else if isReverse then
    -- a series that counts no samples is started at its first chunk
    let chunks := if s.isEmpty then s.chunks.take 1 else s.chunks.reverse
    (reverseChunks start endTs chunks).flatMap fun chunk => (fillBufferReverse start endTs chunk).reverse
  else (forwardChunks start endTs s.chunks).flatMap fun chunk => chunk.rangeIter start endTs

def rangeIter (start endTs : Int) : List Sample :=
  s.sampleIterator (max start s.getMinTimestamp) endTs false

def revRangeIter (start endTs : Int) : List Sample :=
  s.sampleIterator (max start s.getMinTimestamp) endTs true

/-- Without clamping the start to the retention window. -/
def storedRangeIter (start endTs : Int) : List Sample := s.sampleIterator start endTs false

def iter : List Sample := s.rangeIter s.firstTimestamp s.lastTimestamp

def getRange (startTime endTime : Int) : List Sample :=
  let startTime := max startTime s.getMinTimestamp
  if startTime > endTime then []
  else if !s.overlaps startTime endTime then []
  else
    match s.getChunkIndexBounds startTime endTime with
    | none => []
    | some (startIndex, endIndex) =>
      let chunks := (s.chunks.take (endIndex + 1)).drop startIndex
      let samples := (getRangeParallel startTime endTime chunks).toOption.getD []
      if chunks.length > 1 then samples.insertionSort fun a b => a.timestamp ≤ b.timestamp else samples

def hasSamplesInRange (startTime endTime : Int) : Bool :=
  if !s.overlaps startTime endTime then false
  else
    let minTimestamp := max s.getMinTimestamp startTime
    match s.getChunkIndexBounds minTimestamp endTime with
    | none => false
    | some (startIndex, endIndex) =>
      ((s.chunks.take (endIndex + 1)).drop startIndex).any fun chunk =>
        chunk.hasSamplesInRange minTimestamp endTime

def visibleFirstTimestamp : Int :=
  let minTimestamp := s.getMinTimestamp
  if s.firstTimestamp ≥ minTimestamp then s.firstTimestamp
  else ((s.rangeIter minTimestamp s.lastTimestamp).head?.map (·.timestamp)).getD s.firstTimestamp

def visibleTotalSamples : Nat :=
  let minTimestamp := s.getMinTimestamp
  if s.firstTimestamp ≥ minTimestamp then s.totalSamples
  else
    let expired := ((s.chunks.takeWhile fun chunk => chunk.firstTimestamp < minTimestamp).map fun chunk =>
      if chunk.lastTimestamp < minTimestamp then chunk.len
      else (chunk.rangeIter chunk.firstTimestamp (minTimestamp - 1)).length).sum
    s.totalSamples - expired

end TimeSeries

/-! ### What the iterators yield -/

variable {cs : List TimeSeriesChunk}

/-- **Run lemma** of the forward walk. -/
theorem flatMap_forwardChunks (h : ChunksOk cs) (start endTs : Int) :
    (forwardChunks start endTs cs).flatMap (·.rangeIter start endTs) = samplesIn start endTs (stored cs) := by
  induction cs with
  | nil => rfl
  | cons c cs ih =>
    have hc := h.ok c mem_cons_self
    rw [stored_cons, samplesIn_append, forwardChunks]
    split
    · -- the chunk and all later ones start after the range
      rename_i hgt
      have hhigh : ∀ x ∈ stored (c :: cs), endTs < x.timestamp := by
        refine lt_stored h.ok fun d hd => ?_
        rcases mem_cons.mp hd with rfl | hd
        · exact hgt
        · have := h.first_le_last mem_cons_self
          have := h.head_lt hd
          omega
      rw [← samplesIn_append, ← stored_cons, samplesIn_eq_nil fun x hx => .inr (hhigh x hx)]
      rfl
    · split
      · rw [flatMap_cons, hc.rangeIter_eq, ih h.tail]
      · -- the chunk ends before the range
        rename_i hlast
        rw [hc.isEmpty_eq, decide_eq_false (h.nonempty c mem_cons_self)] at hlast
        have hlow : samplesIn start endTs c.samples = [] := by
          refine samplesIn_eq_nil fun x hx => .inl ?_
          have := (hc.bounds hx).2
          simp only [Bool.false_eq_true, not_false_eq_true, and_true] at hlast
          omega
        rw [hlow, nil_append, ih h.tail]

theorem fillBufferReverse_eq {c : TimeSeriesChunk} (h : c.Ok) (start endTs : Int) :
    fillBufferReverse start endTs c = samplesIn start endTs c.samples := by
  have hclip : samplesIn (max c.firstTimestamp start) (min c.lastTimestamp endTs) c.samples
      = samplesIn start endTs c.samples := by
    refine filter_congr fun x hx => ?_
    have := h.bounds hx
    rw [decide_eq_decide]
    omega
  rw [fillBufferReverse]
  split
  · rw [← hclip, samplesIn_eq_nil fun x _ => by omega]
  · rw [h.rangeIter_eq, hclip]

/-- **Run lemma** of the walk back; the chunks come in reverse. -/
theorem flatMap_reverseChunks (h : ChunksOk cs.reverse) (start endTs : Int) :
    (reverseChunks start endTs cs).flatMap (fun c => (fillBufferReverse start endTs c).reverse)
    = (samplesIn start endTs (stored cs.reverse)).reverse := by
  induction cs with
  | nil => rfl
  | cons c cs ih =>
    rw [reverse_cons] at h ⊢
    obtain ⟨hcs, hone, -⟩ := chunksOk_append.mp h
    have hc := hone.ok c mem_cons_self
    rw [stored_append, stored_cons, stored_nil, append_nil, samplesIn_append, reverse_append, reverseChunks]
    split
    · -- the chunk and all earlier ones end before the range
      have hlow : ∀ x ∈ stored (cs.reverse ++ [c]), x.timestamp < start := by
        refine stored_lt h.ok fun d hd => ?_
        rcases mem_append.mp hd with hd | hd
        · have := hone.first_le_last mem_cons_self
          have := h.last_lt_first hd mem_cons_self
          omega
        · rwa [mem_singleton.mp hd]
      have hnil : ∀ {l : List Sample}, l ⊆ stored (cs.reverse ++ [c]) → samplesIn start endTs l = [] :=
        fun hl => samplesIn_eq_nil fun x hx => .inl (hlow x (hl hx))
      rw [hnil (l := c.samples) (by rw [stored_append]; simp),
        hnil (l := stored cs.reverse) (by rw [stored_append]; simp)]
      rfl
    · split
      · rw [flatMap_cons, fillBufferReverse_eq hc, ih hcs]
      · -- the chunk starts after the range
        rename_i hfirst
        rw [hc.isEmpty_eq, decide_eq_false (hone.nonempty c mem_cons_self)] at hfirst
        have hhigh : samplesIn start endTs c.samples = [] := by
          refine samplesIn_eq_nil fun x hx => .inr ?_
          have := (hc.bounds hx).1
          simp only [Bool.false_eq_true, not_false_eq_true, and_true] at hfirst
          omega
        rw [hhigh, reverse_nil, nil_append, ih hcs]

theorem getRangeParallel_eq (h : ∀ c ∈ cs, c.Ok) (start endTs : Int) :
    getRangeParallel start endTs cs = .ok (samplesIn start endTs (stored cs)) := by
  induction cs with
  | nil => rfl
  | cons c cs ih =>
    rw [getRangeParallel, (h c mem_cons_self).getRange_eq,
      ih fun d hd => h d (mem_cons_of_mem _ hd), stored_cons, samplesIn_append]
    rfl

theorem TimeSeriesChunk.Ok.hasSamplesInRange_eq {c : TimeSeriesChunk} (h : c.Ok) (start endTs : Int) :
    c.hasSamplesInRange start endTs = decide (samplesIn start endTs c.samples ≠ []) := by
  rw [hasSamplesInRange]
  split
  · rename_i hout
    rw [samplesIn_eq_nil]
    · rfl
    · intro x hx
      have := h.bounds hx
      rw [h.isEmpty_eq, decide_eq_false (ne_nil_of_mem hx), overlaps, decide_eq_true_eq] at hout
      simp only [Bool.false_eq_true, false_or] at hout
      omega
  · rw [h.rangeIter_eq]
    cases samplesIn start endTs c.samples with
    | nil => rfl
    | cons x l => rfl

theorem sum_expired (h : ChunksOk cs) (minTimestamp : Int) :
    ((cs.takeWhile fun chunk => chunk.firstTimestamp < minTimestamp).map fun chunk =>
    if chunk.lastTimestamp < minTimestamp then chunk.len
    else (chunk.rangeIter chunk.firstTimestamp (minTimestamp - 1)).length).sum
    = ((stored cs).filter fun x => !decide (minTimestamp ≤ x.timestamp)).length := by
  induction cs with
  | nil => rfl
  | cons c cs ih =>
    have hc := h.ok c mem_cons_self
    rcases lt_or_ge c.firstTimestamp minTimestamp with hlt | hge
    · rw [takeWhile_cons_of_pos (by simpa using hlt), map_cons, sum_cons, ih h.tail,
        stored_cons, filter_append, length_append]
      congr 1
      split
      · rw [hc.len_eq, filter_eq_self.mpr]
        intro x hx
        have := (hc.bounds hx).2
        rw [decide_eq_false (by omega)]
        rfl
      · rw [hc.rangeIter_eq]
        congr 1
        refine filter_congr fun x hx => ?_
        have := (hc.bounds hx).1
        rw [← decide_not, decide_eq_decide]
        omega
    · -- this chunk starts in the window, and so do the later ones
      rw [takeWhile_cons_of_neg (by simpa using hge), map_nil, sum_nil, filter_eq_nil_iff.mpr]
      · rfl
      · intro x hx
        have hhigh : minTimestamp - 1 < x.timestamp := by
          refine lt_stored h.ok (fun d hd => ?_) x hx
          rcases mem_cons.mp hd with rfl | hd
          · omega
          · have := h.first_le_last mem_cons_self
            have := h.head_lt hd
            omega
        rw [decide_eq_true (by omega)]
        exact Bool.false_ne_true

namespace TimeSeries

variable {s : TimeSeries}

/-! ### The read paths -/

/-- A range whose start is clamped to the window is a range of what is visible. -/
theorem samplesIn_visible (s : TimeSeries) (start endTs : Int) :
    samplesIn (max start s.getMinTimestamp) endTs s.samples = samplesIn start endTs s.visible := by
  rw [visible, samplesIn, samplesIn, filter_filter]
  refine filter_congr fun x _ => ?_
  rw [← Bool.decide_and, decide_eq_decide]
  omega

section

variable (h : s.WF)
include h

variable (start endTs : Int)

theorem WF.sampleIterator_forward :
    s.sampleIterator start endTs false = samplesIn start endTs s.samples := by
  rw [sampleIterator]
  split
  · rename_i hout
    rcases hout with hnil | hgt
    · rw [samples, isEmpty_iff.mp hnil]
      rfl
    · rw [samplesIn_eq_nil fun x _ => by omega]
  · exact flatMap_forwardChunks h.chunks start endTs

theorem WF.sampleIterator_reverse :
    s.sampleIterator start endTs true = (samplesIn start endTs s.samples).reverse := by
  rw [sampleIterator]
  split
  · rename_i hout
    rcases hout with hnil | hgt
    · rw [samples, isEmpty_iff.mp hnil]
      rfl
    · rw [samplesIn_eq_nil fun x _ => by omega]
      rfl
  · rename_i hin
    have hne : s.isEmpty = false := by
      rw [h.isEmpty_eq, decide_eq_false_iff_not]
      intro hnil
      exact hin (.inl (isEmpty_iff.mpr (h.chunks_eq_nil hnil)))
    have hback := flatMap_reverseChunks (reverse_reverse s.chunks ▸ h.chunks) start endTs
    rw [reverse_reverse] at hback
    rw [if_pos rfl, hne]
    exact hback

theorem WF.rangeIter_eq : s.rangeIter start endTs = samplesIn start endTs s.visible := by
  rw [rangeIter, h.sampleIterator_forward, samplesIn_visible]

theorem WF.storedRangeIter_eq :
    s.storedRangeIter start endTs = samplesIn start endTs s.samples := h.sampleIterator_forward start endTs

theorem WF.revRangeIter_eq :
    s.revRangeIter start endTs = (samplesIn start endTs s.visible).reverse := by
  rw [revRangeIter, h.sampleIterator_reverse, samplesIn_visible]

/-- Everything is visible when the oldest sample is in the window. -/
theorem WF.visible_eq_samples (hfirst : s.getMinTimestamp ≤ s.firstTimestamp) : s.visible = s.samples := by
  refine filter_eq_self.mpr fun x hx => decide_eq_true (hfirst.trans ?_)
  rw [h.first]
  exact h.run.headTs_le hx

theorem WF.le_lastTimestamp {x : Sample} (hx : x ∈ s.samples) : x.timestamp ≤ s.lastTimestamp := by
  obtain ⟨l, last, hl⟩ := (eq_nil_or_concat s.samples).resolve_left (ne_nil_of_mem hx)
  rw [concat_eq_append] at hl
  have hrun := h.run
  rw [hl] at hrun hx
  rw [lastTimestamp, h.last, hl, getLast?_concat]
  exact hrun.le_last hx

theorem WF.overlaps_false {start endTs : Int} (hover : s.overlaps start endTs = false) :
    samplesIn start endTs s.samples = [] := by
  refine samplesIn_eq_nil fun x hx => ?_
  have hfirst : s.firstTimestamp ≤ x.timestamp := by
    rw [h.first]
    exact h.run.headTs_le hx
  have hlast := h.le_lastTimestamp hx
  have hne : s.isEmpty = false := by
    rw [h.isEmpty_eq, decide_eq_false (ne_nil_of_mem hx)]
  rw [overlaps, hne] at hover
  simp only [Bool.not_false, Bool.true_and, Bool.and_eq_false_iff, decide_eq_false_iff_not] at hover
  omega

theorem WF.slice_bounds {cs₁ cs cs₂ : List TimeSeriesChunk} {start endTs : Int}
    (hcs : s.chunks = cs₁ ++ (cs ++ cs₂)) (h₁ : ∀ d ∈ cs₁, d.lastTimestamp < start)
    (h₂ : ∀ d ∈ cs₂, endTs < d.firstTimestamp) :
    samplesIn start endTs (stored cs) = samplesIn start endTs s.samples := by
  have hok := h.chunks.ok
  rw [hcs] at hok
  have hlow := stored_lt (fun c hc => hok c (mem_append_left _ hc)) h₁
  have hhigh := lt_stored (fun c hc => hok c (mem_append_right _ (mem_append_right _ hc))) h₂
  rw [samples, hcs, stored_append, stored_append, samplesIn_append, samplesIn_append,
    samplesIn_eq_nil (l := stored cs₁) fun x hx => .inl (hlow x hx),
    samplesIn_eq_nil (l := stored cs₂) fun x hx => .inr (hhigh x hx), nil_append, append_nil]

end

omit [DecimalHelpers] in
theorem take_drop_slice {cs₁ cs cs₂ : List TimeSeriesChunk} {endIdx : Nat}
    (hend : endIdx + 1 = cs₁.length + cs.length) : ((cs₁ ++ (cs ++ cs₂)).take (endIdx + 1)).drop cs₁.length = cs := by
  rw [hend, ← append_assoc, ← length_append, take_left, drop_left]

theorem WF.getRange_eq (h : s.WF) (start endTs : Int) : s.getRange start endTs = samplesIn start endTs s.visible := by
  rw [← samplesIn_visible, getRange]
  generalize max start s.getMinTimestamp = start
  split
  · rw [samplesIn_eq_nil fun x _ => by omega]
  · split
    · rename_i hover
      rw [h.overlaps_false (by simpa using hover)]
    · rcases h.getChunkIndexBounds_spec start endTs with
        ⟨hnone, hin⟩ | ⟨cs₁, cs, cs₂, endIdx, hcs, hsome, hend, h₁, h₂⟩
      · rw [hnone, hin]
      · have hok : ∀ c ∈ cs, c.Ok := fun c hc => h.chunks.ok c (by rw [hcs]; simp [hc])
        rw [hsome]
        dsimp only
        rw [hcs, take_drop_slice hend, getRangeParallel_eq hok, ← h.slice_bounds hcs h₁ h₂]
        -- sorting what is sorted changes nothing
        have hsorted : (samplesIn start endTs (stored cs)).Pairwise fun a b => a.timestamp ≤ b.timestamp := by
          rw [h.slice_bounds hcs h₁ h₂]
          exact (h.run.increasing.sublist filter_sublist).imp fun hlt => hlt.le
        split
        · exact hsorted.insertionSort_eq
        · rfl

theorem WF.hasSamplesInRange_eq (h : s.WF) (start endTs : Int) :
    s.hasSamplesInRange start endTs = decide (samplesIn start endTs s.visible ≠ []) := by
  rw [hasSamplesInRange]
  split
  · -- nothing is stored in the range
    rename_i hover
    have hnil : samplesIn start endTs s.visible = [] := by
      have hsub : (samplesIn start endTs s.visible).Sublist (samplesIn start endTs s.samples) :=
        visible_sublist.filter _
      rw [h.overlaps_false (by simpa using hover)] at hsub
      exact sublist_nil.mp hsub
    rw [hnil]
    rfl
  · dsimp only
    rw [← samplesIn_visible, max_comm start]
    generalize max s.getMinTimestamp start = start
    rcases h.getChunkIndexBounds_spec start endTs with
      ⟨hnone, hin⟩ | ⟨cs₁, cs, cs₂, endIdx, hcs, hsome, hend, h₁, h₂⟩
    · rw [hnone, hin]
      rfl
    · rw [hsome]
      dsimp only
      rw [← h.slice_bounds hcs h₁ h₂, hcs, take_drop_slice hend, Bool.eq_iff_iff, any_eq_true, decide_eq_true_eq]
      have hok : ∀ c ∈ cs, c.Ok := fun c hc => h.chunks.ok c (by rw [hcs]; simp [hc])
      constructor
      · rintro ⟨c, hc, hany⟩ hnil
        rw [(hok c hc).hasSamplesInRange_eq, decide_eq_true_eq] at hany
        obtain ⟨x, hx⟩ := exists_mem_of_ne_nil _ hany
        obtain ⟨hx, hin⟩ := mem_filter.mp hx
        exact filter_eq_nil_iff.mp hnil x (mem_stored.mpr ⟨c, hc, hx⟩) hin
      · intro hne
        obtain ⟨x, hx⟩ := exists_mem_of_ne_nil _ hne
        obtain ⟨hx, hin⟩ := mem_filter.mp hx
        obtain ⟨c, hc, hx⟩ := mem_stored.mp hx
        refine ⟨c, hc, ?_⟩
        rw [(hok c hc).hasSamplesInRange_eq, decide_eq_true_eq]
        exact ne_nil_of_mem (mem_filter.mpr ⟨hx, hin⟩)

theorem WF.visibleFirstTimestamp_eq (h : s.WF) : s.visibleFirstTimestamp = headTs s.visible := by
  rw [visibleFirstTimestamp]
  split
  · rename_i hge
    rw [h.visible_eq_samples hge, h.first]
  · rename_i hlt
    have hall : samplesIn s.getMinTimestamp s.lastTimestamp s.visible = s.visible := by
      refine samplesIn_eq_self fun x hx => ⟨by simpa using (mem_filter.mp hx).2, ?_⟩
      exact h.le_lastTimestamp (visible_sublist.subset hx)
    rw [h.rangeIter_eq, hall]
    cases hv : s.visible with
    | cons x l => rfl
    | nil =>
      -- the newest sample is visible, so nothing is stored
      have hnil : s.samples = [] := by
        have hlast := getLast?_window s.retention h.run.times
        rw [← h.visible_eq, hv] at hlast
        exact getLast?_eq_none_iff.mp hlast.symm
      exfalso
      apply hlt
      rw [getMinTimestamp, h.last, hnil]
      split
      · exact le_rfl
      · rw [h.first, hnil]
        exact le_rfl

theorem WF.visibleTotalSamples_eq (h : s.WF) : s.visibleTotalSamples = s.visible.length := by
  rw [visibleTotalSamples]
  split
  · rename_i hge
    rw [h.total, h.visible_eq_samples hge]
  · rw [sum_expired h.chunks, h.total, visible]
    have := length_eq_length_filter_add (l := s.samples) fun x => decide (s.getMinTimestamp ≤ x.timestamp)
    change _ - ((s.samples).filter _).length = _
    omega

end TimeSeries

end

end ValkeyTimeSeries
