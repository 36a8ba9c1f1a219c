/-
Series/Chunks.lean

The chunks of a series and the searches in them, from `series/time_series.rs`.

Design.  A series keeps its chunks in time order without overlap, so the lists of the chunks one after the
other are the list of the series (`stored`).  A timestamp is inside one chunk or in a gap (`Around`).  There
is a linear scan for up to sixteen chunks and a binary search above that; they agree except where
`findLastGeIndex` is asked for a timestamp in a gap.
-/
import ValkeyTimeSeries.Chunk.TimeSeriesChunk

namespace ValkeyTimeSeries

open List BinarySearch

variable [DecimalHelpers]

/-! ### The searches -/

def linearScanMax : Nat := 16

def binarySearchChunksByTimestamp (chunks : List TimeSeriesChunk) (ts : Int) : Nat × Bool :=
  match binarySearchBy (fun probe : TimeSeriesChunk =>
      if ts < probe.firstTimestamp then .gt
      else if ts > probe.lastTimestamp then .lt
      else .eq) chunks with
  | .ok pos => (pos, true)
  | .error pos => (pos, false)

/-- The first chunk that reaches `ts`. -/
def findStartChunkIndex (arr : List TimeSeriesChunk) (ts : Int) : Nat :=
  match arr with
  | [] => 0
  | first :: _ =>
    if ts ≤ first.firstTimestamp then 0
    else if arr.length ≤ linearScanMax then
      (arr.findIdx? fun x => x.lastTimestamp ≥ ts).getD arr.length
    else (binarySearchChunksByTimestamp arr ts).1

def getChunkIndex (chunks : List TimeSeriesChunk) (timestamp : Int) : Nat × Bool :=
  match chunks with
  | [] => (0, false)
  | _ :: _ =>
    if chunks.length ≤ linearScanMax then
      match chunks.findIdx? fun chunk => chunk.isTimestampInRange timestamp with
      | some i => (i, true)
      | none => (chunks.length, false)
    else binarySearchChunksByTimestamp chunks timestamp

/-- The last chunk that starts by `ts`. -/
def findLastGeIndex (chunks : List TimeSeriesChunk) (ts : Int) : Nat × Bool :=
  match chunks with
  | [] => (0, false)
  | _ :: _ =>
    if chunks.length ≤ linearScanMax then
      match rposition (fun x : TimeSeriesChunk => ts ≥ x.firstTimestamp) chunks with
      | none => (0, false)
      | some idx => (idx, chunks[idx]?.any fun chunk => chunk.isTimestampInRange ts)
    else binarySearchChunksByTimestamp chunks ts

/-! ### Chunks in time order -/

def stored (chunks : List TimeSeriesChunk) : List Sample := chunks.flatMap (·.samples)

@[simp] theorem stored_nil : stored [] = [] := rfl

@[simp] theorem stored_cons (c : TimeSeriesChunk) (cs : List TimeSeriesChunk) : stored (c :: cs) = c.samples ++
    stored cs := rfl

@[simp] theorem stored_append (cs₁ cs₂ : List TimeSeriesChunk) :
    stored (cs₁ ++ cs₂) = stored cs₁ ++ stored cs₂ := flatMap_append ..

theorem mem_stored {cs : List TimeSeriesChunk} {s : Sample} : s ∈ stored cs ↔ ∃ c ∈ cs, s ∈ c.samples := mem_flatMap

/-- Chunks with samples, in time order without overlap. -/
structure ChunksOk (cs : List TimeSeriesChunk) : Prop where
  ok : ∀ c ∈ cs, c.Ok
  nonempty : ∀ c ∈ cs, c.samples ≠ []
  run : SampleRun (stored cs)

theorem chunksOk_nil : ChunksOk [] := ⟨by simp, by simp, SampleRun.nil⟩

variable {cs cs₁ cs₂ : List TimeSeriesChunk} {c : TimeSeriesChunk} {ts : Int}

theorem chunksOk_append : ChunksOk (cs₁ ++ cs₂) ↔
    ChunksOk cs₁ ∧ ChunksOk cs₂ ∧ ∀ a ∈ stored cs₁, ∀ b ∈ stored cs₂, a.timestamp < b.timestamp := by
  constructor
  · rintro ⟨hok, hne, hrun⟩
    rw [stored_append] at hrun
    obtain ⟨h₁, h₂, hlt⟩ := sampleRun_append.mp hrun
    exact ⟨⟨fun c hc => hok c (mem_append_left _ hc), fun c hc => hne c (mem_append_left _ hc), h₁⟩,
      ⟨fun c hc => hok c (mem_append_right _ hc), fun c hc => hne c (mem_append_right _ hc), h₂⟩, hlt⟩
  · rintro ⟨h₁, h₂, hlt⟩
    refine ⟨fun c hc => ?_, fun c hc => ?_, ?_⟩
    · rcases mem_append.mp hc with hc | hc
      · exact h₁.ok c hc
      · exact h₂.ok c hc
    · rcases mem_append.mp hc with hc | hc
      · exact h₁.nonempty c hc
      · exact h₂.nonempty c hc
    · rw [stored_append]
      exact sampleRun_append.mpr ⟨h₁.run, h₂.run, hlt⟩

theorem chunksOk_singleton (h : c.Ok) (hne : c.samples ≠ []) : ChunksOk [c] := by
  refine ⟨?_, ?_, ?_⟩
  · rintro d hd
    rwa [mem_singleton.mp hd]
  · rintro d hd
    rwa [mem_singleton.mp hd]
  · rw [stored_cons, stored_nil, append_nil]
    exact h.run

theorem chunksOk_cons : ChunksOk (c :: cs) ↔
    ChunksOk [c] ∧ ChunksOk cs ∧ ∀ a ∈ c.samples, ∀ b ∈ stored cs, a.timestamp < b.timestamp := by
  rw [← singleton_append, chunksOk_append, stored_cons, stored_nil, append_nil]

theorem ChunksOk.tail (h : ChunksOk (c :: cs)) : ChunksOk cs := (chunksOk_cons.mp h).2.1

theorem ChunksOk.last_lt_first (h : ChunksOk (cs₁ ++ cs₂)) {a b : TimeSeriesChunk} (ha : a ∈ cs₁)
    (hb : b ∈ cs₂) : a.lastTimestamp < b.firstTimestamp := by
  obtain ⟨h₁, h₂, hlt⟩ := chunksOk_append.mp h
  obtain ⟨s, hs, hs'⟩ := (h₁.ok a ha).last_mem (h₁.nonempty a ha)
  obtain ⟨t, ht, ht'⟩ := (h₂.ok b hb).first_mem (h₂.nonempty b hb)
  rw [← hs', ← ht']
  exact hlt s (mem_stored.mpr ⟨a, ha, hs⟩) t (mem_stored.mpr ⟨b, hb, ht⟩)

theorem ChunksOk.first_le_last (h : ChunksOk cs) (hc : c ∈ cs) : c.firstTimestamp ≤ c.lastTimestamp := by
  obtain ⟨s, hs, hs'⟩ := (h.ok c hc).first_mem (h.nonempty c hc)
  rw [← hs']
  exact ((h.ok c hc).bounds hs).2

theorem stored_lt (hok : ∀ c ∈ cs, c.Ok) (h : ∀ c ∈ cs, c.lastTimestamp < ts) : ∀ s ∈ stored cs, s.timestamp < ts := by
  intro s hs
  obtain ⟨c, hc, hs⟩ := mem_stored.mp hs
  exact ((hok c hc).bounds hs).2.trans_lt (h c hc)

theorem lt_stored (hok : ∀ c ∈ cs, c.Ok) (h : ∀ c ∈ cs, ts < c.firstTimestamp) : ∀ s ∈ stored cs, ts < s.timestamp := by
  intro s hs
  obtain ⟨c, hc, hs⟩ := mem_stored.mp hs
  exact (h c hc).trans_le ((hok c hc).bounds hs).1

theorem ChunksOk.head_lt (h : ChunksOk (c :: cs)) {d : TimeSeriesChunk} (hd : d ∈ cs) :
    c.lastTimestamp < d.firstTimestamp := by
  exact h.last_lt_first (mem_singleton_self c) hd

inductive Around (ts : Int) : List TimeSeriesChunk → Prop
  | inside {cs₁ cs₂ : List TimeSeriesChunk} {c : TimeSeriesChunk}
      (h₁ : ∀ d ∈ cs₁, d.lastTimestamp < ts) (hfirst : c.firstTimestamp ≤ ts)
      (hlast : ts ≤ c.lastTimestamp) (h₂ : ∀ d ∈ cs₂, ts < d.firstTimestamp) : Around ts (cs₁ ++ c :: cs₂)
  | gap {cs₁ cs₂ : List TimeSeriesChunk} (h₁ : ∀ d ∈ cs₁, d.lastTimestamp < ts)
      (h₂ : ∀ d ∈ cs₂, ts < d.firstTimestamp) : Around ts (cs₁ ++ cs₂)

/-- The spans of chunks, in order and apart. -/
structure Spans (cs : List TimeSeriesChunk) : Prop where
  le : ∀ c ∈ cs, c.firstTimestamp ≤ c.lastTimestamp
  apart : cs.Pairwise fun c d => c.lastTimestamp < d.firstTimestamp

theorem ChunksOk.spans (h : ChunksOk cs) : Spans cs := by
  refine ⟨fun _ => h.first_le_last, ?_⟩
  induction cs with
  | nil => exact .nil
  | cons c cs ih => exact pairwise_cons.mpr ⟨fun d hd => h.head_lt hd, ih h.tail⟩

theorem Spans.around (h : Spans cs) (ts : Int) : Around ts cs := by
  induction cs with
  | nil =>
    rw [← append_nil []]
    exact .gap (by simp) (by simp)
  | cons c cs ih =>
    obtain ⟨hlater, hapart⟩ := pairwise_cons.mp h.apart
    rcases lt_or_ge c.lastTimestamp ts with hpast | hle
    · have hcons {l : List TimeSeriesChunk} (hl : ∀ d ∈ l, d.lastTimestamp < ts) :
          ∀ d ∈ c :: l, d.lastTimestamp < ts := by
        exact forall_mem_cons.mpr ⟨hpast, hl⟩
      cases ih ⟨fun d hd => h.le d (mem_cons_of_mem _ hd), hapart⟩ with
      | inside h₁ hfirst hlast h₂ => exact .inside (hcons h₁) hfirst hlast h₂
      | gap h₁ h₂ => exact .gap (hcons h₁) h₂
    · have hrest : ∀ d ∈ cs, ts < d.firstTimestamp := fun d hd => hle.trans_lt (hlater d hd)
      rw [← nil_append (c :: cs)]
      rcases lt_or_ge ts c.firstTimestamp with hbefore | hge
      · exact .gap (by simp) (forall_mem_cons.mpr ⟨hbefore, hrest⟩)
      · exact .inside (by simp) hge hle hrest

theorem ChunksOk.around (h : ChunksOk cs) (ts : Int) : Around ts cs := h.spans.around ts

theorem Spans.cut (h : Spans cs) (ts : Int) :
    ∃ cs₁ cs₂, cs = cs₁ ++ cs₂ ∧ (∀ d ∈ cs₁, d.lastTimestamp < ts) ∧ ∀ d ∈ cs₂, ts ≤ d.lastTimestamp := by
  cases h.around ts with
  | inside h₁ hfirst hlast h₂ =>
    refine ⟨_, _, rfl, h₁, fun d hd => ?_⟩
    rcases mem_cons.mp hd with rfl | hd'
    · exact hlast
    · exact (h₂ d hd').le.trans (h.le d (mem_append_right _ hd))
  | gap h₁ h₂ =>
    exact ⟨_, _, rfl, h₁, fun d hd => (h₂ d hd).le.trans (h.le d (mem_append_right _ hd))⟩

/-! ### What the searches look for -/

/-- The first chunk that covers `ts`, or the end. -/
def firstCovering (chunks : List TimeSeriesChunk) (ts : Int) : Nat × Bool :=
  match chunks.findIdx? fun chunk => chunk.isTimestampInRange ts with
  | some i => (i, true)
  | none => (chunks.length, false)

/-- The first chunk that does not end before `ts`, or the end. -/
def firstReaching (chunks : List TimeSeriesChunk) (ts : Int) : Nat :=
  (chunks.findIdx? fun x => x.lastTimestamp ≥ ts).getD chunks.length

/-- The last chunk that starts by `ts`, or the first one. -/
def lastStarted (chunks : List TimeSeriesChunk) (ts : Int) : Nat × Bool :=
  match rposition (fun x : TimeSeriesChunk => ts ≥ x.firstTimestamp) chunks with
  | none => (0, false)
  | some idx => (idx, chunks[idx]?.any fun chunk => chunk.isTimestampInRange ts)

/-! ### Where the searches end up -/

section Searches

variable (h₁ : ∀ d ∈ cs₁, d.lastTimestamp < ts)
include h₁

theorem firstReaching_eq (h₂ : ∀ d ∈ cs₂, ts ≤ d.lastTimestamp) : firstReaching (cs₁ ++ cs₂) ts = cs₁.length := by
  rw [firstReaching]
  cases cs₂ with
  | nil =>
    rw [append_nil, findIdx?_eq_none_iff.mpr fun d hd => decide_eq_false (h₁ d hd).not_ge]
    rfl
  | cons c cs₂ =>
    rw [findIdx?_append_cons (fun d hd => decide_eq_false (h₁ d hd).not_ge) (decide_eq_true (h₂ c mem_cons_self))]
    rfl

variable (h₂ : ∀ d ∈ cs₂, ts < d.firstTimestamp)
include h₂

omit h₂ in
theorem firstCovering_inside (hfirst : c.firstTimestamp ≤ ts) (hlast : ts ≤ c.lastTimestamp) :
    firstCovering (cs₁ ++ c :: cs₂) ts = (cs₁.length, true) := by
  rw [firstCovering, findIdx?_append_cons]
  · intro d hd
    have := h₁ d hd
    exact decide_eq_false (by omega)
  · exact decide_eq_true ⟨hfirst, hlast⟩

theorem firstCovering_gap : firstCovering (cs₁ ++ cs₂) ts = ((cs₁ ++ cs₂).length, false) := by
  rw [firstCovering, findIdx?_eq_none_iff.mpr]
  intro d hd
  rcases mem_append.mp hd with hd | hd
  · have := h₁ d hd
    exact decide_eq_false (by omega)
  · have := h₂ d hd
    exact decide_eq_false (by omega)

omit h₁ in
theorem lastStarted_inside (hfirst : c.firstTimestamp ≤ ts) (hlast : ts ≤ c.lastTimestamp) :
    lastStarted (cs₁ ++ c :: cs₂) ts = (cs₁.length, true) := by
  rw [lastStarted, rposition_append_cons]
  · simp [TimeSeriesChunk.isTimestampInRange, hfirst, hlast]
  · exact decide_eq_true hfirst
  · exact fun d hd => decide_eq_false (h₂ d hd).not_ge

variable (hfl : ∀ d ∈ cs₁, d.firstTimestamp ≤ d.lastTimestamp)
include hfl

theorem lastStarted_gap : lastStarted (cs₁ ++ cs₂) ts = (cs₁.length - 1, false) := by
  rw [lastStarted]
  rcases eq_nil_or_concat cs₁ with rfl | ⟨l, last, rfl⟩
  · rw [nil_append, rposition_eq_none fun d hd => decide_eq_false (h₂ d hd).not_ge]
    rfl
  · rw [concat_eq_append] at h₁ hfl ⊢
    have hlast := h₁ last (by simp)
    have hfirst := hfl last (by simp)
    rw [append_assoc, singleton_append, rposition_append_cons]
    · simp [TimeSeriesChunk.isTimestampInRange, hlast]
    · exact decide_eq_true (hfirst.trans hlast.le)
    · exact fun d hd => decide_eq_false (h₂ d hd).not_ge

theorem binarySearchChunks_inside (hfirst : c.firstTimestamp ≤ ts) (hlast : ts ≤ c.lastTimestamp) :
    binarySearchChunksByTimestamp (cs₁ ++ c :: cs₂) ts = (cs₁.length, true) := by
  unfold binarySearchChunksByTimestamp
  rw [binarySearchBy_present]
  · intro d hd
    have := h₁ d hd
    have := hfl d hd
    rw [if_neg (by omega), if_pos (by omega)]
    decide
  · rw [if_neg (by omega), if_neg (by omega)]
  · intro d hd
    rw [if_pos (h₂ d hd)]

theorem binarySearchChunks_gap :
    binarySearchChunksByTimestamp (cs₁ ++ cs₂) ts = (cs₁.length, false) := by
  unfold binarySearchChunksByTimestamp
  rw [binarySearchBy_absent]
  · intro d hd
    have := h₁ d hd
    have := hfl d hd
    rw [if_neg (by omega), if_pos (by omega)]
  · intro d hd
    rw [if_pos (h₂ d hd)]

theorem getChunkIndex_inside (hfirst : c.firstTimestamp ≤ ts) (hlast : ts ≤ c.lastTimestamp) :
    getChunkIndex (cs₁ ++ c :: cs₂) ts = (cs₁.length, true) := by
  unfold getChunkIndex
  split
  · rename_i hnil
    exact absurd (append_eq_nil_iff.mp hnil).2 (cons_ne_nil c cs₂)
  · split
    · exact firstCovering_inside h₁ hfirst hlast
    · exact binarySearchChunks_inside h₁ h₂ hfl hfirst hlast

theorem getChunkIndex_gap :
    (getChunkIndex (cs₁ ++ cs₂) ts).2 = false := by
  unfold getChunkIndex
  split
  · rfl
  · split
    · exact congrArg Prod.snd (firstCovering_gap h₁ h₂)
    · rw [binarySearchChunks_gap h₁ h₂ hfl]

end Searches

theorem findStartChunkIndex_eq (h : Spans (cs₁ ++ cs₂)) (h₁ : ∀ d ∈ cs₁, d.lastTimestamp < ts)
    (h₂ : ∀ d ∈ cs₂, ts ≤ d.lastTimestamp) : findStartChunkIndex (cs₁ ++ cs₂) ts = cs₁.length := by
  have hfl : ∀ d ∈ cs₁, d.firstTimestamp ≤ d.lastTimestamp := fun d hd => h.le d (mem_append_left _ hd)
  unfold findStartChunkIndex
  split
  · rename_i hnil
    rw [(append_eq_nil_iff.mp hnil).1]
    rfl
  · rename_i first rest hcons
    split
    · -- the first chunk starts by then, so none ends before
      cases cs₁ with
      | nil => rfl
      | cons d cs₁ =>
        obtain ⟨rfl, -⟩ := List.cons.inj hcons
        have := h₁ d mem_cons_self
        have := hfl d mem_cons_self
        omega
    · split
      · exact firstReaching_eq h₁ h₂
      · cases cs₂ with
        | nil => rw [binarySearchChunks_gap h₁ (by simp) hfl]
        | cons c cs₂ =>
          have hc := h₂ c mem_cons_self
          have hapart := (pairwise_append.mp h.apart).2.1
          have hrest : ∀ d ∈ cs₂, ts < d.firstTimestamp := fun d hd =>
            hc.trans_lt ((pairwise_cons.mp hapart).1 d hd)
          rcases le_or_gt c.firstTimestamp ts with hle | hgt
          · rw [binarySearchChunks_inside h₁ hrest hfl hle hc]
          · rw [binarySearchChunks_gap h₁ (forall_mem_cons.mpr ⟨hgt, hrest⟩) hfl]

/-- The chunk `findLastGeIndex` answers, kept inside the list: every later one
starts after the timestamp. -/
theorem findLastGeIndex_spec (h : Spans cs) (hne : cs ≠ []) (ts : Int) :
    ∃ cs₁ cs₂, cs = cs₁ ++ cs₂ ∧ min (findLastGeIndex cs ts).1 (cs.length - 1) + 1 = cs₁.length
    ∧ ∀ d ∈ cs₂, ts < d.firstTimestamp := by
  have hlen := length_pos_iff.mpr hne
  cases h.around ts with
  | inside h₁ hfirst hlast h₂ =>
    rename_i cs₁ cs₂ c
    have hidx : findLastGeIndex (cs₁ ++ c :: cs₂) ts = (cs₁.length, true) := by
      unfold findLastGeIndex
      split
      · exact absurd ‹_› hne
      · split
        · exact lastStarted_inside h₂ hfirst hlast
        · exact binarySearchChunks_inside h₁ h₂ (fun d hd => h.le d (mem_append_left _ hd)) hfirst hlast
    refine ⟨cs₁ ++ [c], cs₂, append_cons .., ?_, h₂⟩
    rw [hidx, length_append, length_append, length_cons, length_singleton]
    omega
  | gap h₁ h₂ =>
    rename_i cs₁ cs₂
    have hfl : ∀ d ∈ cs₁, d.firstTimestamp ≤ d.lastTimestamp := fun d hd => h.le d (mem_append_left _ hd)
    -- the chunk before the gap is answered, the one after it, or one past the end
    have hidx : (findLastGeIndex (cs₁ ++ cs₂) ts).1 = cs₁.length - 1 ∨ (findLastGeIndex (cs₁ ++ cs₂) ts).1 =
        cs₁.length := by
      unfold findLastGeIndex
      split
      · exact absurd ‹_› hne
      · split
        · exact .inl (congrArg Prod.fst (lastStarted_gap h₁ h₂ hfl))
        · exact .inr (congrArg Prod.fst (binarySearchChunks_gap h₁ h₂ hfl))
    rw [length_append] at hlen ⊢
    by_cases hin : (findLastGeIndex (cs₁ ++ cs₂) ts).1 + 1 = cs₁.length ∨ cs₂ = []
    · refine ⟨cs₁, cs₂, rfl, ?_, h₂⟩
      rcases hin with hin | rfl
      · omega
      · rw [length_nil] at hlen ⊢
        omega
    · obtain ⟨d, cs₂, rfl⟩ := exists_cons_of_ne_nil (not_or.mp hin).2
      refine ⟨cs₁ ++ [d], cs₂, append_cons .., ?_, fun e he => h₂ e (mem_cons_of_mem _ he)⟩
      rw [length_append, length_cons, length_singleton]
      omega

/-- **Chunk lookups.**  The three searches answer what a scan would just if there are few enough chunks to scan
them, or one of them covers the timestamp. -/
theorem lookups_scan_iff (h : Spans cs) (hne : cs ≠ []) (ts : Int) :
    (getChunkIndex cs ts = firstCovering cs ts ∧ findStartChunkIndex cs ts = firstReaching cs ts
        ∧ findLastGeIndex cs ts = lastStarted cs ts) ↔
      cs.length ≤ linearScanMax ∨ ∃ c ∈ cs, c.isTimestampInRange ts := by
  have hstart : findStartChunkIndex cs ts = firstReaching cs ts := by
    obtain ⟨cs₁, cs₂, rfl, h₁, h₂⟩ := h.cut ts
    rw [findStartChunkIndex_eq h h₁ h₂, firstReaching_eq h₁ h₂]
  obtain ⟨first, rest, rfl⟩ := exists_cons_of_ne_nil hne
  by_cases hlen : (first :: rest).length ≤ linearScanMax
  · refine iff_of_true ⟨?_, hstart, ?_⟩ (.inl hlen)
    · rw [getChunkIndex, if_pos hlen, firstCovering]
    · rw [findLastGeIndex, if_pos hlen, lastStarted]
  simp only [hlen, hstart, true_and, false_or, getChunkIndex, findLastGeIndex, if_false]
  generalize first :: rest = cs at *
  cases h.around ts with
  | inside h₁ hfirst hlast h₂ =>
    have hfl := fun d hd => h.le d (mem_append_left _ hd)
    rw [binarySearchChunks_inside h₁ h₂ hfl hfirst hlast, firstCovering_inside h₁ hfirst hlast,
      lastStarted_inside h₂ hfirst hlast]
    exact iff_of_true ⟨rfl, rfl⟩ ⟨_, by simp, decide_eq_true ⟨hfirst, hlast⟩⟩
  | gap h₁ h₂ =>
    have hfl := fun d hd => h.le d (mem_append_left _ hd)
    rw [binarySearchChunks_gap h₁ h₂ hfl, firstCovering_gap h₁ h₂, lastStarted_gap h₁ h₂ hfl]
    refine iff_of_false ?_ ?_
    · rintro ⟨hcover, hlast⟩
      simp only [Prod.mk.injEq, and_true, linearScanMax] at hcover hlast hlen
      omega
    · rintro ⟨c, hc, hin⟩
      obtain ⟨hfirst, hlast⟩ := of_decide_eq_true hin
      rcases mem_append.mp hc with hc | hc
      · exact (h₁ c hc).not_ge hlast
      · exact (h₂ c hc).not_ge hfirst

def tens (n : Nat) : List TimeSeriesChunk :=
  (range n).map fun i => .uncompressed ⟨4096, [⟨10 * i, 0⟩], 256⟩

omit [DecimalHelpers] in
theorem lookups_scan_iff_two : letI := oneTenth
    Spans (tens 2) ∧ tens 2 ≠ [] ∧ ((getChunkIndex (tens 2) 5 = firstCovering (tens 2) 5
        ∧ findStartChunkIndex (tens 2) 5 = firstReaching (tens 2) 5
        ∧ findLastGeIndex (tens 2) 5 = lastStarted (tens 2) 5) ↔
      (tens 2).length ≤ linearScanMax ∨ ∃ c ∈ tens 2, c.isTimestampInRange 5) :=
  letI := oneTenth
  have hspans : Spans (tens 2) := ⟨by decide, by decide⟩
  ⟨hspans, by decide, lookups_scan_iff hspans (by decide) 5⟩

omit [DecimalHelpers] in
/-- With seventeen chunks, a timestamp behind the first is answered with the second one; a scan finds no chunk that
covers it, and the first one started by then. -/
theorem lookups_differ_in_gap : letI := oneTenth
    getChunkIndex (tens 17) 5 = (1, false) ∧ firstCovering (tens 17) 5 = (17, false)
      ∧ findLastGeIndex (tens 17) 5 = (1, false) ∧ lastStarted (tens 17) 5 = (0, false) := by
  decide

end ValkeyTimeSeries
