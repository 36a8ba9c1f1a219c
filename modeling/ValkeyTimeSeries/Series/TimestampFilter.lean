/-
Series/TimestampFilter.lean

Reading the samples at given timestamps: `samples_by_timestamps` of a chunk and of a series,
`get_range_filtered`, and `TimestampFilterIterator`.

Design.  The position of a walk over timestamps or chunks is modelled by what is left of the list.  The
iterator keeps the chunk it stands in and how far it has read there; `Tracks` says that nothing which a later
timestamp could ask for has been passed.
-/
import ValkeyTimeSeries.Series.Reads

namespace ValkeyTimeSeries

open List BinarySearch

structure ValueFilter where
  min : F64
  max : F64
deriving DecidableEq, Repr

/-- `filter_samples_by_value` keeps a value. -/
def ValueFilter.keeps (filter : ValueFilter) (value : F64) : Bool :=
  filter.min.le value && value.le filter.max

/-- `sort()`, then `dedup()`. -/
def sortDedup (timestamps : List Int) : List Int :=
  (timestamps.insertionSort (· ≤ ·)).destutter (· ≠ ·)

def filterTimestampSlice (tsFilter : List Int) (start endTs : Int) : List Int :=
  sortDedup (tsFilter.filter fun ts => ts ≥ start ∧ ts ≤ endTs)

/-! ### Lookups in a chunk -/

/-- The timestamps up to that of a sample are passed: whether one of them is the sample's, and
what is left.  The last timestamp of the list is not passed unless it is the sample's. -/
def advance (ts : Int) : List Int → Bool × List Int
  | [] => (false, [])
  | [t] => if t = ts then (true, []) else (false, [t])
  | t :: t' :: rest =>
    if t < ts then if t' = ts then (true, rest) else advance ts (t' :: rest)
    else if t = ts then (true, t' :: rest)
    else (false, t :: t' :: rest)

def matchTimestamps : List Sample → List Int → List Sample
  | _, [] => []
  | [], _ :: _ => []
  | sample :: samples, ts :: rest =>
    if sample.timestamp < ts then matchTimestamps samples (ts :: rest)
    else if sample.timestamp = ts then sample :: matchTimestamps samples rest
    else
      match advance sample.timestamp (ts :: rest) with
      | (true, rest) => sample :: matchTimestamps samples rest
      | (false, rest) => matchTimestamps samples rest

section

variable [DecimalHelpers]

def TimeSeriesChunk.samplesByTimestamps (c : TimeSeriesChunk) (timestamps : List Int) : List Sample :=
  match timestamps.head?, timestamps.getLast? with
  | some firstTs, some lastTs =>
    if c.len = 0 then []
    else matchTimestamps (c.rangeIter (max firstTs c.firstTimestamp) (min lastTs c.lastTimestamp)) timestamps
  | _, _ => []

/-! ### Lookups in a series -/

/-- A chunk and the timestamps to look up in it. -/
structure ChunkMeta where
  chunk : TimeSeriesChunk
  timestamps : List Int

/-- `fetch_parallel` on the entries of the map, in the order they come. -/
def fetchParallel (metas : List ChunkMeta) : List Sample :=
  let samples := metas.flatMap fun m => m.chunk.samplesByTimestamps m.timestamps
  if metas.length > 1 then samples.insertionSort fun a b => a.timestamp ≤ b.timestamp else samples

namespace TimeSeries

variable (s : TimeSeries)

def metaMap (timestamps : List Int) : List ChunkMeta :=
  (s.chunks.zipIdx.map fun entry =>
    ⟨entry.1, timestamps.filter fun ts => getChunkIndex s.chunks ts = (entry.2, true)⟩).filter
      fun m => !m.timestamps.isEmpty

def samplesByTimestamps (timestamps : List Int) : List Sample :=
  if s.isEmpty ∨ timestamps.isEmpty then [] else fetchParallel (s.metaMap timestamps)

def getRangeFiltered (start endTs : Int) (timestampFilter : Option (List Int))
    (valueFilter : Option ValueFilter) : List Sample :=
  let start := max start s.getMinTimestamp
  if start > endTs then []
  else
    let samples :=
      match timestampFilter with
      | some tsFilter => s.samplesByTimestamps (filterTimestampSlice tsFilter start endTs)
      | none => s.getRange start endTs
    match valueFilter with
    | some valueFilter => samples.filter fun x => valueFilter.keeps x.value
    | none => samples

end TimeSeries

/-! ### The iterator -/

/-- `chunks` are those from `chunk_idx` on, in the direction of the walk. -/
structure TimestampFilterIterator where
  isReverse : Bool
  chunk : Option TimeSeriesChunk
  sampleIter : List Sample
  buffer : List Sample
  chunks : List TimeSeriesChunk
  randomAccess : Bool

namespace TimestampFilterIterator

def new (s : TimeSeries) (isReverse : Bool) : TimestampFilterIterator where
  isReverse
  chunk := none
  sampleIter := []
  buffer := []
  chunks := if s.isEmpty then [] else if isReverse then s.chunks.reverse else s.chunks
  randomAccess := false

/-- The chunk that covers `ts`, and the chunks from where the walk stands. -/
def seekChunk (isReverse : Bool) (ts : Int) :
    List TimeSeriesChunk → Option TimeSeriesChunk × List TimeSeriesChunk
  | [] => (none, [])
  | chunk :: chunks =>
    if ts < chunk.firstTimestamp then
      if isReverse then seekChunk isReverse ts chunks else (none, chunk :: chunks)
    else if ts > chunk.lastTimestamp then
      if isReverse then (none, chunk :: chunks) else seekChunk isReverse ts chunks
    else (some chunk, chunk :: chunks)

def fillBuffer : TimeSeriesChunk → List Sample
  | .uncompressed c => c.samples
  | c => c.rangeIter c.firstTimestamp c.lastTimestamp

def ensureChunkForTimestamp (it : TimestampFilterIterator) (ts : Int) : TimestampFilterIterator :=
  if it.chunk.any (·.isTimestampInRange ts) then it
  else
    match seekChunk it.isReverse ts it.chunks with
    | (none, chunks) => { it with chunk := none, chunks }
    | (some chunk, chunks) =>
      if it.isReverse ∨ ¬ chunk.isCompressed then
        { it with
          chunk := some chunk, chunks, randomAccess := true, sampleIter := [], buffer := fillBuffer chunk }
      else
        { it with
          chunk := some chunk, chunks, randomAccess := false,
          sampleIter := chunk.rangeIter ts chunk.lastTimestamp }

def scan (ts : Int) : List Sample → Option Sample × List Sample
  | [] => (none, [])
  | sample :: samples =>
    if sample.timestamp = ts then (some sample, samples)
    else if sample.timestamp > ts then (none, samples)
    else scan ts samples

def binarySearch (ts : Int) (buffer : List Sample) : Option Sample :=
  match binarySearchBy (fun x : Sample => compare x.timestamp ts) buffer with
  | .ok idx => buffer[idx]?
  | .error _ => none

def getSample (it : TimestampFilterIterator) (ts : Int) : Option Sample × TimestampFilterIterator :=
  let it := it.ensureChunkForTimestamp ts
  if it.chunk.isNone then (none, it)
  else if it.randomAccess then (binarySearch ts it.buffer, it)
  else
    match scan ts it.sampleIter with
    | (some sample, sampleIter) => (some sample, { it with sampleIter })
    | (none, sampleIter) => (none, { it with sampleIter, chunk := none })

/-- Every sample that the iterator yields for the timestamps that are left. -/
def collect : TimestampFilterIterator → List Int → List Sample
  | _, [] => []
  | it, ts :: timestamps =>
    match it.getSample ts with
    | (some sample, it) => sample :: collect it timestamps
    | (none, it) => collect it timestamps

end TimestampFilterIterator

def TimeSeries.timestampFilterIterator (s : TimeSeries) (timestamps : List Int) (isReverse : Bool) :
    List Sample :=
  let timestamps := (sortDedup timestamps).filter fun ts => ts ≥ s.getMinTimestamp
  (TimestampFilterIterator.new s isReverse).collect (if isReverse then timestamps.reverse else timestamps)

end

/-! ### Sorted timestamps -/

def samplesAt (timestamps : List Int) (l : List Sample) : List Sample :=
  l.filter fun x => x.timestamp ∈ timestamps

def sampleAt (ts : Int) (l : List Sample) : Option Sample := l.find? fun x => x.timestamp = ts

theorem mem_destutter' (a x : Int) (l : List Int) : x ∈ l.destutter' (· ≠ ·) a ↔ x = a ∨ x ∈ l := by
  induction l generalizing a with
  | nil => simp
  | cons b l ih =>
    rw [List.destutter'_cons]
    split
    · rw [mem_cons, ih, mem_cons]
    · rename_i heq
      obtain rfl : a = b := not_not.mp heq
      rw [ih, mem_cons]
      tauto

theorem pairwise_destutter' {a : Int} {l : List Int} (h : (a :: l).Pairwise (· ≤ ·)) :
    (l.destutter' (· ≠ ·) a).Pairwise (· < ·) := by
  induction l generalizing a with
  | nil => exact pairwise_singleton ..
  | cons b l ih =>
    obtain ⟨hle, hrest⟩ := pairwise_cons.mp h
    rw [List.destutter'_cons]
    split
    · rename_i hne
      refine pairwise_cons.mpr ⟨fun x hx => ?_, ih hrest⟩
      have hab : a < b := lt_of_le_of_ne (hle b mem_cons_self) hne
      rcases (mem_destutter' b x l).mp hx with rfl | hx
      · exact hab
      · exact hab.trans_le (rel_of_pairwise_cons hrest hx)
    · rename_i heq
      obtain rfl : a = b := not_not.mp heq
      exact ih hrest

theorem mem_sortDedup {x : Int} {l : List Int} : x ∈ sortDedup l ↔ x ∈ l := by
  rw [sortDedup, ← mem_insertionSort (r := (· ≤ ·)) (l := l)]
  cases l.insertionSort (· ≤ ·) with
  | nil => rfl
  | cons a l => rw [destutter_cons', mem_destutter', mem_cons]

theorem pairwise_sortDedup (l : List Int) : (sortDedup l).Pairwise (· < ·) := by
  have hle := pairwise_insertionSort (· ≤ ·) l
  rw [sortDedup]
  cases hl : l.insertionSort (· ≤ ·) with
  | nil => exact List.Pairwise.nil
  | cons a l =>
    rw [hl] at hle
    exact pairwise_destutter' hle

section Lookups

variable {l : List Sample} {timestamps : List Int}

theorem sampleAt_eq_none {ts : Int} : sampleAt ts l = none ↔ ∀ x ∈ l, x.timestamp ≠ ts := by
  simp [sampleAt]

theorem Increasing.sampleAt_eq_some (h : Increasing l) {t : Int} {x : Sample} :
    sampleAt t l = some x ↔ x ∈ l ∧ x.timestamp = t := by
  induction l with
  | nil => simp [sampleAt]
  | cons y l ih =>
    obtain ⟨hlt, hrest⟩ := pairwise_cons.mp h
    rw [mem_cons, sampleAt, find?_cons]
    by_cases hy : y.timestamp = t
    · rw [decide_eq_true hy]
      refine ⟨fun heq => ?_, fun hx => ?_⟩
      · obtain rfl : y = x := Option.some.inj heq
        exact ⟨.inl rfl, hy⟩
      · rcases hx with ⟨rfl | hx, hts⟩
        · rfl
        · have := hlt x hx
          omega
    · rw [decide_eq_false hy]
      refine (ih hrest).trans ⟨fun hx => ⟨.inr hx.1, hx.2⟩, ?_⟩
      rintro ⟨rfl | hx, hts⟩
      · exact absurd hts hy
      · exact ⟨hx, hts⟩

theorem Increasing.ext {l' : List Sample} (h : Increasing l) (h' : Increasing l')
    (hmem : ∀ x, x ∈ l ↔ x ∈ l') : l = l' := by
  exact List.Pairwise.eq_of_mem_iff h h' hmem

/-- Looking up one timestamp after the other filters the samples. -/
theorem filterMap_sampleAt (h : Increasing l) (htimes : timestamps.Pairwise (· < ·)) :
    timestamps.filterMap (fun ts => sampleAt ts l) = samplesAt timestamps l := by
  refine Increasing.ext ?_ (h.sublist filter_sublist) fun x => ?_
  · refine pairwise_filterMap.mpr (htimes.imp fun {a b} hab x hx y hy => ?_)
    rw [(h.sampleAt_eq_some.mp hx).2, (h.sampleAt_eq_some.mp hy).2]
    exact hab
  · rw [mem_filterMap, samplesAt, mem_filter, decide_eq_true_eq]
    constructor
    · rintro ⟨ts, hts, hx⟩
      obtain ⟨hmem, rfl⟩ := h.sampleAt_eq_some.mp hx
      exact ⟨hmem, hts⟩
    · rintro ⟨hmem, hts⟩
      exact ⟨x.timestamp, hts, h.sampleAt_eq_some.mpr ⟨hmem, rfl⟩⟩

theorem advance_spec (htimes : timestamps.Pairwise (· < ·)) (ts : Int) :
    (advance ts timestamps).1 = decide (ts ∈ timestamps) ∧ (advance ts timestamps).2.Sublist timestamps
    ∧ ∀ u, ts < u → (u ∈ (advance ts timestamps).2 ↔ u ∈ timestamps) := by
  fun_induction advance ts timestamps with
  | case1 => simp
  | case2 =>
    refine ⟨by simp, nil_sublist _, fun u hu => ?_⟩
    simpa using hu.ne'
  | case3 t hne => exact ⟨by simpa using Ne.symm hne, List.Sublist.refl _, fun u _ => Iff.rfl⟩
  | case4 t rest hlt =>
      refine ⟨by simp, ((List.Sublist.refl _).cons _).cons _, fun u hu => ?_⟩
      have h₁ : u ≠ t := by omega
      have h₂ : u ≠ ts := by omega
      simp [h₁, h₂]
  | case5 t t' rest hlt hne ih =>
    obtain ⟨hfound, hsub, hmem⟩ := ih (pairwise_cons.mp htimes).2
    refine ⟨?_, hsub.cons _, fun u hu => ?_⟩
    · have h₁ : ts ≠ t := by omega
      rw [hfound, decide_eq_decide, mem_cons (a := ts) (b := t)]
      simp [h₁]
    · have h₁ : u ≠ t := by omega
      rw [hmem u hu, mem_cons (a := u) (b := t)]
      simp [h₁]
  | case6 t' rest hlt =>
    refine ⟨by simp, (List.Sublist.refl _).cons _, fun u hu => ?_⟩
    have h₁ : u ≠ ts := by omega
    simp [h₁]
  | case7 t t' rest hge hne =>
    refine ⟨?_, List.Sublist.refl _, fun u _ => Iff.rfl⟩
    refine (decide_eq_false fun hmem => ?_).symm
    rcases mem_cons.mp hmem with rfl | hmem
    · exact hne rfl
    · have := rel_of_pairwise_cons htimes hmem
      omega

/-- **Run lemma** of the lookups in a chunk. -/
theorem matchTimestamps_eq (h : Increasing l) (htimes : timestamps.Pairwise (· < ·)) :
    matchTimestamps l timestamps = samplesAt timestamps l := by
  induction l generalizing timestamps with
  | nil => cases timestamps <;> rfl
  | cons x l ih =>
    obtain ⟨hlt, hrest⟩ := pairwise_cons.mp h
    cases timestamps with
    | nil => simp [matchTimestamps, samplesAt]
    | cons t rest =>
      have hlater := (pairwise_cons.mp htimes).1
      -- what is left of the timestamps decides the later samples as the whole list does
      have hcongr {rest' : List Int} (hmem : ∀ u, x.timestamp < u → (u ∈ rest' ↔ u ∈ t :: rest)) :
          samplesAt rest' l = samplesAt (t :: rest) l :=
        filter_congr fun y hy => decide_eq_decide.mpr (hmem y.timestamp (hlt y hy))
      have hcons : samplesAt (t :: rest) (x :: l)
          = if x.timestamp ∈ t :: rest then x :: samplesAt (t :: rest) l else samplesAt (t :: rest) l := by
        rw [samplesAt, filter_cons]
        simp only [decide_eq_true_eq]
        rfl
      rw [matchTimestamps, hcons]
      split
      · rw [ih hrest htimes, if_neg]
        intro hmem
        rcases mem_cons.mp hmem with heq | hmem
        · omega
        · have := hlater _ hmem
          omega
      · split
        · rename_i heq
          rw [if_pos (by rw [heq]; exact mem_cons_self), ih hrest (pairwise_cons.mp htimes).2, hcongr]
          intro u hu
          have hne : u ≠ t := by omega
          simp [hne]
        · obtain ⟨hfound, hsub, hmem⟩ := advance_spec htimes x.timestamp
          split
          · rename_i rest' heq
            rw [heq] at hfound hsub hmem
            rw [if_pos (of_decide_eq_true hfound.symm), ih hrest (htimes.sublist hsub), hcongr hmem]
          · rename_i rest' heq
            rw [heq] at hfound hsub hmem
            rw [if_neg (of_decide_eq_false hfound.symm), ih hrest (htimes.sublist hsub), hcongr hmem]

end Lookups

/-! ### Lookups by chunk -/

section

variable [DecimalHelpers] {s : TimeSeries} {timestamps : List Int}

variable {c : TimeSeriesChunk}

theorem TimeSeriesChunk.Ok.samplesByTimestamps_eq (h : c.Ok)
    (htimes : timestamps.Pairwise (· < ·)) : c.samplesByTimestamps timestamps = samplesAt timestamps c.samples := by
  rw [samplesByTimestamps]
  rcases hfirst : timestamps.head? with - | first
  · rw [head?_eq_none_iff.mp hfirst]
    simp [samplesAt]
  rcases hlast : timestamps.getLast? with - | last
  · rw [getLast?_eq_none_iff.mp hlast] at hfirst
    cases hfirst
  dsimp only
  split
  · rename_i hlen
    rw [h.len_eq] at hlen
    rw [length_eq_zero_iff.mp hlen]
    rfl
  · have hsub : Increasing (samplesIn (max first c.firstTimestamp) (min last c.lastTimestamp) c.samples) :=
      h.run.increasing.sublist filter_sublist
    -- no sample at one of the timestamps is outside the range that is read
    rw [h.rangeIter_eq, matchTimestamps_eq hsub htimes, samplesAt, samplesIn, filter_filter]
    refine filter_congr fun x hx => ?_
    rw [← Bool.decide_and, decide_eq_decide, and_iff_left_iff_imp]
    intro hmem
    have hbounds := h.bounds hx
    have hle : first ≤ x.timestamp := by
      obtain ⟨rest, rfl⟩ := head?_eq_some_iff.mp hfirst
      rcases mem_cons.mp hmem with heq | hmem
      · exact heq.ge
      · exact (rel_of_pairwise_cons htimes hmem).le
    have hge : x.timestamp ≤ last := by
      obtain ⟨rest, rfl⟩ := getLast?_eq_some_iff.mp hlast
      rcases mem_append.mp hmem with hmem | hmem
      · exact ((pairwise_append.mp htimes).2.2 _ hmem _ mem_cons_self).le
      · exact (mem_singleton.mp hmem).le
    omega

theorem getChunkIndex_of_mem {cs₁ cs₂ : List TimeSeriesChunk}
    (h : ChunksOk (cs₁ ++ c :: cs₂)) {ts : Int} (hfirst : c.firstTimestamp ≤ ts) (hlast : ts ≤ c.lastTimestamp) :
    getChunkIndex (cs₁ ++ c :: cs₂) ts = (cs₁.length, true) := by
  refine getChunkIndex_inside (fun d hd => ?_) (fun d hd => ?_)
    (fun d hd => h.first_le_last (mem_append_left _ hd)) hfirst hlast
  · have := h.last_lt_first hd mem_cons_self
    omega
  · rw [append_cons] at h
    have := h.last_lt_first (a := c) (by simp) hd
    omega

namespace TimeSeries

theorem WF.flatMap_metaMap (h : s.WF) (htimes : timestamps.Pairwise (· < ·)) :
    (s.metaMap timestamps).flatMap (fun m => m.chunk.samplesByTimestamps m.timestamps)
    = samplesAt timestamps s.samples := by
  have hentry : ∀ entry ∈ s.chunks.zipIdx, entry.1.samplesByTimestamps
      (timestamps.filter fun ts => getChunkIndex s.chunks ts = (entry.2, true))
        = samplesAt timestamps entry.1.samples := by
    rintro ⟨c, i⟩ hmem
    have hget : s.chunks[i]? = some c := mem_zipIdx_iff_getElem?.mp hmem
    obtain ⟨hlt, hc⟩ := List.getElem?_eq_some_iff.mp hget
    have hsplit : s.chunks = s.chunks.take i ++ c :: s.chunks.drop (i + 1) := by
      rw [← hc, List.cons_getElem_drop_succ, List.take_append_drop]
    have hlen : (s.chunks.take i).length = i := length_take_of_le hlt.le
    have hok : c.Ok := h.chunks.ok c (mem_of_getElem? hget)
    rw [hok.samplesByTimestamps_eq (htimes.sublist filter_sublist)]
    refine filter_congr fun x hx => ?_
    have hbounds := hok.bounds hx
    have hchunks := h.chunks
    rw [hsplit] at hchunks
    have hidx : getChunkIndex s.chunks x.timestamp = (i, true) := by
      have := getChunkIndex_of_mem hchunks hbounds.1 hbounds.2
      rwa [← hsplit, hlen] at this
    rw [decide_eq_decide, mem_filter, decide_eq_true hidx]
    simp
  have hdrop (metas : List ChunkMeta) :
      (metas.filter fun m => !m.timestamps.isEmpty).flatMap (fun m => m.chunk.samplesByTimestamps m.timestamps)
        = metas.flatMap fun m => m.chunk.samplesByTimestamps m.timestamps := by
    induction metas with
    | nil => rfl
    | cons m metas ih =>
      rw [filter_cons, flatMap_cons, ← ih]
      split
      · rw [flatMap_cons]
      · rename_i hempty
        have hnil : m.timestamps = [] := by simpa using hempty
        rw [hnil]
        rfl
  rw [metaMap, hdrop, flatMap_map, flatMap_congr hentry, samplesAt, samples, stored, filter_flatMap]
  have hfst := congrArg (List.flatMap fun c : TimeSeriesChunk => samplesAt timestamps c.samples)
    (zipIdx_map_fst 0 s.chunks)
  rw [flatMap_map] at hfst
  exact hfst

/-- The map is read in some order, and the samples are sorted after that. -/
theorem WF.fetchParallel_eq (h : s.WF) (htimes : timestamps.Pairwise (· < ·)) {metas : List ChunkMeta}
    (hperm : metas.Perm (s.metaMap timestamps)) : fetchParallel metas = samplesAt timestamps s.samples := by
  have hflat := h.flatMap_metaMap htimes
  have hrun : Increasing (samplesAt timestamps s.samples) := h.run.increasing.sublist filter_sublist
  rw [fetchParallel]
  split
  · have hp := (hperm.flatMap_right fun m => m.chunk.samplesByTimestamps m.timestamps)
    rw [hflat] at hp
    refine List.Perm.eq_of_pairwise ?_ (pairwise_insertionSort ..) (hrun.imp fun {a b} hab => hab.le)
      ((perm_insertionSort ..).trans hp)
    intro a b ha hb hab hba
    have ha' : a ∈ samplesAt timestamps s.samples := ((perm_insertionSort ..).trans hp).mem_iff.mp ha
    have := hrun.sampleAt_eq_some.mpr ⟨ha', rfl⟩
    rw [hrun.sampleAt_eq_some.mpr ⟨hb, le_antisymm hba hab⟩] at this
    exact (Option.some.inj this).symm
  · -- there is one order at most
    rename_i hlen
    have heq : metas = s.metaMap timestamps := by
      match metas, hlen with
      | [], _ => exact (nil_perm.mp hperm).symm
      | [m], _ => exact singleton_perm.mp hperm
      | m :: m' :: metas, hlen => exact absurd (Nat.succ_lt_succ (Nat.succ_pos _)) hlen
    rw [heq, hflat]

theorem WF.samplesByTimestamps_eq (h : s.WF) (htimes : timestamps.Pairwise (· < ·)) :
    s.samplesByTimestamps timestamps = samplesAt timestamps s.samples := by
  rw [samplesByTimestamps]
  split
  · rename_i hempty
    rw [h.isEmpty_eq, decide_eq_true_eq, List.isEmpty_iff] at hempty
    rcases hempty with hnil | rfl
    · rw [hnil]
      rfl
    · simp [samplesAt]
  · exact h.fetchParallel_eq htimes (List.Perm.refl _)

theorem WF.getRangeFiltered_eq (h : s.WF) (start endTs : Int) (timestampFilter : Option (List Int))
    (valueFilter : Option ValueFilter) : s.getRangeFiltered start endTs timestampFilter valueFilter
    = (samplesIn start endTs s.visible).filter fun x => (timestampFilter.all fun tsFilter => x.timestamp ∈ tsFilter)
    && valueFilter.all fun filter => filter.keeps x.value := by
  rw [← samplesIn_visible]
  unfold getRangeFiltered
  have hmax : max (max start s.getMinTimestamp) s.getMinTimestamp = max start s.getMinTimestamp := by omega
  have hread := h.getRange_eq (max start s.getMinTimestamp) endTs
  rw [← samplesIn_visible, hmax] at hread
  generalize max start s.getMinTimestamp = start at hread ⊢
  have hsamples : (match timestampFilter with
      | some tsFilter => s.samplesByTimestamps (filterTimestampSlice tsFilter start endTs)
      | none => s.getRange start endTs)
        = (samplesIn start endTs s.samples).filter fun x =>
            timestampFilter.all fun tsFilter => x.timestamp ∈ tsFilter := by
    cases timestampFilter with
    | none =>
      rw [hread]
      exact (filter_eq_self.mpr fun x _ => rfl).symm
    | some tsFilter =>
      dsimp only
      have hslice : (filterTimestampSlice tsFilter start endTs).Pairwise (· < ·) := pairwise_sortDedup _
      rw [h.samplesByTimestamps_eq hslice, samplesAt, samplesIn, filter_filter]
      refine filter_congr fun x _ => ?_
      rw [Option.all_some, ← Bool.decide_and, decide_eq_decide, filterTimestampSlice, mem_sortDedup,
        mem_filter, decide_eq_true_eq]
  dsimp only
  split
  · rw [samplesIn_eq_nil fun x _ => by omega]
    rfl
  · rw [hsamples]
    cases valueFilter with
    | none =>
      refine filter_congr fun x _ => ?_
      rw [Option.all_none, Bool.and_true]
    | some filter =>
      dsimp only
      rw [filter_filter]
      refine filter_congr fun x _ => ?_
      rw [Option.all_some, Bool.and_comm]

end TimeSeries

/-! ### What the iterator keeps -/

/-- A walk that looks for `ts` leaves the chunk behind. -/
def PassedBy (isReverse : Bool) (ts : Int) (c : TimeSeriesChunk) : Prop :=
  if isReverse then ts < c.firstTimestamp else c.lastTimestamp < ts

/-- The timestamps that may still come once `ts` is looked up. -/
def After (isReverse : Bool) (ts t : Int) : Prop := if isReverse then t < ts else ts < t

variable {isReverse : Bool}

theorem PassedBy.mono {ts t : Int} (h : PassedBy isReverse ts c)
    (ht : After isReverse ts t) : PassedBy isReverse t c := by
  cases isReverse with
  | false => exact lt_trans h ht
  | true => exact lt_trans ht h

theorem PassedBy.not_covers {ts : Int} (h : PassedBy isReverse ts c) :
    ¬ (c.firstTimestamp ≤ ts ∧ ts ≤ c.lastTimestamp) := by
  cases isReverse with
  | false => exact fun hc => absurd h (not_lt.mpr hc.2)
  | true => exact fun hc => absurd h (not_lt.mpr hc.1)

def walk (s : TimeSeries) (isReverse : Bool) : List TimeSeriesChunk :=
  if isReverse then s.chunks.reverse else s.chunks

omit [DecimalHelpers] in
theorem mem_walk : c ∈ walk s isReverse ↔ c ∈ s.chunks := by
  cases isReverse with
  | false => rfl
  | true => exact mem_reverse

theorem TimeSeries.WF.walk_pairwise (h : s.WF) (isReverse : Bool) : (walk s isReverse).Pairwise fun a b =>
    if isReverse then b.lastTimestamp < a.firstTimestamp else a.lastTimestamp < b.firstTimestamp := by
  have hforward : s.chunks.Pairwise fun a b => a.lastTimestamp < b.firstTimestamp := by
    have hchunks := h.chunks
    revert hchunks
    generalize s.chunks = cs
    intro hcs
    induction cs with
    | nil => exact List.Pairwise.nil
    | cons c cs ih =>
      refine pairwise_cons.mpr ⟨fun d hd => ?_, ih hcs.tail⟩
      exact hcs.head_lt hd
  cases isReverse with
  | false => exact hforward
  | true => exact pairwise_reverse.mpr hforward

theorem TimeSeries.WF.sampleAt_none (h : s.WF) {t : Int}
    (hnone : ∀ c ∈ s.chunks, ¬ (c.firstTimestamp ≤ t ∧ t ≤ c.lastTimestamp)) : sampleAt t s.samples = none := by
  refine sampleAt_eq_none.mpr fun x hx hts => ?_
  obtain ⟨c, hc, hx⟩ := mem_stored.mp hx
  rw [← hts] at hnone
  exact hnone c hc ((h.chunks.ok c hc).bounds hx)

/-- The chunk that covers a timestamp has the sample if there is one. -/
theorem TimeSeries.WF.sampleAt_chunk (h : s.WF) {t : Int} (hc : c ∈ s.chunks)
    (hcover : c.firstTimestamp ≤ t ∧ t ≤ c.lastTimestamp) : sampleAt t s.samples = sampleAt t c.samples := by
  have hok := h.chunks.ok c hc
  rcases hat : sampleAt t c.samples with - | x
  · refine sampleAt_eq_none.mpr fun x hx hts => ?_
    obtain ⟨d, hd, hx⟩ := mem_stored.mp hx
    have hbounds := (h.chunks.ok d hd).bounds hx
    rcases eq_or_ne d c with rfl | hne
    · exact sampleAt_eq_none.mp hat x hx hts
    · -- two chunks do not share a timestamp
      obtain ⟨cs₁, cs₂, hcs⟩ := append_of_mem hc
      have hchunks := h.chunks
      rw [hcs] at hchunks hd
      rcases mem_append.mp hd with hd | hd
      · have := hchunks.last_lt_first hd mem_cons_self
        omega
      · rcases mem_cons.mp hd with rfl | hd
        · exact hne rfl
        · rw [append_cons] at hchunks
          have := hchunks.last_lt_first (a := c) (by simp) hd
          omega
  · obtain ⟨hx, hts⟩ := hok.run.increasing.sampleAt_eq_some.mp hat
    exact h.run.increasing.sampleAt_eq_some.mpr ⟨mem_stored.mpr ⟨c, hc, hx⟩, hts⟩

namespace TimestampFilterIterator

theorem seekChunk_spec {cs : List TimeSeriesChunk} (h : cs.Pairwise fun a b =>
      if isReverse then b.lastTimestamp < a.firstTimestamp else a.lastTimestamp < b.firstTimestamp)
    (hfl : ∀ c ∈ cs, c.firstTimestamp ≤ c.lastTimestamp) (ts : Int) :
    ∃ passed, cs = passed ++ (seekChunk isReverse ts cs).2 ∧ (∀ c ∈ passed, PassedBy isReverse ts c)
      ∧ match (seekChunk isReverse ts cs).1 with
        | none => ∀ c ∈ (seekChunk isReverse ts cs).2, ¬ (c.firstTimestamp ≤ ts ∧ ts ≤ c.lastTimestamp)
        | some c => (c.firstTimestamp ≤ ts ∧ ts ≤ c.lastTimestamp)
            ∧ ∃ rest, (seekChunk isReverse ts cs).2 = c :: rest := by
  induction cs with
  | nil => exact ⟨[], rfl, by simp, by simp [seekChunk]⟩
  | cons c cs ih =>
    obtain ⟨hc, hrest⟩ := pairwise_cons.mp h
    obtain ⟨passed, heq, hpassed, hres⟩ := ih hrest fun d hd => hfl d (mem_cons_of_mem _ hd)
    -- the walk goes on
    have hon (hp : PassedBy isReverse ts c) :
        ∀ d ∈ c :: passed, PassedBy isReverse ts d := by
      exact forall_mem_cons.mpr ⟨hp, hpassed⟩
    rw [seekChunk]
    split
    · rename_i hlt
      cases isReverse with
      | true => exact ⟨c :: passed, congrArg (c :: ·) heq, hon hlt, hres⟩
      | false =>
        refine ⟨[], rfl, by simp, fun d hd => ?_⟩
        rcases mem_cons.mp hd with rfl | hd
        · omega
        · have hcd : c.lastTimestamp < d.firstTimestamp := hc d hd
          have := hfl c mem_cons_self
          omega
    · split
      · rename_i hgt
        cases isReverse with
        | false => exact ⟨c :: passed, congrArg (c :: ·) heq, hon hgt, hres⟩
        | true =>
          refine ⟨[], rfl, by simp, fun d hd => ?_⟩
          rcases mem_cons.mp hd with rfl | hd
          · omega
          · have hcd : d.lastTimestamp < c.firstTimestamp := hc d hd
            omega
      · exact ⟨[], rfl, by simp, by omega, cs, rfl⟩

/-- Nothing that a timestamp to come could ask for has been passed. -/
structure Tracks (s : TimeSeries) (it : TimestampFilterIterator) (next : Int → Prop) : Prop where
  skipped : ∃ passed, walk s it.isReverse = passed ++ it.chunks
    ∧ ∀ c ∈ passed, ∀ ts, next ts → PassedBy it.isReverse ts c
  current : ∀ c, it.chunk = some c → c ∈ s.chunks ∧
    if it.randomAccess then it.buffer = c.samples
    else it.isReverse = false ∧ ∃ k, it.sampleIter = c.samples.filter (fun x => k ≤ x.timestamp)
      ∧ ∀ ts, next ts → k ≤ ts

variable {it : TimestampFilterIterator} {next next' : Int → Prop}

theorem Tracks.mono (h : Tracks s it next) (hnext : ∀ ts, next' ts → next ts) : Tracks s it next' := by
  obtain ⟨⟨passed, hwalk, hpassed⟩, hcurrent⟩ := h
  refine ⟨⟨passed, hwalk, fun c hc ts hts => hpassed c hc ts (hnext ts hts)⟩, fun c hc => ?_⟩
  obtain ⟨hmem, hread⟩ := hcurrent c hc
  refine ⟨hmem, ?_⟩
  split
  · rwa [if_pos ‹_›] at hread
  · rw [if_neg ‹_›] at hread
    obtain ⟨hrev, k, hiter, hk⟩ := hread
    exact ⟨hrev, k, hiter, fun ts hts => hk ts (hnext ts hts)⟩

theorem tracks_new (h : s.WF) (isReverse : Bool) : Tracks s (new s isReverse) fun _ => True := by
  refine ⟨⟨[], ?_, by simp⟩, fun c hc => absurd hc (by simp [new])⟩
  rw [nil_append, new, walk]
  dsimp only
  split
  · split
    · rename_i hempty
      rw [h.isEmpty_eq, decide_eq_true_eq] at hempty
      rw [h.chunks_eq_nil hempty]
      rfl
    · rfl
  · split
    · rename_i hempty
      rw [h.isEmpty_eq, decide_eq_true_eq] at hempty
      exact h.chunks_eq_nil hempty
    · rfl

theorem fillBuffer_eq (h : c.Ok) : fillBuffer c = c.samples := by
  have hall : c.rangeIter c.firstTimestamp c.lastTimestamp = c.samples := by
    rw [h.rangeIter_eq]
    exact samplesIn_eq_self fun x hx => h.bounds hx
  cases c with
  | uncompressed c => rfl
  | gorilla c => exact hall
  | chimp c => exact hall

/-- The iterator stands in the chunk that covers the timestamp, or there is none. -/
theorem Tracks.ensureChunk_spec (h : s.WF) (htracks : Tracks s it next) {ts : Int} (hts : next ts)
    (hnext : ∀ t, After it.isReverse ts t → next t) : (it.ensureChunkForTimestamp ts).isReverse = it.isReverse
      ∧ Tracks s (it.ensureChunkForTimestamp ts) (fun t => t = ts ∨ After it.isReverse ts t)
      ∧ match (it.ensureChunkForTimestamp ts).chunk with
        | none => ∀ c ∈ s.chunks, ¬ (c.firstTimestamp ≤ ts ∧ ts ≤ c.lastTimestamp)
        | some c => c.firstTimestamp ≤ ts ∧ ts ≤ c.lastTimestamp := by
  have hnext' : ∀ t, t = ts ∨ After it.isReverse ts t → next t := by
    rintro t (rfl | ht)
    · exact hts
    · exact hnext t ht
  rw [ensureChunkForTimestamp]
  split
  · rename_i hcover
    refine ⟨rfl, htracks.mono hnext', ?_⟩
    cases hc : it.chunk with
    | none => rw [hc] at hcover; cases hcover
    | some c =>
      rw [hc] at hcover
      exact of_decide_eq_true hcover
  · obtain ⟨passed, hwalk, hpassed⟩ := htracks.skipped
    have hpair := h.walk_pairwise it.isReverse
    have hmem : ∀ c ∈ passed ++ it.chunks, c ∈ s.chunks := fun c hc => mem_walk.mp (hwalk ▸ hc)
    rw [hwalk] at hpair
    obtain ⟨more, hmore, hleft, hres⟩ := seekChunk_spec (pairwise_append.mp hpair).2.1
      (fun c hc => h.chunks.first_le_last (hmem c (mem_append_right _ hc))) ts
    generalize hseek : seekChunk it.isReverse ts it.chunks = r at hmore hres ⊢
    obtain ⟨found, chunks⟩ := r
    -- the chunks passed so far are passed by every timestamp to come
    have hskipped : ∃ passed, walk s it.isReverse = passed ++ chunks ∧ ∀ c ∈ passed, ∀ t,
        t = ts ∨ After it.isReverse ts t → PassedBy it.isReverse t c := by
      refine ⟨passed ++ more, by rw [append_assoc, ← hmore, hwalk], fun c hc t ht => ?_⟩
      rcases mem_append.mp hc with hc | hc
      · exact hpassed c hc t (hnext' t ht)
      · rcases ht with rfl | ht
        · exact hleft c hc
        · exact (hleft c hc).mono ht
    cases found with
    | none =>
      refine ⟨rfl, ⟨hskipped, fun c hc => absurd hc (by simp)⟩, fun c hc => ?_⟩
      obtain ⟨passed, hwalk, hpassed⟩ := hskipped
      rcases mem_append.mp (hwalk ▸ mem_walk.mpr hc) with hc | hc
      · exact (hpassed c hc ts (.inl rfl)).not_covers
      · exact hres c hc
    | some c =>
      obtain ⟨hcover, rest, hrest⟩ := hres
      have hc : c ∈ s.chunks := by
        refine hmem c (mem_append_right _ ?_)
        rw [hmore]
        exact mem_append_right _ (by rw [show chunks = c :: rest from hrest]; exact mem_cons_self)
      dsimp only
      split
      · refine ⟨rfl, ⟨hskipped, fun d hd => ?_⟩, hcover⟩
        obtain rfl : c = d := Option.some.inj hd
        exact ⟨hc, fillBuffer_eq (h.chunks.ok c hc)⟩
      · rename_i hforward
        refine ⟨rfl, ⟨hskipped, fun d hd => ?_⟩, hcover⟩
        obtain rfl : c = d := Option.some.inj hd
        have hrev : it.isReverse = false := by
          cases hr : it.isReverse with
          | false => rfl
          | true => exact absurd (.inl hr) hforward
        refine ⟨hc, hrev, ts, ?_, fun t ht => ?_⟩
        · rw [(h.chunks.ok c hc).rangeIter_eq]
          refine filter_congr fun x hx => ?_
          have := ((h.chunks.ok c hc).bounds hx).2
          rw [decide_eq_decide]
          omega
        · rw [hrev] at ht
          rcases ht with rfl | ht
          · exact le_rfl
          · exact le_of_lt ht

omit [DecimalHelpers] in
theorem binarySearch_eq {l : List Sample} (h : Increasing l) (ts : Int) : binarySearch ts l = sampleAt ts l := by
  have hlt {l' : List Sample} (hl' : ∀ x ∈ l', x.timestamp < ts) :
      ∀ x ∈ l', compare x.timestamp ts = .lt := fun x hx => compare_lt_iff_lt.mpr (hl' x hx)
  have hgt {l' : List Sample} (hl' : ∀ x ∈ l', ts < x.timestamp) :
      ∀ x ∈ l', compare x.timestamp ts = .gt := fun x hx => compare_gt_iff_gt.mpr (hl' x hx)
  rw [binarySearch]
  cases h.sorted.place ts with
  | absent h₁ h₂ =>
    rw [binarySearchBy_absent (hlt h₁) (hgt h₂)]
    refine (sampleAt_eq_none.mpr fun x hx hts => ?_).symm
    rcases mem_append.mp hx with hx | hx
    · exact (h₁ x hx).ne hts
    · exact (h₂ x hx).ne' hts
  | present h₁ hb h₂ =>
    rw [binarySearchBy_present (fun x hx => (hlt h₁ x hx).trans_ne (by decide)) (compare_eq_iff_eq.mpr hb) (hgt h₂)]
    dsimp only
    rw [getElem?_append_right (Nat.le_refl _), Nat.sub_self]
    exact (h.sampleAt_eq_some.mpr ⟨by simp, hb⟩).symm

omit [DecimalHelpers] in
theorem scan_spec {l : List Sample} (h : Increasing l) (ts : Int) : (scan ts l).1 = sampleAt ts l
    ∧ ((scan ts l).1 ≠ none → (scan ts l).2 = l.filter fun x => ts + 1 ≤ x.timestamp) := by
  induction l with
  | nil => exact ⟨rfl, fun hne => absurd rfl hne⟩
  | cons x l ih =>
    obtain ⟨hlt, hrest⟩ := pairwise_cons.mp h
    rw [scan]
    split
    · rename_i heq
      refine ⟨(h.sampleAt_eq_some.mpr ⟨mem_cons_self, heq⟩).symm, fun _ => ?_⟩
      rw [filter_cons_of_neg (by simpa using heq.le)]
      refine (filter_eq_self.mpr fun y hy => decide_eq_true ?_).symm
      have := hlt y hy
      omega
    · split
      · rename_i hne hgt
        refine ⟨(sampleAt_eq_none.mpr fun y hy hts => ?_).symm, fun hne => absurd rfl hne⟩
        rcases mem_cons.mp hy with rfl | hy
        · exact hne hts
        · have := hlt y hy
          omega
      · rename_i hne hle
        obtain ⟨hfound, hleft⟩ := ih hrest
        refine ⟨?_, fun hsome => ?_⟩
        · rw [hfound, sampleAt, sampleAt, find?_cons_of_neg (by simpa using hne)]
        · rw [hleft hsome, filter_cons_of_neg (by simp; omega)]

/-- **Step lemma**: the sample at a timestamp is found, and those to come will be. -/
theorem Tracks.getSample_spec (h : s.WF) (htracks : Tracks s it next) {ts : Int} (hts : next ts)
    (hnext : ∀ t, After it.isReverse ts t → next t) :
    (it.getSample ts).1 = sampleAt ts s.samples ∧ (it.getSample ts).2.isReverse = it.isReverse
    ∧ Tracks s (it.getSample ts).2 (After it.isReverse ts) := by
  obtain ⟨hrev, htracks', hcover⟩ := htracks.ensureChunk_spec h hts hnext
  rw [getSample]
  generalize it.ensureChunkForTimestamp ts = it' at hrev htracks' hcover ⊢
  have hafter : Tracks s it' (After it.isReverse ts) := htracks'.mono fun t ht => .inr ht
  cases hchunk : it'.chunk with
  | none =>
    rw [hchunk] at hcover
    exact ⟨(h.sampleAt_none hcover).symm, hrev, hafter⟩
  | some c =>
    rw [hchunk] at hcover
    obtain ⟨hc, hread⟩ := htracks'.current c hchunk
    have hok := h.chunks.ok c hc
    rw [if_neg (by simp), h.sampleAt_chunk hc hcover]
    split
    · rename_i hrandom
      rw [if_pos hrandom] at hread
      rw [hread, binarySearch_eq hok.run.increasing]
      exact ⟨rfl, hrev, hafter⟩
    · rename_i hrandom
      rw [if_neg hrandom] at hread
      obtain ⟨hforward, k, hiter, hk⟩ := hread
      have hkts : k ≤ ts := hk ts (.inl rfl)
      obtain ⟨hfound, hleft⟩ := scan_spec (l := it'.sampleIter)
        (by rw [hiter]; exact hok.run.increasing.sublist filter_sublist) ts
      have hsame : sampleAt ts it'.sampleIter = sampleAt ts c.samples := by
        rw [hiter, sampleAt, sampleAt, find?_filter]
        congr 1
        funext x
        rw [decide_eq_decide, decide_eq_true_eq, decide_eq_true_eq]
        omega
      generalize scan ts it'.sampleIter = r at hfound hleft ⊢
      obtain ⟨found, sampleIter⟩ := r
      cases found with
      | none => exact ⟨hfound.trans hsame, hrev, hafter.skipped, fun d hd => absurd hd (by simp)⟩
      | some x =>
        refine ⟨hfound.trans hsame, hrev, hafter.skipped, fun d hd => ?_⟩
        obtain rfl : c = d := Option.some.inj hd
        rw [if_neg hrandom]
        refine ⟨hc, hforward, ts + 1, ?_, fun t ht => ?_⟩
        · refine (hleft (by simp)).trans ?_
          rw [hiter, filter_filter]
          refine filter_congr fun y _ => ?_
          rw [← Bool.decide_and, decide_eq_decide]
          omega
        · rw [← hrev, hforward] at ht
          exact ht

/-- **Run lemma**: every timestamp is looked up in the whole series. -/
theorem Tracks.collect_eq (h : s.WF) (timestamps : List Int) (htracks : Tracks s it next)
    (hnext : ∀ t ∈ timestamps, next t) (hclosed : ∀ t t', next t → After it.isReverse t t' → next t')
    (htimes : timestamps.Pairwise (After it.isReverse)) :
    it.collect timestamps = timestamps.filterMap fun ts => sampleAt ts s.samples := by
  induction timestamps generalizing it next with
  | nil => rfl
  | cons ts timestamps ih =>
    obtain ⟨hlater, hrest⟩ := pairwise_cons.mp htimes
    have hts := hnext ts mem_cons_self
    obtain ⟨hfound, hrev, htracks'⟩ := htracks.getSample_spec h hts fun t ht => hclosed ts t hts ht
    rw [collect, filterMap_cons, ← hfound]
    generalize it.getSample ts = r at hfound hrev htracks' ⊢
    obtain ⟨found, it'⟩ := r
    have hrest' := ih htracks' hlater (by
      rw [hrev]
      intro t t' ht ht'
      cases hr : it.isReverse with
      | false =>
        rw [hr] at ht ht'
        exact lt_trans ht ht'
      | true =>
        rw [hr] at ht ht'
        exact lt_trans ht' ht) (by rwa [hrev])
    cases found with
    | none => exact hrest'
    | some x => exact congrArg (x :: ·) hrest'

end TimestampFilterIterator

namespace TimeSeries

/-- The iterator yields the visible samples at the timestamps, in its direction. -/
theorem WF.timestampFilterIterator_eq (h : s.WF) (timestamps : List Int) (isReverse : Bool) :
    s.timestampFilterIterator timestamps isReverse
    = if isReverse then (samplesAt timestamps s.visible).reverse else samplesAt timestamps s.visible := by
  rw [timestampFilterIterator]
  have htimes : ((sortDedup timestamps).filter fun ts => ts ≥ s.getMinTimestamp).Pairwise (· < ·) :=
    (pairwise_sortDedup timestamps).sublist filter_sublist
  have hat : samplesAt ((sortDedup timestamps).filter fun ts => ts ≥ s.getMinTimestamp) s.samples
      = samplesAt timestamps s.visible := by
    rw [samplesAt, samplesAt, visible, filter_filter]
    refine filter_congr fun x _ => ?_
    rw [← Bool.decide_and, decide_eq_decide, mem_filter, mem_sortDedup, decide_eq_true_eq]
  generalize (sortDedup timestamps).filter (fun ts => ts ≥ s.getMinTimestamp) = looked at htimes hat ⊢
  have hwalk := (TimestampFilterIterator.tracks_new h isReverse).collect_eq h
    (if isReverse then looked.reverse else looked) (fun _ _ => trivial)
    (fun _ _ _ _ => trivial)
  rw [hwalk]
  · rw [← hat, ← filterMap_sampleAt h.run.increasing htimes]
    cases isReverse with
    | false => rfl
    | true => exact filterMap_reverse
  · cases isReverse with
    | false => exact htimes
    | true => exact pairwise_reverse.mpr htimes

/-- **Every read path filters the visible samples**: whole ranges forwards and backwards,
ranges with filters, lookups by timestamp, and the test for samples in a range. -/
theorem reads_eq_filter_visible (s : TimeSeries) (h : s.WF) (start endTs : Int) (timestamps : List Int)
    (htimes : timestamps.Pairwise (· < ·)) (valueFilter : Option ValueFilter) :
    s.getRange start endTs = samplesIn start endTs s.visible
      ∧ s.rangeIter start endTs = samplesIn start endTs s.visible
      ∧ (s.revRangeIter start endTs).reverse = samplesIn start endTs s.visible
      ∧ s.getRangeFiltered start endTs none valueFilter
          = (samplesIn start endTs s.visible).filter (fun x => valueFilter.all fun f => f.keeps x.value)
      ∧ s.getRangeFiltered start endTs (some timestamps) valueFilter
          = (samplesIn start endTs s.visible).filter
              (fun x => decide (x.timestamp ∈ timestamps) && valueFilter.all fun f => f.keeps x.value)
      ∧ ((∀ t ∈ timestamps, s.getMinTimestamp ≤ t) →
          s.samplesByTimestamps timestamps = samplesAt timestamps s.visible)
      ∧ s.timestampFilterIterator timestamps false = samplesAt timestamps s.visible
      ∧ (s.timestampFilterIterator timestamps true).reverse = samplesAt timestamps s.visible
      ∧ s.hasSamplesInRange start endTs = decide (samplesIn start endTs s.visible ≠ []) := by
  refine ⟨h.getRange_eq start endTs, h.rangeIter_eq start endTs, ?_, ?_, ?_, fun hin => ?_, ?_, ?_,
    h.hasSamplesInRange_eq start endTs⟩
  · rw [h.revRangeIter_eq, reverse_reverse]
  · rw [h.getRangeFiltered_eq]
    rfl
  · rw [h.getRangeFiltered_eq]
    rfl
  · rw [h.samplesByTimestamps_eq htimes, samplesAt, samplesAt, visible, filter_filter]
    refine filter_congr fun x _ => ?_
    rw [← Bool.decide_and, decide_eq_decide, iff_self_and]
    exact hin x.timestamp
  · exact h.timestampFilterIterator_eq timestamps false
  · rw [h.timestampFilterIterator_eq timestamps true, if_pos rfl, reverse_reverse]

end TimeSeries

end

namespace TimeSeries

/-- The reads of a range that starts before the window. -/
theorem reads_eq_filter_visible_untrimmed : letI := oneTenth
    untrimmed.getRange 0 200 = [⟨100, 2⟩, ⟨150, 3⟩] ∧ untrimmed.rangeIter 0 200 = [⟨100, 2⟩, ⟨150, 3⟩]
      ∧ untrimmed.timestampFilterIterator [0, 100] true = [⟨100, 2⟩] := by
  let _ := oneTenth
  obtain ⟨hrange, hiter, -, -, -, -, -, hfilter, -⟩ :=
    reads_eq_filter_visible untrimmed untrimmed_wf 0 200 [0, 100] (by decide) none
  exact ⟨hrange.trans (by decide), hiter.trans (by decide), by
    decide⟩

end TimeSeries

end ValkeyTimeSeries
