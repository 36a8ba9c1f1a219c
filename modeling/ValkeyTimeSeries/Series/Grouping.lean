/-
Series/Grouping.lean

Where a batch goes (`group_samples_by_chunk`).

Design.  The batch is cut into groups from left to right.  What one chunk takes lies
behind the chunks before it and in front of those after it (`Fits`), and what is left
lies behind the chunk.
-/
import ValkeyTimeSeries.Series.Run

namespace ValkeyTimeSeries

open List

def ChunkHolder.position : ChunkHolder → Option Nat
  | existingIdx idx => some idx
  | new => none

/-- The chunks that groups are merged into, which are borrowed all at once. -/
def positions (groups : List ChunkSampleGroup) : List Nat := groups.filterMap (·.chunk.position)

theorem NewGroups.parts {groups : List ChunkSampleGroup} {samples : List Sample} (h : NewGroups groups samples) :
    batchOf groups = samples ∧ positions groups = [] ∧ ∀ g ∈ groups, g.chunk = .new ∧ ∀ x ∈ g.samples, x ∈ samples := by
  obtain ⟨pieces, rfl, rfl, -⟩ := h
  refine ⟨batchOf_new pieces, ?_, ?_⟩
  · rw [positions, filterMap_map]
    exact filterMap_eq_nil_iff.mpr fun _ _ => rfl
  · intro g hg
    obtain ⟨piece, hpiece, rfl⟩ := mem_map.mp hg
    exact ⟨rfl, fun x hx => mem_flatten.mpr ⟨piece, hpiece, hx⟩⟩

variable [DecimalHelpers]

/-- A group can be merged without its chunk reaching into another one. -/
def ChunkSampleGroup.Fits (cs : List TimeSeriesChunk) (g : ChunkSampleGroup) : Prop :=
  match g.chunk with
  | .existingIdx idx => idx < cs.length ∧ ∀ x ∈ g.samples,
      (∀ c ∈ cs.take idx, c.lastTimestamp < x.timestamp) ∧ ∀ c ∈ cs.drop (idx + 1), x.timestamp < c.firstTimestamp
  | .new => (∀ x ∈ g.samples, ∀ c ∈ cs, x.timestamp < c.firstTimestamp)
      ∨ ∀ x ∈ g.samples, ∀ c ∈ cs, c.lastTimestamp < x.timestamp

variable {cs : List TimeSeriesChunk} {samples : List Sample}

/-- The groups for the chunks behind `done`, and the samples that are left. -/
structure Grouped (done cs : List TimeSeriesChunk) (samples : List Sample) (r : List ChunkSampleGroup × List Sample) :
    Prop where
  batch : batchOf r.1 ++ r.2 = samples
  pairs : (positions r.1).Pairwise (· < ·)
  bound : ∀ i ∈ positions r.1, done.length ≤ i
  fits : ∀ g ∈ r.1, g.Fits (done ++ cs)
  behind : ∀ x ∈ r.2, ∀ c ∈ done ++ cs, c.lastTimestamp < x.timestamp

theorem groupExisting_grouped (bps : Nat) (done : List TimeSeriesChunk) (h : Spans (done ++ cs))
    (hinc : Increasing samples)
    (hdone : ∀ x ∈ samples, ∀ c ∈ done, c.lastTimestamp < x.timestamp) :
    Grouped done cs samples (groupExisting bps done.length cs samples) := by
  induction cs generalizing done samples with
  | nil => exact ⟨rfl, .nil,
      by simp [groupExisting, positions], by simp [groupExisting], (append_nil done).symm ▸ hdone⟩
  | cons c cs ih =>
    obtain ⟨group, rest, rfl, hgroups, hleft, hrest, hin⟩ := groupExisting_cons bps done.length c cs hinc
    rw [append_cons] at h
    have hdone' : ∀ x ∈ rest, ∀ d ∈ done ++ [c], d.lastTimestamp < x.timestamp := fun x hx =>
      forall_mem_append.mpr ⟨hdone x (mem_append_right _ hx), forall_mem_singleton.mpr (hrest x hx)⟩
    obtain ⟨hbatch, hpairs, hbound, hfits, hbehind⟩ := ih _ h (pairwise_append.mp hinc).2.1 hdone'
    rw [length_append, length_singleton] at hbatch hpairs hbound hfits hbehind
    rw [← append_cons] at hfits hbehind
    have hlater : ∀ i ∈ _, done.length ≤ i := fun i hi => (Nat.le_succ _).trans (hbound i hi)
    rw [← hleft] at hbatch hbehind
    refine ⟨?_, ?_, ?_, ?_, hbehind⟩ <;> rw [hgroups]
    · rw [batchOf_withGroup, append_assoc, hbatch]
    · split
      · exact hpairs
      · exact pairwise_cons.mpr ⟨hbound, hpairs⟩
    · split
      · exact hlater
      · exact forall_mem_cons.mpr ⟨Nat.le_refl _, hlater⟩
    · split
      · exact hfits
      · refine forall_mem_cons.mpr ⟨⟨by simp, fun x hx => ?_⟩, hfits⟩
        rw [take_left, ← drop_drop, drop_left, drop_one, tail_cons]
        refine ⟨hdone x (mem_append_left _ hx), fun d hd => ?_⟩
        rcases hin x hx with hle | ⟨rfl, -⟩
        · exact hle.trans_lt ((pairwise_append.mp h.apart).2.2 c (by simp) d hd)
        · exact absurd hd not_mem_nil

/-- **Grouping.**  A sorted batch is cut into groups without loss and in order, the chunks that take part are different
ones in ascending order, and every group fits. -/
theorem groups_partition [FloatOps] {s : TimeSeries} (h : Spans s.chunks) (hempty : s.isEmpty = true → s.chunks = [])
    (hinc : Increasing samples) :
    batchOf (s.groupSamplesByChunk samples) = samples
      ∧ (positions (s.groupSamplesByChunk samples)).Pairwise (· < ·)
      ∧ ∀ g ∈ s.groupSamplesByChunk samples, g.Fits s.chunks := by
  have hnew {groups : List ChunkSampleGroup} {part : List Sample} (hgroups : NewGroups groups part)
      (hpart : (∀ x ∈ part, ∀ c ∈ s.chunks, x.timestamp < c.firstTimestamp)
        ∨ ∀ x ∈ part, ∀ c ∈ s.chunks, c.lastTimestamp < x.timestamp) : ∀ g ∈ groups, g.Fits s.chunks := by
    intro g hg
    obtain ⟨hchunk, hsub⟩ := hgroups.parts.2.2 g hg
    rw [ChunkSampleGroup.Fits, hchunk]
    exact hpart.imp (fun hall x hx => hall x (hsub x hx)) fun hall x hx => hall x (hsub x hx)
  unfold TimeSeries.groupSamplesByChunk
  split
  · rename_i hnil
    rw [isEmpty_iff.mp hnil]
    exact ⟨rfl, .nil, by simp⟩
  split
  · rename_i hnone
    have hchunks : s.chunks = [] := hnone.elim isEmpty_iff.mp hempty
    have hgroups := newGroups_appends samples s.chunkSizeBytes (s.estimateBps samples)
    obtain ⟨hbatch, hpos, -⟩ := hgroups.parts
    exact ⟨hbatch, hpos ▸ .nil, hnew hgroups (.inl (by simp [hchunks]))⟩
  rename_i hsome
  obtain ⟨c, cs, hcs⟩ := exists_cons_of_ne_nil fun hnil => hsome (.inl (isEmpty_iff.mpr hnil))
  have hhead : (s.chunks.head?.map (·.firstTimestamp)).getD 0 = c.firstTimestamp := by rw [hcs]; rfl
  dsimp only
  rw [hhead]
  have holder := newGroups_backfill (samples.takeWhile fun x => x.timestamp < c.firstTimestamp) s.chunkSizeBytes
    (s.estimateBps samples)
  obtain ⟨hbatch, hpos, -⟩ := holder.parts
  have hbefore := hnew holder (.inl fun x hx => by
    have hlt : x.timestamp < c.firstTimestamp := by simpa using mem_takeWhile_imp hx
    rw [hcs] at h ⊢
    refine forall_mem_cons.mpr ⟨hlt, fun d hd => ?_⟩
    exact hlt.trans ((h.le c mem_cons_self).trans_lt ((pairwise_cons.mp h.apart).1 d hd)))
  have hsplit := takeWhile_append_dropWhile (p := fun x : Sample => decide (x.timestamp < c.firstTimestamp))
    (l := samples)
  split
  · rename_i hnil
    rw [isEmpty_iff.mp hnil, append_nil] at hsplit
    exact ⟨hbatch.trans hsplit, hpos ▸ .nil, hbefore⟩
  · have hgrouped := groupExisting_grouped (s.estimateBps samples) [] h
      (hinc.sublist (dropWhile_sublist fun x => decide (x.timestamp < c.firstTimestamp))) (by simp)
    rw [length_nil] at hgrouped
    generalize groupExisting (s.estimateBps samples) 0 s.chunks _ = r at hgrouped ⊢
    have hlater := newGroups_appends r.2 s.chunkSizeBytes (s.estimateBps samples)
    obtain ⟨hbatch', hpos', -⟩ := hlater.parts
    refine ⟨?_, ?_, ?_⟩
    · rw [batchOf, flatMap_append, flatMap_append, append_assoc]
      exact (congrArg₂ (· ++ ·) hbatch ((congrArg (_ ++ ·) hbatch').trans hgrouped.batch)).trans hsplit
    · rw [positions, filterMap_append, filterMap_append]
      change (positions _ ++ positions _ ++ positions _).Pairwise _
      rw [hpos, hpos', append_nil]
      exact hgrouped.pairs
    · exact forall_mem_append.mpr ⟨forall_mem_append.mpr ⟨hbefore, hgrouped.fits⟩, hnew hlater (.inr hgrouped.behind)⟩

def twoTens : TimeSeries := { TimeSeries.fresh with chunks := tens 2, totalSamples := 2 }

/-- Samples at, between and behind the chunks. -/
def fourApart : List Sample := [⟨0, 1⟩, ⟨5, 0⟩, ⟨10, 2⟩, ⟨25, 0⟩]

omit [DecimalHelpers] in
theorem groups_partition_between : letI := oneTenth
    letI := TimeSeries.defaultEnv
    batchOf (twoTens.groupSamplesByChunk fourApart) = fourApart
      ∧ (positions (twoTens.groupSamplesByChunk fourApart)).Pairwise (· < ·)
      ∧ ∀ g ∈ twoTens.groupSamplesByChunk fourApart, g.Fits twoTens.chunks :=
  letI := oneTenth
  letI := TimeSeries.defaultEnv
  groups_partition ⟨by decide, by decide⟩ (by decide) (by decide)

end ValkeyTimeSeries
