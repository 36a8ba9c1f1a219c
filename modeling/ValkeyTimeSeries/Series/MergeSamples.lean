/-
Series/MergeSamples.lean

Merging a batch keeps a series well formed, and puts the samples of the batch into the sorted list it stores.

Design.  Every group is a piece of the batch that lies between two pieces of the stored list, so merging the
groups chunk by chunk is putting the whole batch into the whole list (`putAll_append_of_lt` and
`putAll_append_of_gt`).
-/
import ValkeyTimeSeries.Series.BulkAdd
import ValkeyTimeSeries.Series.Add

namespace ValkeyTimeSeries

open List SortedList Nat TimeSeriesChunk

/-! ### Slices -/

variable {samples : List Sample}

theorem slices_flatten {size : Nat} (hsize : 0 < size) {fuel : Nat}
    (hfuel : samples.length ≤ fuel) : (slices size fuel samples).flatten = samples := by
  induction fuel generalizing samples with
  | zero => exact (length_eq_zero_iff.mp (le_zero.mp hfuel)).symm
  | succ fuel ih =>
    rw [slices]
    split
    · rename_i hnil
      exact (isEmpty_iff.mp hnil).symm
    · have hdrop : (samples.drop size).length ≤ fuel := by
        rw [length_drop]
        omega
      rw [flatten_cons, ih hdrop, take_append_drop]

theorem slices_ne_nil {size : Nat} (hsize : 0 < size) {fuel : Nat} {slice : List Sample}
    (h : slice ∈ slices size fuel samples) : slice ≠ [] := by
  induction fuel generalizing samples with
  | zero => exact absurd h not_mem_nil
  | succ fuel ih =>
    rw [slices] at h
    split at h
    · exact absurd h not_mem_nil
    · rename_i hne
      rcases mem_cons.mp h with rfl | h
      · intro hnil
        rcases take_eq_nil_iff.mp hnil with hzero | hnil
        · exact absurd hzero hsize.ne'
        · exact hne (isEmpty_iff.mpr hnil)
      · exact ih h

def NewGroups (groups : List ChunkSampleGroup) (samples : List Sample) : Prop :=
  ∃ pieces : List (List Sample), groups = pieces.map (fun piece => ⟨.new, piece⟩)
    ∧ pieces.flatten = samples ∧ ∀ piece ∈ pieces, piece ≠ []

theorem newGroups_nil : NewGroups [] [] := ⟨[], rfl, rfl, by simp⟩

theorem newGroups_push {size : Nat} (hsize : 0 < size) : NewGroups (pushNewGroups samples size) samples :=
  ⟨_, rfl, slices_flatten hsize (Nat.le_refl _), fun _ h => slices_ne_nil hsize h⟩

theorem newGroups_appends (samples : List Sample) (chunkSize bps : Nat) :
    NewGroups (addChunksForAppends samples chunkSize bps) samples := by
  unfold addChunksForAppends
  split
  · rename_i hnil
    rw [isEmpty_iff.mp hnil]
    exact newGroups_nil
  · rename_i hne
    split
    · exact newGroups_push (length_pos_iff.mpr fun h => hne (isEmpty_iff.mpr h))
    · exact newGroups_push (by omega)

theorem newGroups_backfill (samples : List Sample) (chunkSize bps : Nat) :
    NewGroups (addChunksForBackfill samples chunkSize bps) samples := by
  unfold addChunksForBackfill
  dsimp only
  split
  · rename_i hnil
    rw [length_eq_zero_iff.mp hnil]
    exact newGroups_nil
  · rename_i hne
    have hpos : 0 < samples.length := pos_of_ne_zero hne
    split
    · exact newGroups_push hpos
    · -- a share of at least one sample: the number of chunks is not larger than their number
      have hcap : 0 < max (samplesFor chunkSize bps) 1 := by omega
      generalize max (samplesFor chunkSize bps) 1 = cap at hcap ⊢
      have hshare (count : Nat) (hcount : 0 < count) : 0 < divCeil samples.length count :=
        div_pos (by omega) hcount
      refine newGroups_push (hshare _ ?_)
      split
      · rename_i hfewer
        exact hfewer.1
      · exact hshare cap hcap

section Merge

variable [DecimalHelpers]

/-! ### The room of the last chunk -/

variable {c : TimeSeriesChunk}

theorem isFull_of_tailTake (h : c.Ok) {rest bps : Nat}
    (hbps : c.isCompressed = false → bps = sampleSize * bpsScale) (hpos : 0 < tailTake c rest bps) :
    c.isFull = false := by
  unfold tailTake samplesFor worstCaseBytesPerSample bpsScale at hpos
  dsimp only at hpos
  have hroom : 0 < c.maxSize - c.size ∧ (bps = 4096 → 16 ≤ c.maxSize - c.size) := by
    generalize c.maxSize - c.size = room at hpos ⊢
    split at hpos
    · omega
    · have hquot : 0 < room * 256 / bps := by omega
      have hbound := Nat.div_pos_iff.mp hquot
      exact ⟨by omega, by rintro rfl; omega⟩
  cases c with
  | gorilla c => exact decide_eq_false (show ¬ c.size ≥ c.maxSize from Nat.not_le.mpr (Nat.sub_pos_iff_lt.mp hroom.1))
  | chimp c => exact decide_eq_false (show ¬ c.size ≥ c.maxSize from Nat.not_le.mpr (Nat.sub_pos_iff_lt.mp hroom.1))
  | uncompressed c =>
    have hmax : c.maxElements = c.maxSize / 16 := h.sound.2
    have hfits : 16 ≤ c.maxSize - c.samples.length * 16 := hroom.2 (hbps rfl)
    refine decide_eq_false (show ¬ c.samples.length ≥ c.maxElements from ?_)
    omega

/-! ### One group -/

variable [Env] {policy : DuplicatePolicy} {s : TimeSeries}

section

omit [DecimalHelpers]

/-- The outcome of a sample whose timestamp is not in the part after. -/
theorem outcome_append_left {l₁ l₂ : List Sample} {x : Sample} (h : ∀ b ∈ l₂, x.timestamp < b.timestamp) :
    policy.outcome (l₁ ++ l₂) x = policy.outcome l₁ x := by
  unfold DuplicatePolicy.outcome
  rw [find?_append]
  have hnone : l₂.find? (fun old => decide (old.timestamp = x.timestamp)) = none :=
    find?_eq_none.mpr fun b hb => by simpa using (h b hb).ne'
  rw [hnone, Option.or_none]

theorem outcome_nil_of_lt {l : List Sample} {x : Sample} (h : ∀ b ∈ l, x.timestamp < b.timestamp) :
    policy.outcome l x = policy.outcome [] x := by
  rw [← nil_append l, outcome_append_left h]

/-- The outcome of a sample whose timestamp is not in the part before. -/
theorem outcome_append_right {l₁ l₂ : List Sample} {x : Sample} (h : ∀ b ∈ l₁, b.timestamp < x.timestamp) :
    policy.outcome (l₁ ++ l₂) x = policy.outcome l₂ x := by
  unfold DuplicatePolicy.outcome
  rw [find?_append]
  have hnone : l₁.find? (fun old => decide (old.timestamp = x.timestamp)) = none :=
    find?_eq_none.mpr fun b hb => by simpa using (h b hb).ne
  rw [hnone, Option.none_or]

theorem mergeAnswers_nil (policy : DuplicatePolicy) (exact : Bool) (l : List Sample) :
    policy.mergeAnswers exact l [] = [] := by
  cases exact <;> rfl

end

def batchOf (groups : List ChunkSampleGroup) : List Sample := groups.flatMap (·.samples)

def DuplicatePolicy.groupAnswers (policy : DuplicatePolicy) (exact : Bool) (l : List Sample)
    (groups : List ChunkSampleGroup) : List SampleAddResult :=
  groups.flatMap fun group => policy.mergeAnswers exact l group.samples

omit [DecimalHelpers] in
theorem groupAnswers_congr {exact : Bool} {l l' : List Sample} {groups : List ChunkSampleGroup}
    (h : ∀ x ∈ batchOf groups, policy.outcome l x = policy.outcome l' x) :
    policy.groupAnswers exact l groups = policy.groupAnswers exact l' groups := by
  unfold DuplicatePolicy.groupAnswers
  refine congrArg List.flatten (map_congr_left fun group hgroup => mergeAnswers_congr fun x hx => ?_)
  exact h x (mem_flatMap.mpr ⟨group, hgroup, hx⟩)

omit [DecimalHelpers] in
theorem answersAll_groupAnswers (policy : DuplicatePolicy) (exact : Bool) (l : List Sample)
    (groups : List ChunkSampleGroup) :
    policy.AnswersAll exact l (batchOf groups) (policy.groupAnswers exact l groups) := by
  induction groups with
  | nil => exact .nil
  | cons group groups ih => exact rel_append (answersAll_mergeAnswers ..) ih

omit [Env] [DecimalHelpers] in
theorem batchOf_new (pieces : List (List Sample)) : batchOf (pieces.map (⟨.new, ·⟩)) = pieces.flatten := by
  rw [batchOf, flatMap_map, flatMap_id']

section WithGroup

variable (groups : List ChunkSampleGroup) (holder : ChunkHolder) (group : List Sample)

omit [Env] [DecimalHelpers] in
theorem batchOf_withGroup :
    batchOf (if group.isEmpty then groups else ⟨holder, group⟩ :: groups) = group ++ batchOf groups := by
  cases group <;> rfl

omit [DecimalHelpers] in
theorem groupAnswers_withGroup (exact : Bool) (l : List Sample) :
    policy.groupAnswers exact l (if group.isEmpty then groups else ⟨holder, group⟩ :: groups)
    = policy.mergeAnswers exact l group ++ policy.groupAnswers exact l groups := by
  cases group with
  | nil =>
    rw [mergeAnswers_nil]
    rfl
  | cons x xs => rfl

end WithGroup

/-- Merging a group into the chunk it belongs to; an empty group is none. -/
theorem mergeGroup_existing (policy : DuplicatePolicy) (done cs news : List TimeSeriesChunk)
    (rs : List SampleAddResult) {group : List Sample} (groups : List ChunkSampleGroup) (hc : c.Ok)
    (hgroup : SampleRun group) (hroom : ∀ x, group = [x] → c.isFull = true → ¬ ∀ b ∈ c.samples, b.timestamp <
    x.timestamp) :
    ∃ c', (if group.isEmpty then groups else ⟨.existingIdx done.length, group⟩ :: groups).foldl
    (s.mergeGroup (some policy)) ⟨done ++ c :: cs, news, rs⟩ = groups.foldl (s.mergeGroup (some policy))
    ⟨done ++ c' :: cs, news, rs ++ policy.mergeAnswers c.isCompressed c.samples group⟩
    ∧ c.Becomes c' (policy.putAll group c.samples) := by
  cases hg : group with
  | nil =>
    refine ⟨c, ?_, hc.becomes⟩
    rw [mergeAnswers_nil, append_nil]
    rfl
  | cons x xs =>
    rw [← hg]
    obtain ⟨c', hmerge, hbecomes⟩ := hc.mergeSamples_spec hgroup policy hroom
    refine ⟨c', ?_, hbecomes⟩
    have hne : group.isEmpty = false := by rw [hg]; rfl
    rw [hne, if_neg Bool.false_ne_true, foldl_cons]
    congr 1
    unfold TimeSeries.mergeGroup
    dsimp only
    rw [getElem?_append_right (Nat.le_refl _), Nat.sub_self]
    change MergeState.mk _ _ _ = _
    rw [execMerge, hmerge]
    rw [set_append_right _ _ (Nat.le_refl _), Nat.sub_self]
    rfl

theorem mergeGroup_new (hs : s.WF) (policy : DuplicatePolicy) (chunks news : List TimeSeriesChunk)
    (rs : List SampleAddResult)
    {pieces : List (List Sample)} (hpieces : ∀ piece ∈ pieces, piece ≠ []) (hrun : SampleRun pieces.flatten) :
    ∃ cs, (pieces.map (fun piece => (⟨.new, piece⟩ : ChunkSampleGroup))).foldl (s.mergeGroup (some policy))
    ⟨chunks, news, rs⟩
    = ⟨chunks, news ++ cs, rs ++ policy.groupAnswers s.isCompressed [] (pieces.map (⟨.new, ·⟩))⟩
    ∧ ChunksOk cs ∧ (∀ c ∈ cs, c.getEncoding = s.chunkEncoding) ∧ stored cs = pieces.flatten := by
  induction pieces generalizing news rs with
  | nil => exact ⟨[], by simp [DuplicatePolicy.groupAnswers], chunksOk_nil, by simp, rfl⟩
  | cons piece pieces ih =>
    obtain ⟨hpiece, hrest, hlt⟩ := sampleRun_append.mp hrun
    have hok : s.createChunk.Ok := hs.createChunk_ok
    have hnil : s.createChunk.samples = [] := samples_new ..
    obtain ⟨c, hmerge, hbecomes⟩ := hok.mergeSamples_spec hpiece policy
      (fun x _ hfull => by
        rw [TimeSeries.createChunk, new_isFull _ hs.minSize] at hfull
        cases hfull)
    have hcomp : s.createChunk.isCompressed = s.isCompressed := by
      rw [TimeSeriesChunk.isCompressed, TimeSeries.createChunk, getEncoding_new]
      rfl
    rw [hnil, hcomp] at hmerge
    have hsamples : c.samples = piece := by
      rw [hbecomes.samples_eq, hnil]
      exact putAll_of_sorted hpiece.increasing
    have henc : c.getEncoding = s.chunkEncoding :=
      hbecomes.encoding_eq.trans (getEncoding_new ..)
    obtain ⟨cs, hfold, hcs, hencs, hstored⟩ := ih (news ++ [c])
      (rs ++ policy.mergeAnswers s.isCompressed [] piece) (fun p hp => hpieces p (mem_cons_of_mem _ hp)) hrest
    refine ⟨c :: cs, ?_, ?_, ?_, ?_⟩
    · rw [map_cons, foldl_cons]
      have hstep : s.mergeGroup (some policy) ⟨chunks, news, rs⟩ ⟨.new, piece⟩
          = ⟨chunks, news ++ [c], rs ++ policy.mergeAnswers s.isCompressed [] piece⟩ := by
        unfold TimeSeries.mergeGroup
        rw [execMerge, hmerge]
      rw [hstep, hfold, append_assoc, append_assoc]
      rfl
    · refine chunksOk_cons.mpr ⟨chunksOk_singleton hbecomes.ok ?_, hcs, ?_⟩
      · rw [hsamples]
        exact hpieces piece mem_cons_self
      · rw [hsamples, hstored]
        exact hlt
    · exact forall_mem_cons.mpr ⟨henc, hencs⟩
    · rw [stored_cons, hsamples, hstored, flatten_cons]

/-! ### The groups of the chunks -/

/-- What the groups of the chunks `cs` make of a batch: the chunks `cs'` hold what they
took, and what is left is newer. -/
structure GroupsMerged (policy : DuplicatePolicy) (encoding : ChunkEncoding) (cs cs' : List TimeSeriesChunk)
    (samples : List Sample) (groups : List ChunkSampleGroup) (rest : List Sample) (results : List SampleAddResult) :
    Prop where
  split : samples = batchOf groups ++ rest
  chunks : ChunksOk cs'
  encodings : ∀ c ∈ cs', c.getEncoding = encoding
  stored_eq : stored cs' = policy.putAll (batchOf groups) (stored cs)
  answers : results = policy.groupAnswers (decide (encoding ≠ .uncompressed)) (stored cs) groups
  newer : ∀ b ∈ stored cs', ∀ x ∈ rest, b.timestamp < x.timestamp

omit [DecimalHelpers] in
theorem lt_of_mem_putAll {l : List Sample} (hl : Increasing l) {ts : Int}
    (hsamples : ∀ x ∈ samples, x.timestamp < ts) (h : ∀ b ∈ l, b.timestamp < ts) :
    ∀ b ∈ policy.putAll samples l, b.timestamp < ts := by
  intro b hb
  rcases (mem_map_putAll hl (fun _ _ _ => DuplicatePolicy.combine_timestamp)).mp (mem_map_of_mem hb) with hmem | hmem
  · obtain ⟨x, hx, heq⟩ := mem_map.mp hmem
    rw [← heq]
    exact hsamples x hx
  · obtain ⟨x, hx, heq⟩ := mem_map.mp hmem
    rw [← heq]
    exact h x hx

omit [DecimalHelpers] in
theorem putAll_ne_nil {l : List Sample} (h : l ≠ []) : policy.putAll samples l ≠ [] := by
  induction samples generalizing l with
  | nil => exact h
  | cons x xs ih =>
    refine ih (l := policy.put x l) ?_
    unfold DuplicatePolicy.put putWith
    cases hr : insertWith Sample.timestamp (policy.combine x) x l with
    | error e => exact h
    | ok r => exact upsert_ne_nil hr

variable {cs cs' : List TimeSeriesChunk}

/-- The chunk `c` takes a group that is not newer than what comes after it, and the rest
of the batch goes to the chunks `cs`. -/
theorem GroupsMerged.cons {encoding : ChunkEncoding} {c' : TimeSeriesChunk}
    {group others rest : List Sample} {groups : List ChunkSampleGroup} {results : List SampleAddResult} (idx : Nat)
    (hok : ChunksOk (c :: cs)) (henc : c.getEncoding = encoding) (hrun : SampleRun (group ++ others))
    (hc : c.Becomes c' (policy.putAll group c.samples))
    (hgroup : ∀ x ∈ group, ∀ b ∈ stored cs, x.timestamp < b.timestamp)
    (hothers : ∀ x ∈ others, ∀ b ∈ c.samples, b.timestamp < x.timestamp)
    (h : GroupsMerged policy encoding cs cs' others groups rest results) :
    GroupsMerged policy encoding (c :: cs) (c' :: cs') (group ++ others)
    (if group.isEmpty then groups else ⟨.existingIdx idx, group⟩ :: groups) rest
    (policy.mergeAnswers c.isCompressed c.samples group ++ results) := by
  have hcok := hok.ok c mem_cons_self
  obtain ⟨hgroupRun, hothersRun, hlt⟩ := sampleRun_append.mp hrun
  have htaken {x : Sample} (hx : x ∈ batchOf groups) : x ∈ others := h.split ▸ mem_append_left _ hx
  have hrest {x : Sample} (hx : x ∈ rest) : x ∈ others := h.split ▸ mem_append_right _ hx
  -- everything the chunk holds now is before the rest of the batch
  have hbefore : ∀ x ∈ others, ∀ b ∈ policy.putAll group c.samples, b.timestamp < x.timestamp := fun x hx =>
    lt_of_mem_putAll hcok.run.increasing (fun y hy => hlt y hy x hx) (hothers x hx)
  have hstored : stored (c' :: cs') = policy.putAll (group ++ batchOf groups) (stored (c :: cs)) := by
    have hparts : policy.putAll (group ++ batchOf groups) (c.samples ++ stored cs)
        = policy.putAll (batchOf groups) (policy.putAll group (c.samples ++ stored cs)) := putAll_append
    have hleft : policy.putAll group (c.samples ++ stored cs) = policy.putAll group c.samples ++ stored cs :=
      putAll_append_of_gt hgroup
    rw [stored_cons, stored_cons, hc.samples_eq, h.stored_eq, hparts, hleft]
    exact (putAll_append_of_lt fun x hx => hbefore x (htaken hx)).symm
  refine ⟨by rw [batchOf_withGroup, h.split, append_assoc], ⟨?_, ?_, ?_⟩, ?_,
    by rw [batchOf_withGroup, hstored], ?_, ?_⟩
  · exact forall_mem_cons.mpr ⟨hc.ok, h.chunks.ok⟩
  · intro d hd
    rcases mem_cons.mp hd with rfl | hd
    · rw [hc.samples_eq]
      exact putAll_ne_nil (hok.nonempty c mem_cons_self)
    · exact h.chunks.nonempty d hd
  · rw [hstored]
    exact hok.run.putAll (forall_mem_append.mpr ⟨hgroupRun.times, fun x hx => hothersRun.times x (htaken hx)⟩)
  · intro d hd
    rcases mem_cons.mp hd with rfl | hd
    · rw [hc.encoding_eq, henc]
    · exact h.encodings d hd
  · have hexact : c.isCompressed = decide (encoding ≠ .uncompressed) := by
      rw [TimeSeriesChunk.isCompressed, henc]
    rw [stored_cons, groupAnswers_withGroup, h.answers, hexact]
    congr 1
    · exact mergeAnswers_congr fun x hx => (outcome_append_left (hgroup x hx)).symm
    · exact groupAnswers_congr fun x hx => (outcome_append_right (hothers x (htaken hx))).symm
  · intro b hb x hx
    rw [stored_cons] at hb
    rcases mem_append.mp hb with hb | hb
    · rw [hc.samples_eq] at hb
      exact hbefore x (hrest hx) b hb
    · exact h.newer b hb x hx

omit [Env] in
/-- One chunk: its group, and the samples that are left for the others. -/
theorem groupExisting_cons (bps idx : Nat) (c : TimeSeriesChunk) (cs : List TimeSeriesChunk)
    (hinc : Increasing samples) :
    ∃ group rest, samples = group ++ rest
    ∧ (groupExisting bps idx (c :: cs) samples).1 = (if group.isEmpty then (groupExisting bps (idx + 1) cs rest).1
    else ⟨.existingIdx idx, group⟩ :: (groupExisting bps (idx + 1) cs rest).1)
    ∧ (groupExisting bps idx (c :: cs) samples).2 = (groupExisting bps (idx + 1) cs rest).2
    ∧ (∀ x ∈ rest, c.lastTimestamp < x.timestamp)
    ∧ ∀ x ∈ group, x.timestamp ≤ c.lastTimestamp ∨ cs = [] ∧ ∃ n, 0 < tailTake c n bps := by
  have hupTo (x : Sample) (hx : x ∈ samples.takeWhile fun y => decide (y.timestamp ≤ c.lastTimestamp)) :
      x.timestamp ≤ c.lastTimestamp := by
    simpa using mem_takeWhile_imp hx
  have hnewer (x : Sample) (hx : x ∈ samples.dropWhile fun y => decide (y.timestamp ≤ c.lastTimestamp)) :
      c.lastTimestamp < x.timestamp := by
    have hmono : samples.Pairwise fun a b => decide (b.timestamp ≤ c.lastTimestamp) = true →
        decide (a.timestamp ≤ c.lastTimestamp) = true := by
      refine hinc.imp fun {a b} hab hb => ?_
      rw [decide_eq_true_eq] at hb ⊢
      exact hab.le.trans hb
    rw [dropWhile_eq_filter hmono] at hx
    simpa using (mem_filter.mp hx).2
  have hsplit := takeWhile_append_dropWhile
    (p := fun y : Sample => decide (y.timestamp ≤ c.lastTimestamp)) (l := samples)
  rw [groupExisting]
  generalize samples.takeWhile (fun y => decide (y.timestamp ≤ c.lastTimestamp)) = upTo at hupTo hsplit ⊢
  generalize samples.dropWhile (fun y => decide (y.timestamp ≤ c.lastTimestamp)) = newer at hnewer hsplit ⊢
  generalize hmore : (if cs.isEmpty = true ∧ ¬ newer.isEmpty = true then tailTake c newer.length bps else 0) = more
  refine ⟨upTo ++ newer.take more, newer.drop more, ?_, ?_, ?_, fun x hx => hnewer x (mem_of_mem_drop hx), fun x hx =>
    ?_⟩
  · rw [append_assoc, take_append_drop, hsplit]
  · split <;> rfl
  · split <;> rfl
  · rcases mem_append.mp hx with hx | hx
    · exact .inl (hupTo x hx)
    · -- only the last chunk takes newer samples
      have hpos : 0 < more := pos_of_ne_zero fun hzero => by
        rw [hzero, take_zero] at hx
        exact absurd hx not_mem_nil
      rw [← hmore] at hpos
      split at hpos
      · rename_i hlast
        exact .inr ⟨isEmpty_iff.mp hlast.1, _, hpos⟩
      · exact absurd hpos (lt_irrefl 0)

/-- **Run lemma.**  The groups of the chunks, merged one after the other. -/
theorem groupExisting_merged (policy : DuplicatePolicy) {encoding : ChunkEncoding} {bps : Nat}
    (hbps : encoding = .uncompressed → bps = sampleSize * bpsScale)
    (hok : ChunksOk cs) (henc : ∀ c ∈ cs, c.getEncoding = encoding)
    (hrun : SampleRun samples) (done news : List TimeSeriesChunk) (rs : List SampleAddResult) :
    ∃ cs' results, (groupExisting bps done.length cs samples).1.foldl (s.mergeGroup (some policy))
    ⟨done ++ cs, news, rs⟩ = ⟨done ++ cs', news, rs ++ results⟩
    ∧ GroupsMerged policy encoding cs cs' samples (groupExisting bps done.length cs samples).1
    (groupExisting bps done.length cs samples).2 results := by
  induction cs generalizing samples done rs with
  | nil =>
    refine ⟨[], [], by rw [append_nil rs]; rfl, rfl, chunksOk_nil, ?_, rfl, rfl, ?_⟩
    · intro c hc
      exact absurd hc not_mem_nil
    · intro b hb
      exact absurd hb not_mem_nil
  | cons c cs ih =>
    have hc := hok.ok c mem_cons_self
    obtain ⟨group, rest, rfl, hgroups, hleft, hrest, hin⟩ := groupExisting_cons bps done.length c cs hrun.increasing
    rw [hgroups, hleft]
    have hpast (x : Sample) (hx : c.lastTimestamp < x.timestamp) : ∀ b ∈ c.samples, b.timestamp < x.timestamp :=
      fun b hb => (hc.bounds hb).2.trans_lt hx
    have hgroup : ∀ x ∈ group, ∀ b ∈ stored cs, x.timestamp < b.timestamp := by
      intro x hx b hb
      rcases hin x hx with hle | ⟨rfl, -⟩
      · exact hle.trans_lt (lt_stored hok.tail.ok (fun e he => hok.head_lt he) b hb)
      · exact absurd hb not_mem_nil
    have hroom : ∀ x, group = [x] → c.isFull = true → ¬ ∀ b ∈ c.samples, b.timestamp < x.timestamp := by
      rintro x rfl hfull hall
      obtain ⟨b, hb, hlast⟩ := hc.last_mem (hok.nonempty c mem_cons_self)
      have hlt := hall b hb
      rcases hin x mem_cons_self with hle | ⟨-, n, hpos⟩
      · omega
      · rw [isFull_of_tailTake hc (fun hcomp => hbps ?_) hpos] at hfull
        · cases hfull
        · rw [TimeSeriesChunk.isCompressed, henc c mem_cons_self] at hcomp
          simpa using hcomp
    obtain ⟨hgroupRun, hothersRun, -⟩ := sampleRun_append.mp hrun
    obtain ⟨c', hfold, hbecomes⟩ := mergeGroup_existing (s := s)
      policy done cs news rs (groupExisting bps (done.length + 1) cs rest).1 hc hgroupRun hroom
    obtain ⟨cs', results, hfold', hmerged⟩ := ih hok.tail
      (fun d hd => henc d (mem_cons_of_mem _ hd)) hothersRun (done ++ [c'])
      (rs ++ policy.mergeAnswers c.isCompressed c.samples group)
    rw [length_append, length_singleton] at hfold' hmerged
    refine ⟨c' :: cs', policy.mergeAnswers c.isCompressed c.samples group ++ results, ?_, ?_⟩
    · rw [append_assoc, append_assoc, append_assoc rs, singleton_append, singleton_append] at hfold'
      rw [← hfold', ← hfold]
    · exact hmerged.cons done.length hok (henc c mem_cons_self) hrun hbecomes hgroup fun x hx => hpast x (hrest x hx)

/-! ### The order of the chunks -/

section

omit [Env]

theorem ChunksOk.pairwise_first (h : ChunksOk cs) : cs.Pairwise fun a b => a.firstTimestamp < b.firstTimestamp := by
  induction cs with
  | nil => exact .nil
  | cons c cs ih =>
    refine pairwise_cons.mpr ⟨fun d hd => ?_, ih h.tail⟩
    have hle := h.first_le_last mem_cons_self
    exact hle.trans_lt (h.head_lt hd)

theorem ChunksOk.eq_of_perm (h : ChunksOk cs') (hperm : cs.Perm cs')
    (hsorted : cs.Pairwise fun a b => a.firstTimestamp ≤ b.firstTimestamp) : cs = cs' := by
  have hfirst := h.pairwise_first
  refine List.Perm.eq_of_pairwise ?_ hsorted (hfirst.imp fun {a b} hab => hab.le) hperm
  -- two chunks with one first timestamp are one chunk
  intro a b ha hb hab hba
  have hsymm : Std.Symm fun a b : TimeSeriesChunk => a.firstTimestamp ≠ b.firstTimestamp :=
    ⟨fun _ _ hne => hne.symm⟩
  have hdist : cs'.Pairwise fun a b => a.firstTimestamp ≠ b.firstTimestamp :=
    hfirst.imp fun {a b} hab => hab.ne
  by_contra hne
  exact hdist.forall (hperm.subset ha) hb hne (le_antisymm hab hba)

theorem sortChunks_eq (hperm : cs.Perm cs') (h : ChunksOk cs') : TimeSeries.sortChunks cs = cs' := by
  exact h.eq_of_perm ((perm_insertionSort ..).trans hperm) (pairwise_insertionSort ..)

theorem arrange {before chunks after : List TimeSeriesChunk} (h : ChunksOk (before ++ (chunks ++ after))) :
    (if (before ++ after).isEmpty then chunks else TimeSeries.sortChunks (chunks ++ (before ++ after)))
    = before ++ (chunks ++ after) := by
  split
  · rename_i hnil
    obtain ⟨rfl, rfl⟩ := append_eq_nil_iff.mp (isEmpty_iff.mp hnil)
    exact (append_nil chunks).symm
  · refine sortChunks_eq ?_ h
    rw [← append_assoc, ← append_assoc]
    exact perm_append_comm.append_right after

end

/-! ### The whole batch -/

omit [Env] in
theorem groupExisting_nil (bps idx : Nat) (cs : List TimeSeriesChunk) : groupExisting bps idx cs [] = ([], []) := by
  induction cs generalizing idx with
  | nil => rfl
  | cons c cs ih =>
    rw [groupExisting]
    simp [ih]

/-- The chunks after a batch: in order, they hold the stored list with the batch put in. -/
structure BatchMerged (s : TimeSeries) (policy : DuplicatePolicy) (groups : List ChunkSampleGroup)
    (chunks : List TimeSeriesChunk) (results : List SampleAddResult) : Prop where
  ok : ChunksOk chunks
  encodings : ∀ c ∈ chunks, c.getEncoding = s.chunkEncoding
  stored_eq : stored chunks = policy.putAll (batchOf groups) s.samples
  answers : results = policy.groupAnswers s.isCompressed s.samples groups

/-- New chunks before and after chunks that took the middle of the batch. -/
theorem BatchMerged.assemble (h : s.WF) {older taken rest : List ChunkSampleGroup}
    {before chunks after : List TimeSeriesChunk} {rs : List SampleAddResult}
    (hrun : SampleRun (batchOf older ++ (batchOf taken ++ batchOf rest)))
    (holder : ∀ x ∈ batchOf older, ∀ b ∈ s.samples, x.timestamp < b.timestamp)
    (hbefore : ChunksOk before) (hbeforeEnc : ∀ c ∈ before, c.getEncoding = s.chunkEncoding)
    (hbeforeEq : stored before = batchOf older)
    (hchunks : GroupsMerged policy s.chunkEncoding s.chunks chunks (batchOf taken ++ batchOf rest) taken
    (batchOf rest) rs) (hafter : ChunksOk after) (hafterEnc : ∀ c ∈ after, c.getEncoding = s.chunkEncoding)
    (hafterEq : stored after = batchOf rest) : BatchMerged s policy (older ++ (taken ++ rest))
    (before ++ (chunks ++ after))
    (policy.groupAnswers s.isCompressed [] older ++ (rs ++ policy.groupAnswers s.isCompressed [] rest)) := by
  have hbatch : batchOf (older ++ (taken ++ rest)) = batchOf older ++ (batchOf taken ++ batchOf rest) := by
    rw [batchOf, flatMap_append, flatMap_append]
    rfl
  obtain ⟨holderRun, hothersRun, hlt⟩ := sampleRun_append.mp hrun
  obtain ⟨-, hrestRun, -⟩ := sampleRun_append.mp hothersRun
  have hrest : ∀ x ∈ batchOf rest, ∀ b ∈ stored s.chunks, b.timestamp < x.timestamp := by
    intro x hx b hb
    have hmem : b.timestamp ∈ (policy.putAll (batchOf taken) (stored s.chunks)).map Sample.timestamp :=
      (mem_map_putAll h.run.increasing (fun _ _ _ => DuplicatePolicy.combine_timestamp)).mpr (.inr (mem_map_of_mem hb))
    rw [← hchunks.stored_eq] at hmem
    obtain ⟨y, hy, heq⟩ := mem_map.mp hmem
    rw [← heq]
    exact hchunks.newer y hy x hx
  have hstored : stored (before ++ (chunks ++ after)) = policy.putAll (batchOf (older ++ (taken ++ rest)))
      s.samples := by
    have hparts : policy.putAll (batchOf (older ++ (taken ++ rest))) s.samples = policy.putAll (batchOf rest)
        (policy.putAll (batchOf taken) (policy.putAll (batchOf older) ([] ++ s.samples))) := by
      rw [hbatch, DuplicatePolicy.putAll, putAll_append, putAll_append]
      rfl
    have h₁ : policy.putAll (batchOf older) ([] ++ s.samples) = batchOf older ++ s.samples := by
      have happ : policy.putAll (batchOf older) ([] ++ s.samples) = policy.putAll (batchOf older) [] ++ s.samples :=
        putAll_append_of_gt holder
      rw [happ]
      exact congrArg (· ++ s.samples) (putAll_of_sorted holderRun.increasing)
    have h₂ : policy.putAll (batchOf taken) (batchOf older ++ s.samples) = batchOf older ++ stored chunks := by
      rw [hchunks.stored_eq]
      exact putAll_append_of_lt fun x hx b hb => hlt b hb x (mem_append_left _ hx)
    have h₃ : policy.putAll (batchOf rest) (batchOf older ++ stored chunks)
        = batchOf older ++ stored chunks ++ batchOf rest := by
      refine putAll_of_lt (fun x hx b hb => ?_) hrestRun.increasing
      rcases mem_append.mp hb with hb | hb
      · exact hlt b hb x (mem_append_right _ hx)
      · exact hchunks.newer b hb x hx
    rw [hparts, h₁, h₂, h₃, stored_append, stored_append, hbeforeEq, hafterEq, append_assoc]
  refine ⟨⟨?_, ?_, ?_⟩, ?_, hstored, ?_⟩
  · intro c hc
    rcases mem_append.mp hc with hc | hc
    · exact hbefore.ok c hc
    · rcases mem_append.mp hc with hc | hc
      · exact hchunks.chunks.ok c hc
      · exact hafter.ok c hc
  · intro c hc
    rcases mem_append.mp hc with hc | hc
    · exact hbefore.nonempty c hc
    · rcases mem_append.mp hc with hc | hc
      · exact hchunks.chunks.nonempty c hc
      · exact hafter.nonempty c hc
  · rw [hstored, hbatch]
    exact h.run.putAll hrun.times
  · intro c hc
    rcases mem_append.mp hc with hc | hc
    · exact hbeforeEnc c hc
    · rcases mem_append.mp hc with hc | hc
      · exact hchunks.encodings c hc
      · exact hafterEnc c hc
  · have hold : policy.groupAnswers s.isCompressed [] older = policy.groupAnswers s.isCompressed s.samples older :=
      groupAnswers_congr fun x hx => (outcome_nil_of_lt (holder x hx)).symm
    have hnew : policy.groupAnswers s.isCompressed [] rest = policy.groupAnswers s.isCompressed s.samples rest :=
      groupAnswers_congr fun x hx => (outcome_of_lt (by simp)).trans (outcome_of_lt (hrest x hx)).symm
    rw [hold, hnew, hchunks.answers]
    exact (flatMap_append.trans (congrArg _ flatMap_append)).symm

theorem estimateBps_uncompressed (h : s.chunkEncoding = .uncompressed) (batch : List Sample) :
    s.estimateBps batch = sampleSize * bpsScale := by
  unfold TimeSeries.estimateBps
  rw [TimeSeries.isCompressed, h]
  rfl

theorem TimeSeries.WF.mergeGroups_spec (h : s.WF) (policy : DuplicatePolicy) {toInsert : List Sample}
    (hrun : SampleRun toInsert) (hne : toInsert ≠ []) :
    batchOf (s.groupSamplesByChunk toInsert) = toInsert ∧ ∃ merged :
    MergeState, (s.groupSamplesByChunk toInsert).foldl (s.mergeGroup (some policy)) ⟨s.chunks, [], []⟩
    = merged ∧ BatchMerged s policy (s.groupSamplesByChunk toInsert) (if merged.newChunks.isEmpty then merged.chunks
    else TimeSeries.sortChunks (merged.chunks ++ merged.newChunks)) merged.results := by
  have hfalse : toInsert.isEmpty = false := by
    cases toInsert with
    | nil => exact absurd rfl hne
    | cons x xs => rfl
  unfold TimeSeries.groupSamplesByChunk
  rw [hfalse, if_neg Bool.false_ne_true]
  dsimp only
  have hbps := fun henc => estimateBps_uncompressed (s := s) henc toInsert
  generalize s.estimateBps toInsert = bps at hbps ⊢
  split
  · -- an empty series: all chunks are new
    rename_i hempty
    have hnil : s.chunks = [] := by
      rcases hempty with hempty | hempty
      · exact isEmpty_iff.mp hempty
      · rw [h.isEmpty_eq, decide_eq_true_eq] at hempty
        exact h.chunks_eq_nil hempty
    obtain ⟨pieces, hpieces, hflat, hpiecesNe⟩ := newGroups_appends toInsert s.chunkSizeBytes bps
    obtain ⟨cs, hfold, hok, henc, hstored⟩ := mergeGroup_new h policy s.chunks [] [] hpiecesNe (by rwa [hflat])
    rw [← batchOf_new, ← hpieces] at hstored hflat
    rw [← hpieces] at hfold
    generalize addChunksForAppends toInsert s.chunkSizeBytes bps = groups at hpieces hfold hstored hflat ⊢
    subst hflat
    refine ⟨rfl, _, hfold, ?_⟩
    have hnone : GroupsMerged policy s.chunkEncoding s.chunks s.chunks ([] ++ batchOf groups) [] (batchOf groups) [] :=
      ⟨rfl, h.chunks, h.encoding, rfl, rfl, by rw [hnil]; simp⟩
    have hall : SampleRun (batchOf [] ++ (batchOf [] ++ batchOf groups)) := hrun
    have hmerged := BatchMerged.assemble h hall (fun x hx => absurd hx not_mem_nil)
      chunksOk_nil (by simp) rfl hnone hok henc hstored
    have harr := arrange hmerged.ok
    rw [harr]
    exact hmerged
  · have hfirst : (s.chunks.head?.map (·.firstTimestamp)).getD 0 = headTs s.samples := headTs_stored h.chunks
    rw [hfirst]
    have holder (x : Sample) (hx : x ∈ toInsert.takeWhile fun y => decide (y.timestamp < headTs s.samples))
        (b : Sample) (hb : b ∈ s.samples) : x.timestamp < b.timestamp := by
      have hlt : x.timestamp < headTs s.samples := by simpa using mem_takeWhile_imp hx
      exact hlt.trans_le (h.run.headTs_le hb)
    have hsplit := takeWhile_append_dropWhile
      (p := fun y : Sample => decide (y.timestamp < headTs s.samples)) (l := toInsert)
    generalize toInsert.takeWhile (fun y => decide (y.timestamp < headTs s.samples)) = older at holder hsplit ⊢
    generalize toInsert.dropWhile (fun y => decide (y.timestamp < headTs s.samples)) = others at hsplit ⊢
    -- with nothing left the later groups are empty
    have hgroups : (if others.isEmpty = true then addChunksForBackfill older s.chunkSizeBytes bps
        else addChunksForBackfill older s.chunkSizeBytes bps ++ (groupExisting bps 0 s.chunks others).1
          ++ addChunksForAppends (groupExisting bps 0 s.chunks others).2 s.chunkSizeBytes bps)
        = addChunksForBackfill older s.chunkSizeBytes bps ++ (groupExisting bps 0 s.chunks others).1
          ++ addChunksForAppends (groupExisting bps 0 s.chunks others).2 s.chunkSizeBytes bps := by
      split
      · rename_i hothers
        rw [isEmpty_iff.mp hothers, groupExisting_nil]
        simp [addChunksForAppends]
      · rfl
    rw [hgroups]
    obtain ⟨pieces₁, hpieces₁, hflat₁, hpiecesNe₁⟩ := newGroups_backfill older s.chunkSizeBytes bps
    have hparts := sampleRun_append.mp (hsplit ▸ hrun)
    obtain ⟨before, hfold₁, hok₁, henc₁, hstored₁⟩ := mergeGroup_new h policy s.chunks [] [] hpiecesNe₁
      (by rw [hflat₁]; exact hparts.1)
    rw [← batchOf_new, ← hpieces₁] at hstored₁ hflat₁
    rw [← hpieces₁] at hfold₁
    generalize addChunksForBackfill older s.chunkSizeBytes bps = groups₁ at hfold₁ hstored₁ hflat₁ ⊢
    subst hflat₁
    obtain ⟨chunks, rs, hfold₂, hmerged⟩ := groupExisting_merged (s := s) policy hbps h.chunks
      h.encoding hparts.2.1 [] ([] ++ before) ([] ++ policy.groupAnswers s.isCompressed [] groups₁)
    rw [length_nil, nil_append] at hfold₂
    generalize groupExisting bps 0 s.chunks others = r at hfold₂ hmerged ⊢
    obtain ⟨groups₂, rest⟩ := r
    obtain rfl := hmerged.split
    obtain ⟨pieces₃, hpieces₃, hflat₃, hpiecesNe₃⟩ := newGroups_appends rest s.chunkSizeBytes bps
    obtain ⟨after, hfold₃, hok₃, henc₃, hstored₃⟩ := mergeGroup_new h policy chunks ([] ++ before)
      ([] ++ policy.groupAnswers s.isCompressed [] groups₁ ++ rs) hpiecesNe₃
      (by rw [hflat₃]; exact (sampleRun_append.mp hparts.2.1).2.1)
    rw [← batchOf_new, ← hpieces₃] at hstored₃ hflat₃
    rw [← hpieces₃] at hfold₃
    generalize addChunksForAppends rest s.chunkSizeBytes bps = groups₃ at hfold₃ hstored₃ hflat₃ ⊢
    subst hflat₃
    rw [← hsplit] at hrun ⊢
    have hall := BatchMerged.assemble h hrun holder hok₁ henc₁ hstored₁ hmerged hok₃ henc₃ hstored₃
    have harr := arrange hall.ok
    rw [append_assoc]
    refine ⟨?_, _, by rw [foldl_append, foldl_append, hfold₁, hfold₂, nil_append, hfold₃], ?_⟩
    · rw [batchOf, flatMap_append, flatMap_append]
      rfl
    · rw [nil_append, harr, append_assoc]
      exact hall

/-! ### Splitting -/

omit [Env] in
theorem two_le_of_needsSplit (h : c.Ok) (hsplit : TimeSeries.needsSplit c = true) : 2 ≤ c.samples.length := by
  rw [TimeSeries.needsSplit, Bool.and_eq_true, decide_eq_true_eq, gt_iff_lt] at hsplit
  have hslack := zero_le (c.maxSize / splitSlackDivisor)
  exact h.two_le_length (by omega)

/-- What splitting makes of chunks: lower and upper halves that are in order together. -/
structure ChunksSplit (cs cs' existing newChunks : List TimeSeriesChunk) : Prop where
  lower : existing.Sublist cs'
  upper : newChunks.Sublist cs'
  perm : (existing ++ newChunks).Perm cs'
  ok : ChunksOk cs'
  stored_eq : stored cs' = stored cs
  encodings : ∀ c ∈ cs', ∃ d ∈ cs, c.getEncoding = d.getEncoding

omit [Env] in
theorem splitChunks_spec (h : ChunksOk cs) : (TimeSeries.splitChunks cs).2 = false
    ∧ ∃ cs', ChunksSplit cs cs' (TimeSeries.splitChunks cs).1.1 (TimeSeries.splitChunks cs).1.2 := by
  induction cs with
  | nil => exact ⟨rfl, [], .slnil, .slnil, .nil, chunksOk_nil, rfl, by simp⟩
  | cons c cs ih =>
    obtain ⟨herr, cs', hsplit⟩ := ih h.tail
    have hc := h.ok c mem_cons_self
    obtain ⟨-, -, hlt⟩ := chunksOk_cons.mp h
    have hrest : ∀ d ∈ cs', ∃ e ∈ c :: cs, d.getEncoding = e.getEncoding := fun d hd => by
      obtain ⟨e, he, heq⟩ := hsplit.encodings d hd
      exact ⟨e, mem_cons_of_mem _ he, heq⟩
    rw [TimeSeries.splitChunks]
    split
    · rename_i hneeds
      have hlen := two_le_of_needsSplit hc hneeds
      obtain ⟨lower, upper, hhalves, hlower, hupper⟩ := hc.split_spec hlen
      have hparts : lower.samples ++ upper.samples = c.samples := by
        rw [hlower.samples_eq, hupper.samples_eq, take_append_drop]
      rw [hhalves]
      refine ⟨herr, lower :: upper :: cs', ?_, ?_, ?_, ?_, ?_, ?_⟩
      · exact (hsplit.lower.cons upper).cons_cons lower
      · exact (hsplit.upper.cons_cons upper).cons lower
      · refine .cons lower ?_
        exact perm_middle.trans (.cons upper hsplit.perm)
      · have hrun := h.run
        rw [stored_cons, ← hparts, append_assoc] at hrun
        obtain ⟨hlowerRun, hrest, hlowerLt⟩ := sampleRun_append.mp hrun
        obtain ⟨hupperRun, -, hupperLt⟩ := sampleRun_append.mp hrest
        refine chunksOk_cons.mpr ⟨chunksOk_singleton hlower.ok ?_,
          chunksOk_cons.mpr ⟨chunksOk_singleton hupper.ok ?_, hsplit.ok, ?_⟩, ?_⟩
        · exact hlower.samples_eq ▸ (halves_ne_nil hlen).1
        · exact hupper.samples_eq ▸ (halves_ne_nil hlen).2
        · rw [hsplit.stored_eq]
          exact hupperLt
        · rw [stored_cons, hsplit.stored_eq]
          exact hlowerLt
      · rw [stored_cons, stored_cons, stored_cons, hsplit.stored_eq, ← append_assoc, hparts]
      · refine forall_mem_cons.mpr ⟨⟨c, mem_cons_self, hlower.encoding_eq⟩, ?_⟩
        exact forall_mem_cons.mpr ⟨⟨c, mem_cons_self, hupper.encoding_eq⟩, hrest⟩
    · refine ⟨herr, c :: cs', hsplit.lower.cons_cons c, hsplit.upper.cons c, hsplit.perm.cons c, ?_, ?_, ?_⟩
      · refine chunksOk_cons.mpr ⟨chunksOk_singleton hc (h.nonempty c mem_cons_self), hsplit.ok, ?_⟩
        rw [hsplit.stored_eq]
        exact hlt
      · rw [stored_cons, stored_cons, hsplit.stored_eq]
      · exact forall_mem_cons.mpr ⟨⟨c, mem_cons_self, rfl⟩, hrest⟩

omit [Env] in
theorem TimeSeries.WF.splitChunksIfNeeded_spec (h : s.WF) :
    ∃ s', s.splitChunksIfNeeded = (.ok (), s') ∧ Becomes s s' s.samples := by
  unfold TimeSeries.splitChunksIfNeeded
  split
  · exact ⟨s, rfl, h.becomes⟩
  · obtain ⟨herr, cs', hsplit⟩ := splitChunks_spec h.chunks
    generalize TimeSeries.splitChunks s.chunks = r at herr hsplit ⊢
    obtain ⟨⟨existing, newChunks⟩, errored⟩ := r
    obtain rfl : errored = false := herr
    have hsorted : cs'.Pairwise fun a b => a.firstTimestamp ≤ b.firstTimestamp :=
      hsplit.ok.pairwise_first.imp fun {a b} hab => hab.le
    have hchunks : (if newChunks.isEmpty then existing
        else TimeSeries.mergeChunks existing (TimeSeries.sortChunks newChunks)) = cs' := by
      have hexisting := hsorted.sublist hsplit.lower
      have hnew := hsorted.sublist hsplit.upper
      split
      · rename_i hnil
        have hperm := hsplit.perm
        rw [isEmpty_iff.mp hnil, append_nil] at hperm
        exact hsplit.ok.eq_of_perm hperm hexisting
      · rw [TimeSeries.sortChunks, List.Pairwise.insertionSort_eq hnew, TimeSeries.mergeChunks]
        exact hsplit.ok.eq_of_perm ((merge_perm_append ..).trans hsplit.perm)
          (List.Pairwise.merge hexisting hnew)
    dsimp only
    rw [hchunks]
    refine ⟨_, rfl, h.rechunk hsplit.ok (fun c hc => ?_) hsplit.stored_eq⟩
    obtain ⟨d, hd, heq⟩ := hsplit.encodings c hc
    rw [heq, h.encoding d hd]

/-! ### Merging into a series -/

/-- What a merge answers and leaves, before the retention is applied. -/
structure MergeSpec (s : TimeSeries) (samples : List Sample) (override : Option DuplicatePolicy)
    (results : List SampleAddResult) (s' : TimeSeries) : Prop where
  becomes : TimeSeries.Becomes s s' ((s.sampleDuplicates.resolvePolicy override).putAll
    (s.normalizeBatch samples override).toInsert s.samples)
  groups : batchOf (s.groupSamplesByChunk (s.normalizeBatch samples override).toInsert)
    = (s.normalizeBatch samples override).toInsert
  results : results = splice (s.normalizeBatch samples override).results
    ((s.normalizeBatch samples override).insertIndex.zip
      ((s.sampleDuplicates.resolvePolicy override).groupAnswers s.isCompressed s.samples
        (s.groupSamplesByChunk (s.normalizeBatch samples override).toInsert)))

theorem MergeSpec.answers {override : Option DuplicatePolicy}
    {results : List SampleAddResult} {s' : TimeSeries} (h : MergeSpec s samples override results s') :
    (s.sampleDuplicates.resolvePolicy override).AnswersAll s.isCompressed s.samples
    (s.normalizeBatch samples override).toInsert
    ((s.sampleDuplicates.resolvePolicy override).groupAnswers s.isCompressed s.samples
    (s.groupSamplesByChunk (s.normalizeBatch samples override).toInsert)) := by
  have hans := answersAll_groupAnswers (s.sampleDuplicates.resolvePolicy override) s.isCompressed s.samples
    (s.groupSamplesByChunk (s.normalizeBatch samples override).toInsert)
  rwa [h.groups] at hans

theorem MergeSpec.none (h : s.WF) (samples : List Sample) {override : Option DuplicatePolicy}
    (hnil : (s.normalizeBatch samples override).toInsert = []) :
    MergeSpec s samples override (s.normalizeBatch samples override).results s := by
  refine ⟨?_, ?_, ?_⟩
  · rw [hnil]
    exact h.becomes
  · rw [hnil]
    rfl
  · rw [hnil]
    change _ = splice _ (List.zip _ [])
    rw [zip_nil_right]
    rfl

theorem TimeSeries.WF.mergeSamplesIntoSeries_spec (h : s.WF) (hvalid : ValidTimes samples)
    (override : Option DuplicatePolicy) :
    MergeSpec s samples override (s.mergeSamplesIntoSeries samples override).1
    (s.mergeSamplesIntoSeries samples override).2 := by
  unfold TimeSeries.mergeSamplesIntoSeries
  split
  · rename_i hnil
    rw [isEmpty_iff.mp hnil]
    exact MergeSpec.none h [] rfl
  · dsimp only
    split
    · rename_i hnil
      exact MergeSpec.none h samples (isEmpty_iff.mp hnil)
    · rename_i hne
      have hne : (s.normalizeBatch samples override).toInsert ≠ [] := fun hnil =>
        hne (isEmpty_iff.mpr hnil)
      obtain ⟨hgroups, merged, hmerged, hbatch⟩ := h.mergeGroups_spec (s.sampleDuplicates.resolvePolicy override)
        (TimeSeries.normalizeBatch_run override hvalid) hne
      split
      · -- a batch has groups
        rename_i hnil
        rw [isEmpty_iff.mp hnil] at hgroups
        exact absurd hgroups.symm hne
      · rw [hmerged]
        refine ⟨?_, hgroups, by rw [← hbatch.answers]⟩
        obtain ⟨hok, henc, hstored, -⟩ := hbatch
        rw [hgroups] at hstored
        rw [← hstored]
        exact ⟨⟨hok, henc, h.minSize, sum_len hok.ok, headTs_stored hok, getLast?_stored hok⟩, rfl,
          ⟨rfl, rfl, rfl, rfl, rfl⟩⟩

theorem TimeSeries.WF.mergeSamplesDeferringRetention_spec (h : s.WF)
    (hvalid : ValidTimes samples) (override : Option DuplicatePolicy) :
    ∃ results s', s.mergeSamplesDeferringRetention samples override = (.ok results, s')
    ∧ MergeSpec s samples override results s' := by
  unfold TimeSeries.mergeSamplesDeferringRetention
  split
  · rename_i hnil
    rw [isEmpty_iff.mp hnil]
    exact ⟨[], s, rfl, MergeSpec.none h [] rfl⟩
  · have hspec := h.mergeSamplesIntoSeries_spec hvalid override
    generalize s.mergeSamplesIntoSeries samples override = r at hspec ⊢
    obtain ⟨results, s'⟩ := r
    obtain ⟨s'', hsplit, hbecomes⟩ := hspec.becomes.wf.splitChunksIfNeeded_spec
    dsimp only at hsplit ⊢
    rw [hsplit]
    refine ⟨results, s'', rfl, ?_, hspec.groups, hspec.results⟩
    rw [hspec.becomes.samples_eq] at hbecomes
    exact hspec.becomes.trans hbecomes

/-- **A merge puts its batch into the stored list**, and then cuts it to the window. -/
theorem TimeSeries.WF.mergeSamples_spec (h : s.WF) (hvalid : ValidTimes samples) (override : Option DuplicatePolicy) :
    ∃ results s₁ s₂, s.mergeSamples samples override = (.ok results, s₂)
    ∧ MergeSpec s samples override results s₁ ∧ s₂ = s₁.applyRetention := by
  obtain ⟨results, s₁, heq, hspec⟩ := h.mergeSamplesDeferringRetention_spec hvalid override
  refine ⟨results, s₁, s₁.applyRetention, ?_, hspec, rfl⟩
  rw [TimeSeries.mergeSamples, heq]

end Merge

end ValkeyTimeSeries
