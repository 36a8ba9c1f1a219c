/-
Chunk/Merge.lean

Merging a batch into a chunk: `iterators/sample_merge_iterator.rs` and `series/chunks/merge.rs`.

Design.  The merge iterator walks the stored samples and the batch together; where both have a sample at the
same time the duplicate policy combines them, or blocks the new one.  On sorted input this is the same as
upserting the batch's samples one after the other (`mergeChunkSamples_eq`).
-/
import ValkeyTimeSeries.Series.Types

namespace ValkeyTimeSeries

open List SortedList DuplicatePolicy

variable [FloatOps]

/-- One item of the merge iterator: the sample, whether it stands in the way of
a new one, and what is left of the two sides. -/
def mergeNext (policy : DuplicatePolicy) :
    List Sample → List Sample → Option ((Sample × Bool) × List Sample × List Sample)
  | [], [] => none
  | left :: ls, [] => some ((left, false), ls, [])
  | [], right :: rs => some ((right, false), [], rs)
  | left :: ls, right :: rs =>
    if left.timestamp = right.timestamp then
      match policy.combine right left with
      | .ok sample => some ((sample, false), ls, rs)
      | .error _ => some ((left, true), ls, rs)
    else if left.timestamp < right.timestamp then some ((left, false), ls, right :: rs)
    else some ((right, false), left :: ls, rs)

def mergeLoop (policy : DuplicatePolicy) : Nat → List Sample → List Sample → List (Sample × Bool)
  | 0, _, _ => []
  | fuel + 1, left, right =>
    match mergeNext policy left right with
    | none => []
    | some (item, left, right) => item :: mergeLoop policy fuel left right

/-- Every item takes a sample from a side at least. -/
def mergeItems (policy : DuplicatePolicy) (left right : List Sample) : List (Sample × Bool) :=
  mergeLoop policy (left.length + right.length) left right

/-- The result slots: one for each input timestamp, when its item goes by. -/
def mergeResults : List Int → List (Sample × Bool) → List SampleAddResult
  | _, [] => []
  | sampleSet, (sample, blocked) :: items =>
    if sample.timestamp ∈ sampleSet then
      (if blocked then .duplicate else .ok sample)
        :: mergeResults (sampleSet.filter (· ≠ sample.timestamp)) items
    else mergeResults sampleSet items

/-- The samples `merge_chunk_samples` hands to `append`, and its results. -/
def mergeChunkSamples (existing samples : List Sample) (policy : Option DuplicatePolicy) :
    List Sample × List SampleAddResult :=
  let items := mergeItems (policy.getD .keepLast) existing samples
  (items.map Prod.fst, mergeResults (samples.map (·.timestamp)) items)

/-! ### On sorted input -/

namespace DuplicatePolicy

/-- The sorted list after `sample`, unchanged if the policy refuses it. -/
def put (policy : DuplicatePolicy) (sample : Sample) (l : List Sample) : List Sample :=
  putWith Sample.timestamp (policy.combine sample) sample l

def putAll (policy : DuplicatePolicy) (samples l : List Sample) : List Sample :=
  SortedList.putAll Sample.timestamp policy.combine samples l

/-- The outcome of a sample that meets the samples `l`. -/
def outcome (policy : DuplicatePolicy) (l : List Sample) (sample : Sample) : SampleAddResult :=
  match l.find? fun old => old.timestamp = sample.timestamp with
  | none => .ok sample
  | some old =>
    match policy.combine sample old with
    | .ok stored => .ok stored
    | .error _ => .duplicate

theorem outcome_cons_of_ne {policy : DuplicatePolicy} {a sample : Sample} {l : List Sample}
    (h : a.timestamp ≠ sample.timestamp) : policy.outcome (a :: l) sample = policy.outcome l sample := by
  unfold outcome
  rw [find?_cons_of_neg (by simpa using h)]

end DuplicatePolicy

variable (policy : DuplicatePolicy)

theorem outcome_eq {l : List Sample} (h : Increasing l) (sample : Sample) :
    match policy.upsert sample l with
    | .ok _ => ∃ stored, policy.outcome l sample = .ok stored ∧ stored.timestamp = sample.timestamp
    | .error _ => policy.outcome l sample = .duplicate := by
  unfold DuplicatePolicy.outcome
  cases h.sorted.place sample.timestamp with
  | absent h₁ h₂ =>
    rename_i l₁ l₂
    have hfind : (l₁ ++ l₂).find? (fun old => decide (old.timestamp = sample.timestamp)) = none := by
      refine find?_eq_none.mpr fun b hb => ?_
      rcases mem_append.mp hb with hb | hb
      · simpa using (h₁ b hb).ne
      · simpa using (h₂ b hb).ne'
    rw [hfind, DuplicatePolicy.upsert, insertWith_new h₁ h₂]
    exact ⟨sample, rfl, rfl⟩
  | present h₁ hb h₂ =>
    rename_i l₁ l₂ b
    have hfind : (l₁ ++ b :: l₂).find? (fun old => decide (old.timestamp = sample.timestamp)) = some b := by
      rw [find?_append, find?_eq_none.mpr fun d hd => by simpa using (h₁ d hd).ne,
        Option.none_or, find?_cons_of_pos (by simpa using hb)]
    rw [hfind, DuplicatePolicy.upsert, insertWith_old h₁ hb]
    dsimp only
    cases hc : policy.combine sample b with
    | error e => rfl
    | ok d => exact ⟨d, rfl, (combine_timestamp hc).trans hb⟩

/-- An answer to a sample that meets the samples `l`: the outcome.  A chunk that is
not exact may hand back a combined sample as it was given. -/
def DuplicatePolicy.Answers (policy : DuplicatePolicy) (exact : Bool) (l : List Sample) (sample : Sample)
    (r : SampleAddResult) : Prop :=
  r = policy.outcome l sample ∨ exact = false ∧ (policy.outcome l sample).isOk = true ∧ r = .ok sample

/-- A stored sample handed back as it was given. -/
def SampleAddResult.asGiven (r : SampleAddResult) (sample : Sample) : SampleAddResult :=
  if r.isOk then .ok sample else r

abbrev DuplicatePolicy.AnswersAll (policy : DuplicatePolicy) (exact : Bool) (l : List Sample) :
    List Sample → List SampleAddResult → Prop :=
  List.Forall₂ (policy.Answers exact l)

theorem answersAll_outcome (exact : Bool) (l samples : List Sample) :
    policy.AnswersAll exact l samples (samples.map (policy.outcome l)) := by
  rw [DuplicatePolicy.AnswersAll, List.forall₂_map_right_iff]
  exact List.forall₂_same.mpr fun s _ => .inl rfl

theorem answersAll_exact {policy : DuplicatePolicy} {l samples : List Sample} {results : List SampleAddResult}
    (h : policy.AnswersAll true l samples results) : results = samples.map (policy.outcome l) := by
  induction h with
  | nil => rfl
  | cons hr _ ih =>
    rcases hr with rfl | ⟨hfalse, -⟩
    · rw [ih, map_cons]
    · cases hfalse

section Later

variable {policy : DuplicatePolicy} {samples l : List Sample}

theorem outcome_of_lt {a : Sample} (h : ∀ b ∈ l, b.timestamp < a.timestamp) : policy.outcome l a = .ok a := by
  unfold DuplicatePolicy.outcome
  rw [find?_eq_none.mpr fun s hs => by simpa using (h s hs).ne]

theorem putAll_of_lt (h : ∀ a ∈ samples, ∀ b ∈ l, b.timestamp < a.timestamp)
    (hs : Increasing samples) : policy.putAll samples l = l ++ samples := by
  have happ : policy.putAll samples (l ++ []) = l ++ policy.putAll samples [] := putAll_append_of_lt h
  have hself : policy.putAll samples [] = samples := putAll_of_sorted hs
  rwa [append_nil, hself] at happ

end Later

structure Merged (policy : DuplicatePolicy) (left right : List Sample) (items : List (Sample × Bool)) :
    Prop where
  samples : items.map Prod.fst = policy.putAll right left
  results : ∀ sampleSet, (∀ t, t ∈ sampleSet ↔ t ∈ right.map (·.timestamp)) →
    mergeResults sampleSet items = right.map (policy.outcome left)

section Steps

variable {policy : DuplicatePolicy} {a b : Sample} {ls rs : List Sample} {items : List (Sample × Bool)}

theorem Merged.left (h : Merged policy ls rs items) (hlt : ∀ s ∈ rs, a.timestamp < s.timestamp) :
    Merged policy (a :: ls) rs ((a, false) :: items) := by
  have hne (s : Sample) (hs : s ∈ rs) : a.timestamp ≠ s.timestamp := (hlt s hs).ne
  constructor
  · rw [map_cons, h.samples]
    have happ : policy.putAll rs ([a] ++ ls) = [a] ++ policy.putAll rs ls :=
      putAll_append_of_lt (by simpa using hlt)
    exact happ.symm
  · intro sampleSet hset
    have hnot : a.timestamp ∉ sampleSet := by
      rw [hset]
      intro hmem
      obtain ⟨s, hs, heq⟩ := mem_map.mp hmem
      exact hne s hs heq.symm
    rw [mergeResults, if_neg hnot, h.results sampleSet hset]
    refine map_congr_left fun s hs => ?_
    rw [outcome_cons_of_ne (hne s hs)]

omit [FloatOps] in
theorem mem_filter_sampleSet {sampleSet : List Int} (hlt : ∀ s ∈ rs, b.timestamp < s.timestamp)
    (hset : ∀ t, t ∈ sampleSet ↔ t ∈ (b :: rs).map (·.timestamp)) (t : Int) :
    t ∈ sampleSet.filter (· ≠ b.timestamp) ↔ t ∈ rs.map (·.timestamp) := by
  have hnot : b.timestamp ∉ rs.map (·.timestamp) := by
    intro hmem
    obtain ⟨s, hs, heq⟩ := mem_map.mp hmem
    exact (hlt s hs).ne heq.symm
  simp only [mem_filter, hset, map_cons, mem_cons, decide_eq_true_eq]
  constructor
  · rintro ⟨heq | hmem, hne⟩
    · exact absurd heq hne
    · exact hmem
  · intro hmem
    refine ⟨.inr hmem, ?_⟩
    rintro rfl
    exact hnot hmem

theorem Merged.item {l : List Sample} {c : Sample} {blocked : Bool} (h : Merged policy ls rs items)
    (hrs : ∀ s ∈ rs, b.timestamp < s.timestamp) (hct : c.timestamp = b.timestamp)
    (hput : putWith Sample.timestamp (policy.combine b) b l = [c] ++ ls)
    (hout : policy.outcome l b = if blocked then .duplicate else .ok c)
    (hrest : ∀ s ∈ rs, policy.outcome l s = policy.outcome ls s) :
    Merged policy l (b :: rs) ((c, blocked) :: items) := by
  constructor
  · rw [map_cons, h.samples, DuplicatePolicy.putAll, DuplicatePolicy.putAll, putAll_cons, hput,
      putAll_append_of_lt (by simpa [hct] using hrs)]
    rfl
  · intro sampleSet hset
    have hmem : c.timestamp ∈ sampleSet := by
      rw [hset, hct]
      exact mem_cons_self
    rw [mergeResults, if_pos hmem, hct, h.results _ (mem_filter_sampleSet hrs hset), map_cons, hout,
      map_congr_left hrest]

theorem Merged.right (h : Merged policy ls rs items) (hls : ∀ s ∈ ls, b.timestamp < s.timestamp)
    (hrs : ∀ s ∈ rs, b.timestamp < s.timestamp) : Merged policy ls (b :: rs) ((b, false) :: items) := by
  have hput : putWith Sample.timestamp (policy.combine b) b ([] ++ ls) = [b] ++ ls := putWith_append_of_gt hls
  refine h.item hrs rfl hput ?_ fun _ _ => rfl
  unfold DuplicatePolicy.outcome
  rw [find?_eq_none.mpr fun s hs => by simpa using (hls s hs).ne']
  rfl

theorem Merged.both (h : Merged policy ls rs items) (heq : a.timestamp = b.timestamp)
    (hrs : ∀ s ∈ rs, b.timestamp < s.timestamp) : Merged policy (a :: ls) (b :: rs)
      ((match policy.combine b a with
        | .ok sample => (sample, false)
        | .error _ => (a, true)) :: items) := by
  have hrest (s : Sample) (hs : s ∈ rs) : policy.outcome (a :: ls) s = policy.outcome ls s :=
    outcome_cons_of_ne (heq ▸ (hrs s hs).ne)
  have hfind : (a :: ls).find? (fun old => decide (old.timestamp = b.timestamp)) = some a :=
    find?_cons_of_pos (by simpa using heq)
  have hins : insertWith Sample.timestamp (policy.combine b) b ([] ++ a :: ls)
      = (· :: ls) <$> policy.combine b a := insertWith_old (by simp) heq
  rw [nil_append] at hins
  cases hc : policy.combine b a with
  | ok c =>
    refine h.item hrs ((combine_timestamp hc).trans heq) ?_ ?_ hrest
    · rw [putWith, hins, hc]
      rfl
    · simp only [DuplicatePolicy.outcome, hfind, hc]
      rfl
  | error e =>
    refine h.item hrs heq ?_ ?_ hrest
    · rw [putWith, hins, hc]
      rfl
    · simp only [DuplicatePolicy.outcome, hfind, hc]
      rfl

end Steps

/-- **Run lemma.**  Merging sorted samples is upserting them one by one. -/
theorem mergeLoop_merged (fuel : Nat) {left right : List Sample}
    (hfuel : left.length + right.length ≤ fuel) (hl : Increasing left) (hr : Increasing right) :
    Merged policy left right (mergeLoop policy fuel left right) := by
  induction fuel generalizing left right with
  | zero =>
    obtain rfl : left = [] := length_eq_zero_iff.mp (by omega)
    obtain rfl : right = [] := length_eq_zero_iff.mp (by omega)
    exact ⟨rfl, fun _ _ => rfl⟩
  | succ fuel ih =>
    cases left with
    | nil =>
      cases right with
      | nil => exact ⟨rfl, fun _ _ => rfl⟩
      | cons b rs =>
        obtain ⟨hb, hrs⟩ := pairwise_cons.mp hr
        exact (ih (by simpa using hfuel) hl hrs).right (by simp) hb
    | cons a ls =>
      obtain ⟨ha, hls⟩ := pairwise_cons.mp hl
      cases right with
      | nil => exact (ih (by simpa using hfuel) hls hr).left (by simp)
      | cons b rs =>
        obtain ⟨hb, hrs⟩ := pairwise_cons.mp hr
        rw [length_cons, length_cons] at hfuel
        rw [mergeLoop, mergeNext]
        rcases lt_trichotomy a.timestamp b.timestamp with hlt | heq | hgt
        · rw [if_neg hlt.ne, if_pos hlt]
          refine (ih (by rw [length_cons]; omega) hls hr).left fun s hs => ?_
          rcases mem_cons.mp hs with rfl | hs
          · exact hlt
          · exact hlt.trans (hb s hs)
        · rw [if_pos heq]
          have hstep := (ih (by omega) hls hrs).both heq hb
          cases hc : policy.combine b a with
          | ok c => simpa only [hc] using hstep
          | error e => simpa only [hc] using hstep
        · rw [if_neg hgt.ne', if_neg hgt.le.not_gt]
          refine (ih (by rw [length_cons]; omega) hl hrs).right (fun s hs => ?_) hb
          rcases mem_cons.mp hs with rfl | hs
          · exact hgt
          · exact hgt.trans (ha s hs)

theorem mergeChunkSamples_eq {existing samples : List Sample} (policy : Option DuplicatePolicy)
    (he : Increasing existing) (hs : Increasing samples) : mergeChunkSamples existing samples policy
    = ((policy.getD .keepLast).putAll samples existing, samples.map ((policy.getD .keepLast).outcome existing)) := by
  have h := mergeLoop_merged (policy.getD .keepLast) _ (Nat.le_refl _) he hs
  rw [mergeChunkSamples, mergeItems, h.samples, h.results _ fun _ => Iff.rfl]

end ValkeyTimeSeries
