/-
Series/Run.lean

Series under sequences of calls.

Design.  `Call` lists the calls that change what a series stores, `apply` is the series after one of them, and
`run` after a sequence.  `Consistent` says what that means in terms of what the chunks hand out and of the
fields kept beside them.
-/
import ValkeyTimeSeries.Series.MergeSamples
import ValkeyTimeSeries.Series.Delete

namespace ValkeyTimeSeries

namespace TimeSeries

inductive Call where
  | add (ts : Int) (value : F64) (dpOverride : Option DuplicatePolicy)
  | mergeSamples (samples : List Sample) (policyOverride : Option DuplicatePolicy)
  | removeRange (startTs endTs : Int)
  /-- At the time `now`, which is read where no timestamp is given. -/
  | incrementSampleValue (now : Int) (timestamp : Option Int) (delta : F64)
  | trim
  | trimLazily
  | applyRetention
deriving DecidableEq, Repr

def Call.Valid : Call → Prop
  | .add ts _ _ => ValidTs ts
  | .mergeSamples samples _ => ValidTimes samples
  | .removeRange startTs endTs => ValidTs startTs ∧ ValidTs endTs
  | .incrementSampleValue now timestamp _ => ValidTs now ∧ ∀ ts ∈ timestamp, ValidTs ts
  | .trim | .trimLazily | .applyRetention => True

instance (call : Call) : Decidable call.Valid :=
  match call with
  | .add ts _ _ => inferInstanceAs (Decidable (ValidTs ts))
  | .mergeSamples samples _ => inferInstanceAs (Decidable (∀ x ∈ samples, ValidTs x.timestamp))
  | .removeRange _ _ => inferInstanceAs (Decidable (_ ∧ _))
  | .incrementSampleValue _ none _ => inferInstanceAs (Decidable (_ ∧ _))
  | .incrementSampleValue _ (some _) _ => inferInstanceAs (Decidable (_ ∧ _))
  | .trim | .trimLazily | .applyRetention => inferInstanceAs (Decidable True)

variable [DecimalHelpers] [Env]

/-- What is left of a series by a call that can fail. -/
def orKeep {α : Type} (s : TimeSeries) : Except TsdbError (α × TimeSeries) → TimeSeries
  | .ok (_, s') => s'
  | .error _ => s

def apply (s : TimeSeries) : Call → TimeSeries
  | .add ts value dpOverride => (s.add ts value dpOverride).2
  | .mergeSamples samples policyOverride => (s.mergeSamples samples policyOverride).2
  | .removeRange startTs endTs => s.orKeep (s.removeRange startTs endTs)
  | .incrementSampleValue now timestamp delta => (s.incrementSampleValue now timestamp delta).2
  | .trim => s.orKeep s.trim
  | .trimLazily => s.orKeep s.trimLazily
  | .applyRetention => s.applyRetention

def run (s : TimeSeries) (calls : List Call) : TimeSeries := calls.foldl apply s

variable {s : TimeSeries}

/-! ### One call -/

theorem WF.mergeSamples_visible (h : s.WF) {samples : List Sample} (hvalid : ValidTimes samples)
    (override : Option DuplicatePolicy) :
    (s.mergeSamples samples override).2.WF ∧ SameSettings s (s.mergeSamples samples override).2 := by
  obtain ⟨results, s₁, s₂, heq, hspec, rfl⟩ := h.mergeSamples_spec hvalid override
  obtain ⟨hwf, hset, -⟩ := hspec.becomes.wf.applyRetention_visible
  rw [heq]
  exact ⟨hwf, hspec.becomes.settings.trans hset⟩

omit [Env] in
theorem WF.trimExpired_wf (h : s.WF) (force : Bool) : (s.orKeep (s.trimExpired force)).WF := by
  obtain ⟨count, s', heq, htrim⟩ := h.trimExpired_spec force
  obtain ⟨-, -, hbecomes, -⟩ := htrim.becomes
  rw [heq]
  exact hbecomes.wf

theorem WF.incrementSampleValue_wf (h : s.WF) {now : Int} {timestamp : Option Int} (hnow : ValidTs now)
    (htimestamp : ∀ ts ∈ timestamp, ValidTs ts) (delta : F64) :
    (s.incrementSampleValue now timestamp delta).2.WF := by
  unfold incrementSampleValue
  split
  · exact h
  · split
    · rename_i last hlast
      split
      · exact h
      · dsimp only
        split
        · exact h
        · have hmem : last ∈ s.samples := List.mem_of_getLast? (h.last ▸ hlast)
          exact (h.add_spec (validTs_getD htimestamp (h.run.times last hmem)) _ _).wf
    · exact (h.add_spec (validTs_getD htimestamp hnow) _ _).wf

/-- **Step lemma.**  A call keeps a series well formed. -/
theorem WF.apply (h : s.WF) {call : Call} (hvalid : call.Valid) : (s.apply call).WF := by
  cases call with
  | add ts value dpOverride => exact (h.add_spec hvalid value dpOverride).wf
  | mergeSamples samples policyOverride => exact (h.mergeSamples_visible hvalid policyOverride).1
  | removeRange startTs endTs =>
    obtain ⟨count, s', heq, hwf, -⟩ := h.removeRange_spec startTs endTs
    rw [TimeSeries.apply, heq]
    exact hwf
  | incrementSampleValue now timestamp delta => exact h.incrementSampleValue_wf hvalid.1 hvalid.2 delta
  | trim => exact h.trimExpired_wf true
  | trimLazily => exact h.trimExpired_wf false
  | applyRetention => exact h.applyRetention_visible.1

/-- **Run lemma.** -/
theorem WF.run_wf (h : s.WF) {calls : List Call} (hvalid : ∀ call ∈ calls, call.Valid) :
    (s.run calls).WF := by
  induction calls generalizing s with
  | nil => exact h
  | cons call calls ih =>
    exact ih (h.apply (hvalid call (List.mem_cons_self)))
      fun other hother => hvalid other (List.mem_cons_of_mem _ hother)

omit [DecimalHelpers] in
/-- A new series stores nothing, and its chunk size is one the options allow. -/
theorem withOptions_ok {options : TimeSeriesOptions} (h : withOptions options = .ok s) :
    minChunkSize ≤ s.chunkSizeBytes ∧ s.chunks = [] ∧ s.totalSamples = 0 ∧ s.firstTimestamp = 0
    ∧ s.lastSample = none := by
  unfold withOptions at h
  cases hsize : options.chunkSize with
  | none =>
    rw [hsize] at h
    obtain rfl := Except.ok.inj h
    exact ⟨(by decide : minChunkSize ≤ defaultChunkSizeBytes), rfl, rfl, rfl, rfl⟩
  | some size =>
    rw [hsize] at h
    unfold validateChunkSize at h
    dsimp only at h
    split at h
    · cases h
    · split at h
      · cases h
      · rename_i hrange _
        obtain rfl := Except.ok.inj h
        refine ⟨?_, rfl, rfl, rfl, rfl⟩
        exact (not_not.mp hrange).1

theorem wf_of_withOptions {options : TimeSeriesOptions} (h : withOptions options = .ok s) : s.WF := by
  obtain ⟨hmin, hchunks, htotal, hfirst, hlast⟩ := withOptions_ok h
  have hsamples : s.samples = [] := by rw [TimeSeries.samples, hchunks]; rfl
  refine ⟨hchunks ▸ chunksOk_nil, ?_, hmin, ?_, ?_, ?_⟩
  · rw [hchunks]
    intro c hc
    exact absurd hc List.not_mem_nil
  · rw [htotal, hsamples]
    rfl
  · rw [hfirst, hsamples]
    rfl
  · rw [hlast, hsamples]
    rfl

/-! ### What well-formed means -/

def iterAll (s : TimeSeries) : List Sample := s.chunks.flatMap (·.iter)

/-- The chunks hand out samples in ascending order, and the fields beside them agree. -/
structure Consistent (s : TimeSeries) : Prop where
  nonempty : ∀ c ∈ s.chunks, c.isEmpty = false
  increasing : s.iterAll.Pairwise (·.timestamp < ·.timestamp)
  total : s.totalSamples = (s.chunks.map (·.len)).sum
  first : s.firstTimestamp = (s.iterAll.head?.map (·.timestamp)).getD 0
  last : s.lastSample = s.iterAll.getLast?

omit [Env] in
theorem WF.iterAll_eq (h : s.WF) : s.iterAll = s.samples := by
  have hiter : ∀ c ∈ s.chunks, c.iter = c.samples := fun c hc => (h.chunks.ok c hc).iter_eq
  exact List.flatMap_congr hiter

omit [Env] in
theorem WF.consistent (h : s.WF) : s.Consistent := by
  have hiter := h.iterAll_eq
  refine ⟨fun c hc => ?_, ?_, ?_, ?_, ?_⟩
  · rw [(h.chunks.ok c hc).isEmpty_eq]
    exact decide_eq_false (h.chunks.nonempty c hc)
  · rw [hiter]
    exact h.run.increasing
  · rw [sum_len h.chunks.ok]
    exact h.total
  · rw [hiter, h.first]
    cases s.samples <;> rfl
  · rw [hiter, h.last]

/-- **A series stays consistent**, whatever calls are made on it from its creation on. -/
theorem run_consistent (options : TimeSeriesOptions) (s : TimeSeries) (h : withOptions options = .ok s)
    (calls : List Call) (hvalid : ∀ call ∈ calls, call.Valid) : (s.run calls).Consistent :=
  ((wf_of_withOptions h).run_wf hvalid).consistent

end TimeSeries

namespace TimeSeries

/-- Chunks of 48 bytes, three samples uncompressed. -/
def smallChunks : TimeSeriesOptions := ⟨.uncompressed, some 48, none, none, none, none⟩

/-- The calls that leave `overfull`: a batch fills a chunk with thirteen samples, which is
split in two, and the upper half is deleted. -/
def overfullCalls : List Call :=
  [.add 0 0 none, .add 1200 0 none,
    .mergeSamples [⟨100, 0⟩, ⟨200, 0⟩, ⟨300, 0⟩, ⟨400, 0⟩, ⟨500, 0⟩, ⟨600, 0⟩, ⟨700, 0⟩, ⟨800, 0⟩, ⟨900, 0⟩,
      ⟨1000, 0⟩, ⟨1100, 0⟩] none,
    .removeRange 600 1200]

def fresh : TimeSeries :=
  { overfull with chunks := [], totalSamples := 0, firstTimestamp := 0, lastSample := none }

theorem run_consistent_overfull :
    letI := oneTenth
    letI := defaultEnv
    withOptions smallChunks = .ok fresh ∧ (fresh.run overfullCalls).Consistent :=
  letI := oneTenth
  letI := defaultEnv
  ⟨rfl, run_consistent smallChunks fresh rfl overfullCalls (by decide)⟩

end TimeSeries

end ValkeyTimeSeries
