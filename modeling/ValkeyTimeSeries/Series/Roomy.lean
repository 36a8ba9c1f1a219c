/-
Series/Roomy.lean

Chunks below twice their capacity.

Design.  An upsert is turned away only by an uncompressed chunk that holds twice its capacity at least
(`Overflows`), and only a batch makes such a chunk.  A series on which samples are added one at a time, and
from which they are deleted, stays `Roomy`: a chunk grows by one sample at a time and is split before it is
near.
-/
import ValkeyTimeSeries.Series.Add
import ValkeyTimeSeries.Series.Delete

namespace ValkeyTimeSeries

open List SortedList

section

variable [DecimalHelpers]

/-- An uncompressed chunk is below twice its capacity. -/
def TimeSeriesChunk.Roomy (c : TimeSeriesChunk) : Prop :=
  c.getEncoding = .uncompressed → c.samples.length < 2 * (c.maxSize / sampleSize)

def TimeSeries.Roomy (s : TimeSeries) : Prop := ∀ c ∈ s.chunks, c.Roomy

instance (c : TimeSeriesChunk) : Decidable c.Roomy := inferInstanceAs (Decidable (_ → _))

instance (s : TimeSeries) : Decidable s.Roomy := inferInstanceAs (Decidable (∀ c ∈ s.chunks, _))

namespace TimeSeriesChunk

variable {c c' : TimeSeriesChunk} {l : List Sample}

theorem Roomy.not_betweenHalves (hroomy : c.Roomy) (h : c.Ok) (ts : Int) : ¬ BetweenHalves c ts := by
  cases c with
  | uncompressed c =>
    rintro ⟨hlen, -⟩
    have hmax : c.maxElements = c.maxSize / sampleSize := h.sound.2
    have hlt : c.samples.length < 2 * (c.maxSize / sampleSize) := hroomy rfl
    omega
  | gorilla c => exact id
  | chimp c => exact id

theorem Becomes.roomy (h : Becomes c c' l)
    (hlen : c.getEncoding = .uncompressed → l.length < 2 * (c.maxSize / sampleSize)) : c'.Roomy := by
  intro henc
  rw [h.samples_eq, h.maxSize_eq]
  exact hlen (h.encoding_eq.symm.trans henc)

theorem Becomes.roomy_of_le (h : Becomes c c' l) (hroomy : c.Roomy) (hlen : l.length ≤ c.samples.length) :
    c'.Roomy := h.roomy fun henc => hlen.trans_lt (hroomy henc)

theorem Ok.length_lt (h : c.Ok) (hfull : c.isFull = false) (henc : c.getEncoding = .uncompressed) :
    c.samples.length < c.maxSize / sampleSize := by
  cases c with
  | uncompressed c =>
    have hmax : c.maxElements = c.maxSize / sampleSize := h.sound.2
    have hlt := of_decide_eq_false hfull
    rw [hmax] at hlt
    exact not_le.mp hlt
  | gorilla c => cases henc
  | chimp c => cases henc

theorem Ok.three_le (h : c.Ok) : 3 ≤ c.maxSize / sampleSize := by
  have hmin := h.minSize
  rw [minChunkSize] at hmin
  rw [sampleSize]
  omega

theorem Ok.length_of_not_split (h : c.Ok) (hsplit : c.shouldSplit = false)
    (henc : c.getEncoding = .uncompressed) : c.samples.length + 1 < 2 * (c.maxSize / sampleSize) := by
  have hmin := h.minSize
  rw [minChunkSize] at hmin
  have hnot := of_decide_eq_false hsplit
  cases c with
  | uncompressed c =>
    have hsize : (uncompressed c).size = c.samples.length * sampleSize := rfl
    rw [hsize] at hnot
    change c.samples.length + 1 < _
    rw [sampleSize] at hnot ⊢
    omega
  | gorilla c => cases henc
  | chimp c => cases henc

end TimeSeriesChunk

/-! ### Upserts -/

section Upserts

variable [FloatOps] {policy : DuplicatePolicy} {sample : Sample}

theorem TimeSeriesChunk.Ok.upsert_becomes {c : TimeSeriesChunk} (h : c.Ok) (hts : ValidTs sample.timestamp)
    (policy : DuplicatePolicy) : ∃ l, c.Becomes (c.upsert sample policy).2 l ∧ l.length ≤ c.samples.length + 1 := by
  by_cases hover : c.Overflows sample.timestamp
  · rw [h.upsert_overflows policy hover]
    exact ⟨c.samples, h.becomes, Nat.le_succ _⟩
  · have hspec := h.upsert_spec hts policy hover
    cases hr : policy.upsert sample c.samples with
    | error e =>
      rw [hr] at hspec
      rw [show c.upsert sample policy = _ from hspec]
      exact ⟨c.samples, h.becomes, Nat.le_succ _⟩
    | ok l =>
      rw [hr] at hspec
      obtain ⟨c', hc', hbecomes⟩ := hspec
      rw [hc']
      exact ⟨l, hbecomes, (length_insertWith hr).2⟩

end Upserts

namespace TimeSeries

variable {s : TimeSeries}

theorem Roomy.not_overflows (hroomy : s.Roomy) (h : s.WF) (ts : Int) : ¬ s.Overflows ts := by
  rintro ⟨c, hc, hbetween⟩
  exact (hroomy c hc).not_betweenHalves (h.chunks.ok c hc) ts hbetween

variable {c : TimeSeriesChunk}

theorem insertChunk_roomy (hroomy : s.Roomy) (hc : c.Roomy) : (s.insertChunk c).Roomy := by
  unfold insertChunk
  split
  · intro d hd
    rcases mem_append.mp hd with hd | hd
    · exact hroomy d (mem_of_mem_take hd)
    · rcases mem_cons.mp hd with rfl | hd
      · exact hc
      · exact hroomy d (mem_of_mem_drop hd)
  · exact hroomy

theorem Roomy.set (hroomy : s.Roomy) (hc : c.Roomy) (i : Nat) : Roomy { s with chunks := s.chunks.set i c } := by
  intro d hd
  rcases mem_or_eq_of_mem_set hd with hd | rfl
  · exact hroomy d hd
  · exact hc

variable [Env] {sample : Sample}

theorem upsertDirect_roomy (hroomy : s.Roomy) (hc : c.Ok)
    (hts : ValidTs sample.timestamp) (hsplit : c.shouldSplit = false) (i : Nat) (policy : DuplicatePolicy) :
    (s.upsertDirect i c sample policy).2.Roomy := by
  obtain ⟨l, hbecomes, hlen⟩ := hc.upsert_becomes hts policy
  have hc' := hbecomes.roomy fun henc => by
    have := hc.length_of_not_split hsplit henc
    omega
  have hset := hroomy.set hc' i
  unfold upsertDirect
  dsimp only
  split
  · split <;> exact hset
  · exact hset

theorem upsertSplit_roomy (hroomy : s.Roomy) (hc : c.Ok) (hmem : c.Roomy)
    (hts : ValidTs sample.timestamp) (hsplit : c.shouldSplit = true) (i : Nat) (policy : DuplicatePolicy) :
    (s.upsertSplit i c sample policy).2.Roomy := by
  have hlen := hc.two_le_of_shouldSplit hsplit
  obtain ⟨c₁, c₂, hsp, hb₁, hb₂⟩ := hc.split_spec hlen
  -- a half has room for one more sample
  have hhalf {d d' : TimeSeriesChunk} {k l : List Sample} (hd : c.Becomes d k)
    (hk : 2 * k.length ≤ c.samples.length + 1)
      (hd' : d.Becomes d' l) (hl : l.length ≤ d.samples.length + 1) : d'.Roomy := by
    refine hd'.roomy fun henc => ?_
    have := hmem (hd.encoding_eq.symm.trans henc)
    rw [hd.samples_eq] at hl
    rw [hd.maxSize_eq]
    omega
  have h₁ : 2 * (c.samples.take (c.samples.length / 2)).length ≤ c.samples.length + 1 := by
    rw [length_take]
    omega
  have h₂ : 2 * (c.samples.drop (c.samples.length / 2)).length ≤ c.samples.length + 1 := by
    rw [length_drop]
    omega
  have hr₁ : c₁.Roomy := hhalf hb₁ h₁ hb₁.ok.becomes (Nat.le_succ _)
  have hr₂ : c₂.Roomy := hhalf hb₂ h₂ hb₂.ok.becomes (Nat.le_succ _)
  obtain ⟨l₁, hup₁, hl₁⟩ := hb₁.ok.upsert_becomes hts policy
  obtain ⟨l₂, hup₂, hl₂⟩ := hb₂.ok.upsert_becomes hts policy
  have hboth {d₁ d₂ : TimeSeriesChunk} (hd₁ : d₁.Roomy) (hd₂ : d₂.Roomy) :
      (insertChunk { s with chunks := s.chunks.set i d₁ } d₂).Roomy :=
    insertChunk_roomy (hroomy.set hd₁ i) hd₂
  unfold upsertSplit
  rw [hsp]
  by_cases hinto : c₂.len > 0 ∧ sample.timestamp ≥ c₂.firstTimestamp
  · simp only [decide_eq_true hinto, if_true]
    have := hboth hr₁ (hhalf hb₂ h₂ hup₂ hl₂)
    split <;> exact this
  · simp only [decide_eq_false hinto, Bool.false_eq_true, if_false]
    have := hboth (hhalf hb₁ h₁ hup₁ hl₁) hr₂
    split <;> exact this

theorem WF.upsertSample_roomy (h : s.WF) (hroomy : s.Roomy) (hts : ValidTs sample.timestamp)
    (override : Option DuplicatePolicy) : (s.upsertSample sample override).2.Roomy := by
  unfold upsertSample
  split
  · exact hroomy
  · split
    · exact hroomy
    · rename_i c hc
      have hmem := mem_of_getElem? hc
      split
      · rename_i hsplit
        exact upsertSplit_roomy hroomy (h.chunks.ok c hmem) (hroomy c hmem) hts hsplit _ _
      · rename_i hsplit
        exact upsertDirect_roomy hroomy (h.chunks.ok c hmem) hts (by simpa using hsplit) _ _

/-! ### Appends -/

omit [Env] in
theorem WF.addSampleInternal_roomy (h : s.WF) (hroomy : s.Roomy) (hrun : SampleRun (s.samples ++ [sample])) :
    (s.addSampleInternal sample).2.Roomy := by
  obtain ⟨chunks, happended, heq⟩ := h.addSampleInternal_appended hrun
  rw [heq]
  intro d hd
  cases happended with
  | fresh hok hsamples henc =>
    rcases mem_append.mp hd with hd | hd
    · exact hroomy d hd
    · rw [mem_singleton.mp hd]
      intro _
      have := hok.three_le
      rw [hsamples, length_singleton]
      omega
  | last hcs hfull hbecomes =>
    rename_i cs c c'
    rcases mem_append.mp hd with hd | hd
    · exact hroomy d (by rw [hcs]; exact mem_append_left _ hd)
    · rw [mem_singleton.mp hd]
      refine hbecomes.roomy fun hunc => ?_
      have := (h.chunks.ok c (by rw [hcs]; simp)).length_lt hfull hunc
      rw [length_append, length_singleton]
      omega

/-! ### Removals -/

section

omit [Env]

theorem WF.trimExpired_roomy (h : s.WF) (hroomy : s.Roomy) (force : Bool) {count : Nat} {s' : TimeSeries}
    (heq : s.trimExpired force = .ok (count, s')) : s'.Roomy := by
  unfold trimExpired at heq
  dsimp only at heq
  split at heq
  · obtain ⟨-, rfl⟩ := Prod.mk.inj (Except.ok.inj heq)
    exact hroomy
  · have hdropped : ∀ c ∈ (s.removeExpiredChunks s.getMinTimestamp).2.chunks, c ∈ s.chunks := by
      unfold removeExpiredChunks
      dsimp only
      split
      · exact fun c hc => hc
      · exact fun c hc => mem_of_mem_drop hc
    generalize s.removeExpiredChunks s.getMinTimestamp = dropped at heq hdropped
    obtain ⟨trimmed, htrim, heq⟩ := Except.ok_of_bind heq
    have hhead : ∀ c ∈ trimmed.2.chunks, c.Roomy := by
      unfold trimHead at htrim
      split at htrim
      · rename_i hnil
        obtain rfl := Except.ok.inj htrim
        rw [hnil]
        simp
      · rename_i c rest hcons
        rw [hcons] at hdropped
        have hrest : ∀ d ∈ rest, d.Roomy := fun d hd => hroomy d (hdropped d (mem_cons_of_mem _ hd))
        have hc := hdropped c mem_cons_self
        split at htrim
        · obtain ⟨c', hc', hbecomes⟩ := (h.chunks.ok c hc).removeRange_spec 0 (s.getMinTimestamp - 1)
          rw [hc'] at htrim
          obtain rfl := Except.ok.inj htrim
          exact forall_mem_cons.mpr ⟨hbecomes.roomy_of_le (hroomy c hc) (length_filter_le ..), hrest⟩
        · obtain rfl := Except.ok.inj htrim
          rw [hcons]
          intro d hd
          exact hroomy d (hdropped d hd)
    obtain ⟨-, rfl⟩ := Prod.mk.inj (Except.ok.inj heq)
    split <;> exact hhead

theorem WF.applyRetention_roomy (h : s.WF) (hroomy : s.Roomy) : s.applyRetention.Roomy := by
  unfold applyRetention
  split
  · exact hroomy
  · split
    · rename_i heq
      exact h.trimExpired_roomy hroomy false heq
    · exact hroomy

theorem removeFromChunks_roomy {cs cs' : List TimeSeriesChunk} (hok : ∀ c ∈ cs, c.Ok) (hroomy : ∀ c ∈ cs, c.Roomy)
    {startTs endTs : Int} {count : Nat} (heq : removeFromChunks startTs endTs cs = .ok (count, cs')) :
    ∀ c ∈ cs', c.Roomy := by
  induction cs generalizing count cs' with
  | nil =>
    obtain ⟨-, rfl⟩ := Prod.mk.inj (Except.ok.inj heq)
    simp
  | cons c cs ih =>
    obtain ⟨c', hc', hbecomes⟩ := removeInternal_spec (hok c mem_cons_self) startTs endTs
    obtain ⟨count', rest, hrest, -⟩ := removeFromChunks_spec
      (fun d hd => hok d (mem_cons_of_mem _ hd)) startTs endTs
    rw [removeFromChunks, hc', hrest] at heq
    obtain ⟨-, rfl⟩ := Prod.mk.inj (Except.ok.inj heq)
    intro d hd
    rcases mem_cons.mp hd with rfl | hd
    · exact hbecomes.roomy_of_le (hroomy c mem_cons_self) (length_filter_le ..)
    · exact ih (fun d hd => hok d (mem_cons_of_mem _ hd))
        (fun d hd => hroomy d (mem_cons_of_mem _ hd)) hrest d hd

theorem WF.removeStored_roomy (h : s.WF) (hroomy : s.Roomy) {startTs endTs : Int} {count : Nat} {s' : TimeSeries}
    (heq : s.removeStored startTs endTs = .ok (count, s')) : s'.Roomy := by
  unfold removeStored at heq
  split at heq
  · obtain ⟨-, rfl⟩ := Prod.mk.inj (Except.ok.inj heq)
    exact hroomy
  · rename_i startIndex endIndex _
    have hslice : ∀ c ∈ (s.chunks.take (endIndex + 1)).drop startIndex, c ∈ s.chunks := fun c hc =>
      mem_of_mem_take (mem_of_mem_drop hc)
    obtain ⟨count', cs, hcs, -⟩ := removeFromChunks_spec (fun c hc => h.chunks.ok c (hslice c hc)) startTs endTs
    have hnew := removeFromChunks_roomy (fun c hc => h.chunks.ok c (hslice c hc))
      (fun c hc => hroomy c (hslice c hc)) hcs
    rw [hcs] at heq
    obtain ⟨-, rfl⟩ := Prod.mk.inj (Except.ok.inj heq)
    intro c hc
    have hc := mem_of_mem_filter hc
    rcases mem_append.mp hc with hc | hc
    · rcases mem_append.mp hc with hc | hc
      · exact hroomy c (mem_of_mem_take hc)
      · exact hnew c hc
    · exact hroomy c (mem_of_mem_drop hc)

theorem WF.removeRange_roomy (h : s.WF) (hroomy : s.Roomy) {startTs endTs : Int} {count : Nat} {s' : TimeSeries}
    (heq : s.removeRange startTs endTs = .ok (count, s')) : s'.Roomy := by
  unfold removeRange at heq
  split at heq
  · obtain ⟨-, rfl⟩ := Prod.mk.inj (Except.ok.inj heq)
    exact hroomy
  · split at heq
    · exact h.removeStored_roomy hroomy heq
    · obtain ⟨n, t, ht, htrim⟩ := h.trimExpired_spec true
      obtain ⟨-, -, hbecomes, -⟩ := htrim.becomes
      have hroomy' := h.trimExpired_roomy hroomy true ht
      rw [trim, ht] at heq
      change (if max startTs t.getMinTimestamp > endTs then _ else _) = _ at heq
      split at heq
      · obtain ⟨-, rfl⟩ := Prod.mk.inj (Except.ok.inj heq)
        exact hroomy'
      · exact hbecomes.wf.removeStored_roomy hroomy' heq

end

/-! ### Adds -/

theorem WF.addDeferringRetention_roomy (h : s.WF) (hroomy : s.Roomy) {ts : Int} (hts : ValidTs ts) (value : F64)
    (override : Option DuplicatePolicy) : (s.addDeferringRetention ts value override).2.Roomy := by
  have hone : SampleRun [s.makeSample ts value] :=
    ⟨fun x hx => by rw [mem_singleton.mp hx]; exact hts, pairwise_singleton ..⟩
  unfold addDeferringRetention
  dsimp only
  split
  · exact hroomy
  · split
    · rename_i hlast
      have hnil : s.samples = [] := getLast?_eq_none_iff.mp (h.last ▸ hlast)
      exact h.addSampleInternal_roomy hroomy (by rw [hnil]; exact hone)
    · rename_i last hlast
      split
      · exact hroomy
      · split
        · exact h.upsertSample_roomy hroomy hts override
        · rename_i hgt
          refine h.addSampleInternal_roomy hroomy (sampleRun_append.mpr ⟨h.run, hone, fun a ha b hb => ?_⟩)
          obtain ⟨l, hl⟩ := getLast?_eq_some_iff.mp (h.last ▸ hlast)
          have hrun := h.run
          rw [hl] at hrun ha
          have := hrun.le_last ha
          rw [mem_singleton.mp hb]
          exact this.trans_lt (not_le.mp hgt)

theorem WF.add_roomy (h : s.WF) (hroomy : s.Roomy) {ts : Int} (hts : ValidTs ts) (value : F64)
    (override : Option DuplicatePolicy) : (s.add ts value override).2.Roomy := by
  have hnew := h.addDeferringRetention_roomy hroomy hts value override
  have hadded := h.addDeferringRetention_spec hts value override
  rw [add_eq]
  generalize s.addDeferringRetention ts value override = r at hnew hadded
  have hwf : r.2.WF := by
    cases hadded with
    | tooOld _ => exact h
    | ignored _ _ _ _ => exact h
    | upserted _ _ hr =>
      cases hr with
      | stored _ _ hs' => exact hs'.wf
      | refused _ _ hs' => exact hs'.wf
      | overflowed _ hs' => exact hs'.wf
  split
  · exact hwf.applyRetention_roomy hnew
  · exact hnew

end TimeSeries

end

end ValkeyTimeSeries
