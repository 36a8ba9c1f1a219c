/-
Compaction/Marker.lean

The marker of a destination as a function of the samples of the source.

Design.  A sample that is put into the source moves the marker in one way, whichever handler sees it: it
closes the open bucket, or it writes to an older one, or it does neither (`markerAfter`).  The trace of a
batch computes the same from the timestamps it hands over; the items it leaves out do not move the marker.
-/
import ValkeyTimeSeries.Compaction.Steps

namespace ValkeyTimeSeries

open List Bucketing

/-! ### The newest timestamp -/

def newestTs (l : List Sample) : Option Int := l.getLast?.map (·.timestamp)

section Newest

variable {l : List Sample} {x : Sample}

theorem Increasing.newestTs_eq_some (h : Increasing l) {t : Int} :
    newestTs l = some t ↔ t ∈ l.map (·.timestamp) ∧ ∀ y ∈ l, y.timestamp ≤ t := by
  rw [newestTs, Option.map_eq_some_iff]
  constructor
  · rintro ⟨last, hlast, rfl⟩
    obtain ⟨hmem, hle⟩ := h.getLast?_eq_some.mp hlast
    exact ⟨mem_map_of_mem hmem, hle⟩
  · rintro ⟨hmem, hle⟩
    obtain ⟨last, hlast, rfl⟩ := mem_map.mp hmem
    exact ⟨last, h.getLast?_eq_some.mpr ⟨hlast, hle⟩, rfl⟩

theorem newestTs_eq_none : newestTs l = none ↔ l = [] := by
  rw [newestTs, Option.map_eq_none_iff, getLast?_eq_none_iff]

theorem Bucketing.openBucket_eq (b : Bucketing) (l : List Sample) :
    b.openBucket l = (newestTs l).map b.calcBucketStart := by
  rw [Bucketing.openBucket, newestTs, Option.map_map]
  rfl

variable [FloatOps] {policy : DuplicatePolicy}

theorem mem_timestamps_put (h : Increasing l) {t : Int} :
    t ∈ (policy.put x l).map (·.timestamp) ↔ t = x.timestamp ∨ t ∈ l.map (·.timestamp) := by
  rw [mem_timestamps, sampleAt_put h, mem_timestamps]
  split
  · rename_i ht
    simp [ht]
  · rename_i ht
    simp [ht]

theorem newestTs_put (policy : DuplicatePolicy) (h : Increasing l) (x : Sample) :
    newestTs (policy.put x l) = some ((newestTs l).elim x.timestamp (max x.timestamp)) := by
  refine (increasing_put h x).newestTs_eq_some.mpr ⟨?_, fun y hy => ?_⟩
  · rw [mem_timestamps_put h]
    cases hn : newestTs l with
    | none => exact .inl rfl
    | some t =>
      obtain ⟨hmem, -⟩ := h.newestTs_eq_some.mp hn
      rcases max_choice x.timestamp t with hmax | hmax
      · exact .inl hmax
      · rw [Option.elim_some, hmax]
        exact .inr hmem
  · cases hn : newestTs l with
    | none =>
      rcases (mem_timestamps_put h).mp (mem_map_of_mem hy) with hy | hy
      · exact hy.le
      · rw [newestTs_eq_none.mp hn] at hy
        cases hy
    | some t =>
      obtain ⟨-, hle⟩ := h.newestTs_eq_some.mp hn
      rcases (mem_timestamps_put h).mp (mem_map_of_mem hy) with hy | hy
      · exact hy.le.trans (le_max_left ..)
      · obtain ⟨z, hz, hzt⟩ := mem_map.mp hy
        exact (hzt ▸ hle z hz).trans (le_max_right ..)

theorem sampleRun_put (h : SampleRun l) (hx : ValidTs x.timestamp) : SampleRun (policy.put x l) := by
  refine ⟨fun y hy => ?_, increasing_put h.increasing x⟩
  rcases (mem_timestamps_put h.increasing).mp (mem_map_of_mem hy) with hy | hy
  · rwa [hy]
  · obtain ⟨z, hz, hzt⟩ := mem_map.mp hy
    exact hzt ▸ h.times z hz

end Newest

namespace Bucketing

variable (b : Bucketing)

/-! ### One sample -/

/-- The marker after a sample at `ts` was put into `l`. -/
def markerAfter (l : List Sample) (marker : Option Int) (ts : Int) : Option Int :=
  match b.openBucket l with
  | none => marker
  | some o =>
    if o < b.calcBucketStart ts then some o
    else if b.calcBucketStart ts < o then marker.or (some (b.calcBucketStart ts))
    else marker

/-- The marker names a closed bucket with samples, and is unset only while there is none. -/
structure Named (l : List Sample) (marker : Option Int) : Prop where
  named : ∀ t, marker = some t → ∃ o, b.openBucket l = some o ∧ t < o ∧ b.inBucket t l ≠ []
  unset : marker = none → ∀ o, b.openBucket l = some o → ∀ x ∈ l, b.calcBucketStart x.timestamp = o

variable {b} {l : List Sample} {marker : Option Int} {x : Sample}

theorem inBucket_ne_nil {k : Int} : b.inBucket k l ≠ [] ↔ ∃ t ∈ l.map (·.timestamp), b.calcBucketStart t = k := by
  rw [Ne, eq_nil_iff_forall_not_mem]
  simp [mem_inBucket]

theorem inBucket_openBucket {o : Int} (ho : b.openBucket l = some o) : b.inBucket o l ≠ [] := by
  obtain ⟨last, hlast, rfl⟩ := Option.map_eq_some_iff.mp ho
  exact ne_nil_of_mem (mem_inBucket.mpr ⟨mem_of_getLast? hlast, rfl⟩)

theorem Named.markerAfter_of_mem (h : b.Named l marker) (hd : b.NoWrap) (hrun : SampleRun l) {ts : Int}
    (hts : ts ∈ l.map (·.timestamp)) : b.markerAfter l marker ts = marker := by
  obtain ⟨y, hy, rfl⟩ := mem_map.mp hts
  rw [markerAfter]
  cases ho : b.openBucket l with
  | none => rfl
  | some o =>
    have hle := le_openBucket hd hrun ho hy
    dsimp only
    rw [if_neg (not_lt.mpr hle)]
    split
    · cases marker with
      | none =>
        have := h.unset rfl o ho y hy
        omega
      | some t => rfl
    · rfl

theorem markerAfter_of_le {o ts : Int} (ho : b.openBucket l = some o) (hle : b.calcBucketStart ts ≤ o) :
    b.markerAfter l marker ts
    = if b.calcBucketStart ts = o then marker else marker.or (some (b.calcBucketStart ts)) := by
  rw [markerAfter, ho]
  dsimp only
  rw [if_neg (not_lt.mpr hle)]
  by_cases hk : b.calcBucketStart ts = o
  · rw [if_pos hk, if_neg (not_lt.mpr hk.ge)]
  · rw [if_neg hk, if_pos (lt_of_le_of_ne hle hk)]

variable [FloatOps] {policy : DuplicatePolicy}

theorem openBucket_put (policy : DuplicatePolicy) (hd : b.NoWrap) (hrun : SampleRun l) (hx : ValidTs x.timestamp) :
    b.openBucket (policy.put x l)
    = some ((b.openBucket l).elim (b.calcBucketStart x.timestamp) (max (b.calcBucketStart x.timestamp))) := by
  rw [openBucket_eq, openBucket_eq, newestTs_put policy hrun.increasing]
  cases hn : newestTs l with
  | none => rfl
  | some t =>
    obtain ⟨hmem, -⟩ := hrun.increasing.newestTs_eq_some.mp hn
    obtain ⟨y, hy, rfl⟩ := mem_map.mp hmem
    have hyv := hrun.times y hy
    simp only [Option.map_some, Option.elim_some]
    rcases le_total x.timestamp y.timestamp with hle | hle
    · rw [max_eq_right hle, max_eq_right (calcBucketStart_mono hd hx hyv hle)]
    · rw [max_eq_left hle, max_eq_left (calcBucketStart_mono hd hyv hx hle)]

theorem inBucket_put_ne_nil (hrun : SampleRun l) {k : Int} :
    b.inBucket k (policy.put x l) ≠ [] ↔ b.calcBucketStart x.timestamp = k ∨ b.inBucket k l ≠ [] := by
  rw [inBucket_ne_nil, inBucket_ne_nil]
  simp only [mem_timestamps_put hrun.increasing]
  constructor
  · rintro ⟨t, rfl | ht, hk⟩
    · exact .inl hk
    · exact .inr ⟨t, ht, hk⟩
  · rintro (hk | ⟨t, ht, hk⟩)
    · exact ⟨_, .inl rfl, hk⟩
    · exact ⟨t, .inr ht, hk⟩

/-- **Step lemma.** -/
theorem Named.put (policy : DuplicatePolicy) (h : b.Named l marker) (hd : b.NoWrap) (hrun : SampleRun l)
    (hx : ValidTs x.timestamp) :
    b.Named (policy.put x l) (b.markerAfter l marker x.timestamp) := by
  have hopen := openBucket_put policy hd hrun hx
  rw [markerAfter]
  cases ho : b.openBucket l with
  | none =>
    obtain rfl := openBucket_eq_none.mp ho
    refine ⟨fun t ht => ?_, fun _ o ho' y hy => ?_⟩
    · obtain ⟨o, ho', -⟩ := h.named t ht
      cases ho'
    · rcases (mem_timestamps_put List.Pairwise.nil).mp (mem_map_of_mem hy) with hy | hy
      · rw [hy]
        exact Option.some.inj ho'
      · cases hy
  | some o =>
    rw [ho] at hopen
    have hkeep (t : Int) (ht : marker = some t) : t < o ∧ b.inBucket t (policy.put x l) ≠ [] := by
      obtain ⟨o', ho', hlt, hne⟩ := h.named t ht
      obtain rfl : o = o' := Option.some.inj (ho.symm.trans ho')
      exact ⟨hlt, (inBucket_put_ne_nil hrun).mpr (.inr hne)⟩
    simp only [Option.elim_some] at hopen
    dsimp only
    split
    · rename_i hlt
      rw [max_eq_left hlt.le] at hopen
      refine ⟨fun t ht => ⟨_, hopen, ?_⟩, fun hnone => by cases hnone⟩
      obtain rfl := Option.some.inj ht
      exact ⟨hlt, (inBucket_put_ne_nil hrun).mpr (.inr (inBucket_openBucket ho))⟩
    · rename_i hge
      rw [max_eq_right (not_lt.mp hge)] at hopen
      split
      · rename_i hlt
        refine ⟨fun t ht => ⟨o, hopen, ?_⟩, fun hnone => ?_⟩
        · rcases Option.or_eq_some_iff.mp ht with ht | ⟨-, ht⟩
          · exact hkeep t ht
          · obtain rfl := Option.some.inj ht
            exact ⟨hlt, (inBucket_put_ne_nil hrun).mpr (.inl rfl)⟩
        · cases marker <;> cases hnone
      · have hk : b.calcBucketStart x.timestamp = o := by omega
        refine ⟨fun t ht => ⟨o, hopen, hkeep t ht⟩, fun hnone o' ho' y hy => ?_⟩
        obtain rfl : o = o' := Option.some.inj (hopen.symm.trans ho')
        rcases (mem_timestamps_put hrun.increasing).mp (mem_map_of_mem hy) with hy | hy
        · rw [hy, hk]
        · obtain ⟨z, hz, hzt⟩ := mem_map.mp hy
          rw [← hzt]
          exact h.unset hnone o ho z hz

end Bucketing

theorem InSync.sampleAt_ne_none {A : Type} [Aggregator A] {good : F64 → Prop} {rule : CompactionRule A}
    {l d : List Sample} (h : InSync rule l d) (hgood : ∀ x ∈ l, good x.value) (hacc : Accepts good rule.aggregator)
    {k : Int} :
    sampleAt k d ≠ none ↔ ∃ o, rule.openBucket l = some o ∧ k < o ∧ rule.inBucket k l ≠ [] := by
  have hagg := aggregate_of_accepts hacc fun x (hx : x ∈ rule.inBucket k l) =>
    hgood x (mem_inBucket.mp hx).1
  cases ho : rule.openBucket l with
  | none => simp [(h.idle ho).2 k]
  | some o =>
    rw [h.dest o ho k False.elim, rollupBelow, hagg]
    by_cases hlt : k < o <;> by_cases hnil : rule.inBucket k l = [] <;> simp [hnil]

theorem closes_or {A : Type} [Aggregator A] {good : F64 → Prop} {rule : CompactionRule A} {l : List Sample}
    (hd : rule.NoWrap) (hfine : Fine good rule.toBucketing l) (hacc : Accepts good rule.aggregator) {x : Sample}
    (hx : ValidTs x.timestamp) (hlt : ∀ y ∈ l, y.timestamp < x.timestamp) (marker : Option Int) :
    (CompactionContext.closes rule l x).or marker = rule.markerAfter l marker x.timestamp := by
  rw [CompactionContext.closes, Bucketing.markerAfter]
  cases ho : rule.openBucket l with
  | none => rfl
  | some o =>
    have hagg := aggregate_of_accepts hacc (hfine.inBucket o)
    rw [if_neg (inBucket_openBucket ho)] at hagg
    obtain ⟨last, hlast, rfl⟩ := Option.map_eq_some_iff.mp ho
    have hmem := mem_of_getLast? hlast
    have hbucket := calcBucketStart_mono hd (hfine.run.times last hmem) hx (hlt last hmem).le
    dsimp only [Option.bind_some]
    rw [hagg, if_neg (not_lt.mpr hbucket)]
    split
    · rfl
    · rfl

theorem InSync.live_iff {A : Type} [Aggregator A] [DecimalHelpers] {good : F64 → Prop} {c : CompactionContext A}
    {l : List Sample} (h : InSync c.rule l c.dest.samples) (hd : c.rule.NoWrap) (hrun : SampleRun l)
    (hgood : ∀ x ∈ l, good x.value) (hacc : Accepts good c.rule.aggregator) : c.Live ↔ c.rule.Named l c.marker := by
  have hnone : c.dest.samples = [] ↔ ∀ k, sampleAt k c.dest.samples = none := by
    refine ⟨fun hnil k => by rw [hnil]; rfl, fun hall => eq_nil_iff_forall_not_mem.mpr fun x hx => ?_⟩
    exact sampleAt_eq_none.mp (hall x.timestamp) x hx rfl
  constructor
  · intro hlive
    refine ⟨fun t ht => (h.sampleAt_ne_none hgood hacc).mp (hlive.named t ht), fun hunset o ho x hx => ?_⟩
    have hle := le_openBucket hd hrun ho hx
    by_contra hne
    have hthere := (h.sampleAt_ne_none hgood hacc).mpr ⟨o, ho, lt_of_le_of_ne hle hne,
      ne_nil_of_mem (mem_inBucket.mpr ⟨hx, rfl⟩)⟩
    exact hthere (hnone.mp (hlive.unset hunset) _)
  · intro hnamed
    refine ⟨fun t ht => (h.sampleAt_ne_none hgood hacc).mpr (hnamed.named t ht), fun hunset => hnone.mpr fun k => ?_⟩
    by_contra hthere
    obtain ⟨o, ho, hlt, hne⟩ := (h.sampleAt_ne_none hgood hacc).mp hthere
    obtain ⟨x, hx⟩ := exists_mem_of_ne_nil _ hne
    obtain ⟨hx, hk⟩ := mem_inBucket.mp hx
    have := hnamed.unset hunset o ho x hx
    omega

/-! ### The trace -/

/-- What a trace makes of the marker before it. -/
def TraceState.marker (before : Option Int) (st : TraceState) : Option Int :=
  st.trace.lastForwardClose.or (before.or st.trace.firstWrite)

/-- The trace has seen what is in the list. -/
structure TraceState.Follows (b : Bucketing) (l : List Sample) (st : TraceState) : Prop where
  current : st.current = b.openBucket l
  highWater : st.highWater = newestTs l

section Trace

open Bucketing

variable [FloatOps] {policy : DuplicatePolicy} {b : Bucketing} {l : List Sample} {x : Sample} {st : TraceState}
  {before : Option Int}

theorem TraceState.Follows.step (policy : DuplicatePolicy) (before : Option Int) (h : st.Follows b l) (hd : b.NoWrap)
    (hrun : SampleRun l)
    (hx : ValidTs x.timestamp) : (b.traceStep st x.timestamp).Follows b (policy.put x l)
    ∧ (b.traceStep st x.timestamp).marker before = b.markerAfter l (st.marker before) x.timestamp := by
  have hnew := newestTs_put policy hrun.increasing x
  have hopen := openBucket_put policy hd hrun hx
  obtain ⟨hcur, hhw⟩ := h
  rw [traceStep, hhw, hcur, markerAfter]
  have ho := b.openBucket_eq l
  cases hn : newestTs l with
  | none =>
    rw [hn, Option.map_none] at ho
    rw [hn] at hnew
    rw [ho] at hopen ⊢
    exact ⟨⟨hopen.symm, hnew.symm⟩, rfl⟩
  | some t =>
    rw [hn, Option.map_some] at ho
    rw [hn] at hnew
    rw [ho] at hopen hcur ⊢
    obtain ⟨hmem, -⟩ := hrun.increasing.newestTs_eq_some.mp hn
    obtain ⟨y, hy, rfl⟩ := mem_map.mp hmem
    have hyv := hrun.times y hy
    simp only [Option.elim_some, Option.any_some, decide_eq_true_eq] at hnew hopen ⊢
    split
    · rename_i hle
      have hbucket := calcBucketStart_mono hd hx hyv hle
      rw [max_eq_right hle] at hnew
      rw [max_eq_right hbucket] at hopen
      rw [if_neg (not_lt.mpr hbucket)]
      split
      · refine ⟨⟨hopen.symm, hnew.symm⟩, ?_⟩
        simp only [TraceState.marker, Option.or_assoc]
      · exact ⟨⟨hcur.trans hopen.symm, hhw.trans (hn.trans hnew.symm)⟩, rfl⟩
    · rename_i hgt
      have hbucket := calcBucketStart_mono hd hyv hx (not_le.mp hgt).le
      rw [max_eq_left (not_le.mp hgt).le] at hnew
      rw [max_eq_left hbucket] at hopen
      split
      · exact ⟨⟨hopen.symm, hnew.symm⟩, rfl⟩
      · have heq : b.calcBucketStart x.timestamp = b.calcBucketStart y.timestamp := by omega
        refine ⟨⟨?_, hnew.symm⟩, ?_⟩
        · rw [hopen, heq]
        · rw [if_neg (by omega)]
          rfl

/-! ### A batch -/

def markerRun (policy : DuplicatePolicy) (b : Bucketing) : List Sample → Option Int → List Sample → Option Int
  | _, marker, [] => marker
  | l, marker, x :: xs => markerRun policy b (policy.put x l) (b.markerAfter l marker x.timestamp) xs

/-- A batch that is put into `l` and leaves `l'`, with the timestamps it hands over.  An item that
is not handed over met a stored sample; a `loose` batch also turns items away. -/
inductive Handed (loose : Prop) (policy : DuplicatePolicy) :
    List Sample → List Sample → List Int → List Sample → Prop
  | nil (l : List Sample) : Handed loose policy l [] [] l
  | kept {l xs order l'} (x : Sample) (h : Handed loose policy (policy.put x l) xs order l') :
      Handed loose policy l (x :: xs) (x.timestamp :: order) l'
  | met {l xs order l'} (x : Sample) (hx : x.timestamp ∈ l.map (·.timestamp))
      (h : Handed loose policy (policy.put x l) xs order l') : Handed loose policy l (x :: xs) order l'
  | turnedAway {l xs order l'} (x : Sample) (hloose : loose) (h : Handed loose policy l xs order l') :
      Handed loose policy l (x :: xs) order l'

theorem Handed.eq_putAll {items l' : List Sample} {order : List Int} (h : Handed False policy l items order l') :
    l' = policy.putAll items l := by
  induction h with
  | nil => rfl
  | kept x _ ih => exact ih
  | met x _ _ ih => exact ih
  | turnedAway x hloose _ _ => exact hloose.elim

theorem newestTs_put_of_mem (policy : DuplicatePolicy) (h : Increasing l) (hx : x.timestamp ∈ l.map (·.timestamp)) :
    newestTs (policy.put x l) = newestTs l := by
  rw [newestTs_put policy h]
  cases hn : newestTs l with
  | none =>
    rw [newestTs_eq_none.mp hn] at hx
    cases hx
  | some t =>
    obtain ⟨y, hy, hyx⟩ := mem_map.mp hx
    have hle := (h.newestTs_eq_some.mp hn).2 y hy
    rw [Option.elim_some, max_eq_right (hyx ▸ hle)]

/-- **Run lemma.**  The trace of what is handed over names a bucket of what was left, and it is
the bucket the marker comes to if all items were put one after the other. -/
theorem Handed.trace (before : Option Int) {loose : Prop} {items l' : List Sample} {order : List Int}
    (h : Handed loose policy l items order l') (hd : b.NoWrap) (hrun : SampleRun l) (hvalid : ValidTimes items)
    (hfollows : st.Follows b l) (hnamed : b.Named l (st.marker before)) :
    b.Named l' ((order.foldl b.traceStep st).marker before)
    ∧ (¬ loose → (order.foldl b.traceStep st).marker before = markerRun policy b l (st.marker before) items) := by
  induction h generalizing st with
  | nil => exact ⟨hnamed, fun _ => rfl⟩
  | kept x _ ih =>
    have hx := hvalid x mem_cons_self
    obtain ⟨hfollows', hmarker⟩ := hfollows.step policy before hd hrun hx
    rw [foldl_cons, markerRun, ← hmarker]
    exact ih (sampleRun_put hrun hx) (fun y hy => hvalid y (mem_cons_of_mem _ hy)) hfollows'
      (hmarker ▸ hnamed.put policy hd hrun hx)
  | met x hmem _ ih =>
    have hx := hvalid x mem_cons_self
    have hsame := hnamed.markerAfter_of_mem hd hrun hmem
    have hnew := newestTs_put_of_mem policy hrun.increasing hmem
    rw [markerRun, hsame]
    refine ih (sampleRun_put hrun hx) (fun y hy => hvalid y (mem_cons_of_mem _ hy)) ⟨?_, ?_⟩ ?_
    · rw [hfollows.current, openBucket_eq, openBucket_eq, hnew]
    · rw [hfollows.highWater, hnew]
    · have hnamed' := hnamed.put policy hd hrun hx
      rwa [hsame] at hnamed'
  | turnedAway x hloose _ ih =>
    obtain ⟨hnamed', -⟩ := ih hrun (fun y hy => hvalid y (mem_cons_of_mem _ hy)) hfollows hnamed
    exact ⟨hnamed', fun hnot => absurd hloose hnot⟩

end Trace

end ValkeyTimeSeries
