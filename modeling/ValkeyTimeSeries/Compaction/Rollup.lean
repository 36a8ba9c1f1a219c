/-
Compaction/Rollup.lean

What a compaction rule is for: the destination is the rollup of the source.

Design.  The rollup of a list of samples has, for each bucket before the one of the newest sample, the
aggregate of the samples of that bucket.  A rule is in sync when its destination is the rollup of its source
and its aggregator has been fed the samples of the newest bucket.  A write disturbs single buckets, so
`InSyncExcept` says the same of all buckets but some.
-/
import ValkeyTimeSeries.Compaction.Rule

namespace ValkeyTimeSeries

open List Bucketing

/-! ### Aggregates -/

/-- Resetting forgets what an aggregator was fed. -/
class LawfulAggregator (A : Type) [Aggregator A] : Prop where
  reset_update (a : A) (ts : Int) (value : F64) :
    Aggregator.reset (Aggregator.update a ts value).1 = Aggregator.reset a
  reset_reset (a : A) : Aggregator.reset (Aggregator.reset a) = Aggregator.reset a

section Aggregates

variable {A : Type} [Aggregator A]

/-- An aggregator after it was reset and fed samples, and whether it took one. -/
def fresh (a : A) (l : List Sample) : A × Bool := l.foldl CompactionContext.feed (Aggregator.reset a, false)

/-- The value of a bucket with the samples: there is none if the aggregator took none. -/
def aggregate (a : A) (l : List Sample) : Option F64 :=
  if (fresh a l).2 then some (Aggregator.finalize (fresh a l).1).1 else none

theorem fresh_concat (a : A) (l : List Sample) (x : Sample) :
    fresh a (l ++ [x]) = CompactionContext.feed (fresh a l) x := foldl_concat ..

@[simp] theorem aggregate_nil (a : A) : aggregate a [] = none := rfl

theorem fresh_congr {a a' : A} (h : Aggregator.reset a' = Aggregator.reset a) (l : List Sample) :
    fresh a' l = fresh a l := by
  rw [fresh, h, fresh]

theorem aggregate_congr {a a' : A} (h : Aggregator.reset a' = Aggregator.reset a) (l : List Sample) :
    aggregate a' l = aggregate a l := by
  rw [aggregate, fresh_congr h, aggregate]

/-- Every good sample brings a bucket that has it a value. -/
def Accepts (good : F64 → Prop) (a : A) : Prop :=
  ∀ l : List Sample, l ≠ [] → (∀ x ∈ l, good x.value) → (fresh a l).2 = true

def aggregateValue (a : A) (l : List Sample) : F64 := (Aggregator.finalize (fresh a l).1).1

theorem Accepts.congr {good : F64 → Prop} {a a' : A} (h : Accepts good a)
    (hreset : Aggregator.reset a' = Aggregator.reset a) : Accepts good a' := by
  intro l hne hl
  rw [fresh_congr hreset]
  exact h l hne hl

theorem aggregate_of_accepts {good : F64 → Prop} {a : A} (htakes : Accepts good a) {l : List Sample}
    (hgood : ∀ x ∈ l, good x.value) : aggregate a l = if l = [] then none else some (aggregateValue a l) := by
  split
  · rename_i hnil
    rw [hnil, aggregate_nil]
  · rename_i hne
    rw [aggregate, if_pos (htakes l hne hgood), aggregateValue]

variable [LawfulAggregator A]

theorem reset_feed (st : A × Bool) (x : Sample) : Aggregator.reset (CompactionContext.feed st x).1 =
    Aggregator.reset st.1 :=
  LawfulAggregator.reset_update ..

theorem reset_fresh (a : A) (l : List Sample) : Aggregator.reset (fresh a l).1 = Aggregator.reset a := by
  induction l using List.reverseRecOn with
  | nil => exact LawfulAggregator.reset_reset a
  | append_singleton l x ih => rw [fresh_concat, reset_feed, ih]

end Aggregates

/-! ### Buckets of a list -/

namespace Bucketing

variable (b : Bucketing)

def inBucket (k : Int) (l : List Sample) : List Sample := l.filter fun x => b.calcBucketStart x.timestamp = k

/-- The bucket of the newest sample. -/
def openBucket (l : List Sample) : Option Int := l.getLast?.map fun x => b.calcBucketStart x.timestamp

def newestBucket (l : List Sample) : List Sample := (b.openBucket l).elim [] fun k => b.inBucket k l

variable {b} {l l' : List Sample} {k : Int} {x : Sample}

theorem mem_inBucket : x ∈ b.inBucket k l ↔ x ∈ l ∧ b.calcBucketStart x.timestamp = k := by
  rw [inBucket, mem_filter, decide_eq_true_eq]

theorem inBucket_concat (l : List Sample) (x : Sample) (k : Int) :
    b.inBucket k (l ++ [x]) = b.inBucket k l ++ if b.calcBucketStart x.timestamp = k then [x] else [] := by
  rw [inBucket, filter_append, filter_singleton, inBucket]
  congr 1
  by_cases h : b.calcBucketStart x.timestamp = k
  · rw [if_pos h, decide_eq_true h]
    rfl
  · rw [if_neg h, decide_eq_false h]
    rfl

theorem openBucket_concat (l : List Sample) (x : Sample) :
    b.openBucket (l ++ [x]) = some (b.calcBucketStart x.timestamp) := by
  rw [openBucket, getLast?_concat]
  rfl

theorem openBucket_eq_none : b.openBucket l = none ↔ l = [] := by
  rw [openBucket, Option.map_eq_none_iff, getLast?_eq_none_iff]

theorem inBucket_congr (h : Increasing l) (h' : Increasing l')
    (hat : ∀ t, b.calcBucketStart t = k → sampleAt t l' = sampleAt t l) : b.inBucket k l' = b.inBucket k l := by
  refine Increasing.ext (h'.sublist filter_sublist) (h.sublist filter_sublist) fun x => ?_
  rw [mem_inBucket, mem_inBucket]
  refine and_congr_left fun hx => ?_
  have hiff := h'.sampleAt_eq_some (t := x.timestamp) (x := x)
  rw [hat x.timestamp hx, h.sampleAt_eq_some] at hiff
  simpa using hiff.symm

theorem le_openBucket (hd : b.NoWrap) (h : SampleRun l) {o : Int} (ho : b.openBucket l = some o) (hx : x ∈ l) :
    b.calcBucketStart x.timestamp ≤ o := by
  obtain ⟨last, hlast, rfl⟩ := Option.map_eq_some_iff.mp ho
  exact calcBucketStart_mono hd (h.times x hx) (h.times last (mem_of_getLast? hlast))
    ((h.increasing.getLast?_eq_some.mp hlast).2 x hx)

theorem inBucket_eq_nil_of_lt (hd : b.NoWrap) (h : SampleRun l) {o : Int} (ho : b.openBucket l = some o)
    (hk : o < k) : b.inBucket k l = [] := by
  refine eq_nil_iff_forall_not_mem.mpr fun x hx => ?_
  obtain ⟨hmem, rfl⟩ := mem_inBucket.mp hx
  have := le_openBucket hd h ho hmem
  omega

end Bucketing

/-! ### The rollup -/

section Rollup

variable {A : Type} [Aggregator A]

/-- The aggregate of a bucket, as a sample, if the bucket is before `o`. -/
def rollupBelow (b : Bucketing) (a : A) (o : Int) (l : List Sample) (k : Int) : Option Sample :=
  if k < o then (aggregate a (b.inBucket k l)).map fun v => ⟨k, v⟩ else none

/-- The sample of the rollup at a bucket: one for each bucket before the open one. -/
def rollupAt (b : Bucketing) (a : A) (l : List Sample) (k : Int) : Option Sample :=
  (b.openBucket l).bind fun o => rollupBelow b a o l k

/-- The rule and the samples of its destination agree with those of the source, except for
some buckets.  No bucket from the open one on has a sample in the destination. -/
structure InSyncExcept (stale : Int → Prop) (rule : CompactionRule A) (source target : List Sample) : Prop where
  bucketStart : rule.bucketStart = rule.openBucket source
  aggregator : ∀ o, rule.openBucket source = some o → ¬ stale o →
    (rule.aggregator, rule.hasSamples) = fresh rule.aggregator (rule.inBucket o source)
  dest : ∀ o, rule.openBucket source = some o → ∀ k, (stale k → o ≤ k) →
    sampleAt k target = rollupBelow rule.toBucketing rule.aggregator o source k
  idle : rule.openBucket source = none →
    (rule.aggregator, rule.hasSamples) = fresh rule.aggregator [] ∧ ∀ k, sampleAt k target = none

/-- The destination is the rollup of the source, and the aggregator holds the newest bucket. -/
abbrev InSync (rule : CompactionRule A) (source dest : List Sample) : Prop :=
  InSyncExcept (fun _ => False) rule source dest

/-- Nothing of a rule has changed but its progress. -/
structure SameRule (rule rule' : CompactionRule A) : Prop where
  bucketing : rule'.toBucketing = rule.toBucketing
  dest : rule'.dest = rule.dest
  reset : Aggregator.reset rule'.aggregator = Aggregator.reset rule.aggregator

theorem SameRule.refl (rule : CompactionRule A) : SameRule rule rule := ⟨rfl, rfl, rfl⟩

theorem SameRule.trans {rule rule' rule'' : CompactionRule A} (h : SameRule rule rule') (h' : SameRule rule' rule'') :
    SameRule rule rule'' :=
  ⟨h'.bucketing.trans h.bucketing, h'.dest.trans h.dest, h'.reset.trans h.reset⟩

variable {b : Bucketing}

theorem rollupAt_congr {a a' : A} (h : Aggregator.reset a' = Aggregator.reset a) (l : List Sample)
    (k : Int) : rollupAt b a' l k = rollupAt b a l k := by
  refine Option.bind_congr fun o _ => ?_
  rw [rollupBelow, rollupBelow, aggregate_congr h]

theorem rollupBelow_concat {a : A} {l : List Sample} {x : Sample} (hd : b.NoWrap) (hrun : SampleRun l)
    {o : Int} (ho : b.openBucket l = some o) (hlt : o < b.calcBucketStart x.timestamp) (k : Int) :
    rollupBelow b a (b.calcBucketStart x.timestamp) (l ++ [x]) k
    = if k = o then (aggregate a (b.inBucket o l)).map (fun v => ⟨o, v⟩) else rollupBelow b a o l k := by
  rw [rollupBelow, rollupBelow]
  by_cases hk : k < b.calcBucketStart x.timestamp
  · rw [if_pos hk, inBucket_concat, if_neg (by omega), append_nil]
    split
    · rename_i heq
      rw [heq]
    · split
      · rfl
      · rw [inBucket_eq_nil_of_lt hd hrun ho (by omega)]
        rfl
  · rw [if_neg hk, if_neg (by omega), if_neg (by omega)]

variable {rule : CompactionRule A} {l l' d : List Sample}

theorem InSync.sampleAt_eq (h : InSync rule l d) (k : Int) :
    sampleAt k d = rollupAt rule.toBucketing rule.aggregator l k := by
  rw [rollupAt]
  cases ho : rule.openBucket l with
  | none => exact (h.idle ho).2 k
  | some o => exact h.dest o ho k False.elim

variable {stale : Int → Prop}

theorem SameRule.inSyncExcept {rule' : CompactionRule A} (hsame : SameRule rule rule') {o : Int}
    (ho : rule.openBucket l = some o) (hstart : rule'.bucketStart = some o)
    (hagg : ¬ stale o → (rule'.aggregator, rule'.hasSamples) = fresh rule.aggregator (rule.inBucket o l))
    (hdest : ∀ k, (stale k → o ≤ k) → sampleAt k d = rollupBelow rule.toBucketing rule.aggregator o l k) :
    InSyncExcept stale rule' l d := by
  have ho' : rule'.openBucket l = some o := by rw [hsame.bucketing, ho]
  refine ⟨hstart.trans ho'.symm, fun o' ho'' hk => ?_, fun o' ho'' k hk => ?_, fun hnone => ?_⟩
  · obtain rfl : o = o' := Option.some.inj (ho'.symm.trans ho'')
    rw [fresh_congr hsame.reset, hsame.bucketing]
    exact hagg hk
  · obtain rfl : o = o' := Option.some.inj (ho'.symm.trans ho'')
    rw [hdest k hk, hsame.bucketing, rollupBelow, rollupBelow, aggregate_congr hsame.reset]
  · rw [ho'] at hnone
    cases hnone

theorem InSync.except (h : InSync rule l d) (hl : Increasing l) (hl' : Increasing l')
    (hat : ∀ t, ¬ stale (rule.calcBucketStart t) → sampleAt t l' = sampleAt t l) {o : Int}
    (ho : rule.openBucket l = some o) (ho' : rule.openBucket l' = some o) : InSyncExcept stale rule l' d := by
  have hsame (k : Int) (hk : ¬ stale k) : rule.inBucket k l' = rule.inBucket k l :=
    inBucket_congr hl hl' fun t ht => hat t (ht.symm ▸ hk)
  refine (SameRule.refl rule).inSyncExcept ho' (h.bucketStart.trans ho) (fun hk => ?_) fun k hk => ?_
  · rw [hsame o hk]
    exact h.aggregator o ho id
  · rw [h.dest o ho k False.elim, rollupBelow, rollupBelow]
    split
    · rename_i hlt
      rw [hsame k fun hs => absurd (hk hs) (not_le.mpr hlt)]
    · rfl

theorem InSyncExcept.mono {stale' : Int → Prop} (h : InSyncExcept stale rule l d)
    (hsub : ∀ k, stale k → stale' k) : InSyncExcept stale' rule l d :=
  ⟨h.bucketStart, fun o ho hk => h.aggregator o ho fun hs => hk (hsub o hs),
    fun o ho k hk => h.dest o ho k fun hs => hk (hsub k hs), h.idle⟩

/-! ### The rollup as a list -/

/-- One sample for each bucket with samples that is before the bucket of the newest one. -/
def rollup (b : Bucketing) (a : A) (l : List Sample) : List Sample :=
  let starts := (l.map fun x => b.calcBucketStart x.timestamp).dedup
  (starts.filter fun k => (b.openBucket l).any (k < ·)).map fun k => ⟨k, aggregateValue a (b.inBucket k l)⟩

theorem rollup_congr {a a' : A} (h : Aggregator.reset a' = Aggregator.reset a) (l : List Sample) :
    rollup b a' l = rollup b a l := by
  simp only [rollup, aggregateValue, fresh_congr h]

theorem mem_rollup {a : A} {l : List Sample} {y : Sample} : y ∈ rollup b a l ↔
    (∃ o, b.openBucket l = some o ∧ y.timestamp < o)
    ∧ b.inBucket y.timestamp l ≠ [] ∧ y.value = aggregateValue a (b.inBucket y.timestamp l) := by
  have hnil (k : Int) : k ∈ l.map (fun x => b.calcBucketStart x.timestamp) ↔ b.inBucket k l ≠ [] := by
    rw [mem_map, Ne, eq_nil_iff_forall_not_mem]
    simp [mem_inBucket]
  have hopen (k : Int) : (b.openBucket l).any (k < ·) = true ↔ ∃ o, b.openBucket l = some o ∧ k < o := by
    rw [Option.any_eq_true]
    simp
  rw [rollup, mem_map]
  constructor
  · rintro ⟨k, hk, rfl⟩
    obtain ⟨hk, ho⟩ := mem_filter.mp hk
    exact ⟨(hopen k).mp ho, (hnil k).mp (mem_dedup.mp hk), rfl⟩
  · rintro ⟨ho, hne, hv⟩
    refine ⟨y.timestamp, mem_filter.mpr ⟨mem_dedup.mpr ((hnil _).mpr hne), (hopen _).mpr ho⟩, ?_⟩
    rw [← hv]

theorem increasing_rollup {a : A} {l : List Sample} (hd : b.NoWrap) (h : SampleRun l) : Increasing (rollup b a l) := by
  have hsorted : (l.map fun x => b.calcBucketStart x.timestamp).Pairwise (· ≤ ·) := by
    refine pairwise_map.mpr (h.increasing.imp_of_mem fun {x y} hx hy hlt => ?_)
    exact calcBucketStart_mono hd (h.times x hx) (h.times y hy) hlt.le
  have hstrict : ((l.map fun x => b.calcBucketStart x.timestamp).dedup).Pairwise (· < ·) :=
    ((hsorted.sublist (dedup_sublist _)).and (nodup_dedup _)).imp fun h => lt_of_le_of_ne h.1 h.2
  rw [rollup, Increasing, pairwise_map]
  exact hstrict.sublist filter_sublist

theorem InSync.eq_rollup {good : F64 → Prop} {rule : CompactionRule A} {l d : List Sample} (h : InSync rule l d)
    (hd : rule.NoWrap) (hrun : SampleRun l) (hgood : ∀ x ∈ l, good x.value) (htakes : Accepts good rule.aggregator)
    (hinc : Increasing d) : d = rollup rule.toBucketing rule.aggregator l := by
  refine Increasing.ext hinc (increasing_rollup hd hrun) fun y => ?_
  have hiff : sampleAt y.timestamp d = some y ↔ y ∈ d := hinc.sampleAt_eq_some.trans (and_iff_left rfl)
  have hagg := aggregate_of_accepts htakes fun x (hx : x ∈ rule.inBucket y.timestamp l) =>
    hgood x (mem_inBucket.mp hx).1
  rw [← hiff, h.sampleAt_eq, mem_rollup, rollupAt, Option.bind_eq_some_iff]
  simp only [rollupBelow, hagg]
  constructor
  · rintro ⟨o, ho, hy⟩
    have hlt : y.timestamp < o := by
      by_contra hge
      rw [if_neg hge] at hy
      cases hy
    have hne : rule.inBucket y.timestamp l ≠ [] := by
      intro hnil
      rw [if_pos hlt, if_pos hnil] at hy
      cases hy
    rw [if_pos hlt, if_neg hne] at hy
    exact ⟨⟨o, ho, hlt⟩, hne, (congrArg Sample.value (Option.some.inj hy)).symm⟩
  · rintro ⟨⟨o, ho, hlt⟩, hne, hv⟩
    refine ⟨o, ho, ?_⟩
    rw [if_pos hlt, if_neg hne, ← hv]
    rfl
end Rollup

end ValkeyTimeSeries
