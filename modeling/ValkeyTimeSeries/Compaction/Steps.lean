/-
Compaction/Steps.lean

What the steps of the compaction code do to a destination that is in sync.

Design.  One lemma for each step, from the writes to the destination up to the three ways a bucket changes: a
sample is appended, the open bucket is fed again, or a closed bucket is calculated again.
-/
import ValkeyTimeSeries.Compaction.Destination

namespace ValkeyTimeSeries

open List Bucketing LawfulAggregator

/-! ### Assumptions -/

section Assumptions

variable {A : Type} [Aggregator A]

/-- The aggregates of good samples are ordinary. -/
def Numeric (good : F64 → Prop) (a : A) : Prop :=
  ∀ l : List Sample, (∀ x ∈ l, good x.value) → ∀ v, aggregate a l = some v → v.Ordinary

/-- A rule whose bucket arithmetic does not wrap and whose aggregates are ordinary. -/
structure Admissible (good : F64 → Prop) (rule : CompactionRule A) : Prop where
  noWrap : rule.NoWrap
  numeric : Numeric good rule.aggregator

theorem SameRule.admissible {good : F64 → Prop} {rule rule' : CompactionRule A} (hsame : SameRule rule rule')
    (h : Admissible good rule) : Admissible good rule' := by
  refine ⟨by rw [hsame.bucketing]; exact h.noWrap, fun l hl v hv => h.numeric l hl v ?_⟩
  rwa [← aggregate_congr hsame.reset]

/-- A run of good samples whose buckets end in the range of `i64`. -/
structure Fine (good : F64 → Prop) (b : Bucketing) (l : List Sample) : Prop where
  run : SampleRun l
  fits : ∀ x ∈ l, b.Fits x.timestamp
  good : ∀ x ∈ l, good x.value

theorem Fine.inBucket {good : F64 → Prop} {b : Bucketing} {l : List Sample} (h : Fine good b l) (k : Int) :
    ∀ x ∈ b.inBucket k l, good x.value := fun x hx => h.good x (mem_inBucket.mp hx).1

theorem Fine.sublist {good : F64 → Prop} {b : Bucketing} {l l' : List Sample} (h : Fine good b l)
    (hsub : l'.Sublist l) : Fine good b l' :=
  ⟨h.run.sublist hsub, fun x hx => h.fits x (hsub.subset hx), fun x hx => h.good x (hsub.subset hx)⟩

end Assumptions

/-! ### Reading a bucket of the source -/

section Reading

variable {A : Type} [Aggregator A] [DecimalHelpers] {b : Bucketing} {good : F64 → Prop} {s : TimeSeries}

theorem Fine.between_iff (hd : b.NoWrap) (h : Fine good b s.samples) {t : Int} (ht : ValidTs t) {x : Sample}
    (hx : x ∈ s.samples) : (b.calcBucketStart t ≤ x.timestamp ∧ x.timestamp ≤ b.bucketEnd (b.calcBucketStart t) - 1)
    ↔ b.calcBucketStart x.timestamp = b.calcBucketStart t := by
  by_cases hfit : b.Fits t
  · rw [calcBucketStart_eq_iff hd ht hfit (h.run.times x hx)]
    omega
  · -- the bucket has no samples, and the range is empty
    rw [bucketEnd_of_not_fits hd ht hfit]
    refine ⟨fun hin => by omega, fun heq => absurd ?_ hfit⟩
    have hx := h.fits x hx
    rw [Bucketing.Fits] at hx ⊢
    omega

theorem calculateRange_eq (hd : b.NoWrap) (hwf : s.WF) (h : Fine good b s.samples) (a : A) {t : Int} (ht : ValidTs t)
    {m : Int} (hmin : ∀ x ∈ s.samples, m ≤ x.timestamp) {f : Int → Bool}
    (hfilter : ∀ x ∈ s.samples, f x.timestamp = true) :
    CompactionContext.calculateRange s a (b.calcBucketStart t) (b.bucketEnd (b.calcBucketStart t) - 1) m f
    = fresh a (b.inBucket (b.calcBucketStart t) s.samples) := by
  rw [CompactionContext.calculateRange, hwf.storedRangeIter_eq, fresh, samplesIn, filter_filter]
  congr 1
  refine filter_congr fun x hx => ?_
  have hiff := h.between_iff hd ht hx
  have := hmin x hx
  rw [hfilter x hx, Bool.true_and, decide_eq_decide, ← hiff]
  omega

theorem TimeSeries.WF.getMinTimestamp_le (h : s.WF) (hret : s.retention = 0) :
    ∀ x ∈ s.samples, s.getMinTimestamp ≤ x.timestamp := by
  intro x hx
  rw [TimeSeries.getMinTimestamp, if_pos hret, h.first]
  exact h.run.headTs_le hx

end Reading

namespace CompactionContext

variable {A : Type} [DecimalHelpers] {c c' : CompactionContext A}

structure Ready (c : CompactionContext A) : Prop where
  plain : c.dest.Plain
  ordinary : ∀ x ∈ c.dest.samples, x.value.Ordinary

theorem Ready.congr (h : c.Ready) (hdest : c'.dest = c.dest) : c'.Ready := by
  constructor
  · rw [hdest]
    exact h.plain
  · rw [hdest]
    exact h.ordinary

structure Wrote (c : CompactionContext A) (x : Sample) (o : Option Sample) (c' : CompactionContext A) : Prop where
  ready : c'.Ready
  parent : c'.parent = c.parent
  rule : c'.rule = c.rule
  sampleAt_eq : ∀ t, sampleAt t c'.dest.samples = if t = x.timestamp then some x else sampleAt t c.dest.samples
  landed : (o = some x ∧ c'.written = c.written ++ [x] ∧ c'.lastForwardClose = c.lastForwardClose.or (some x))
    ∨ (o = none ∧ c'.written = c.written ∧ c'.lastForwardClose = c.lastForwardClose
      ∧ sampleAt x.timestamp c.dest.samples = some x)

structure Removed (c : CompactionContext A) (start endTs : Int) (c' : CompactionContext A) : Prop where
  ready : c'.Ready
  parent : c'.parent = c.parent
  rule : c'.rule = c.rule
  written : c'.written = c.written
  samples_eq : c'.dest.samples = samplesOut start endTs c.dest.samples
  marker : c'.lastForwardClose = c.lastForwardClose.bind fun m =>
    if sampleAt m.timestamp c'.dest.samples = none then c'.dest.samples.getLast? else some m

theorem Removed.sampleAt_eq {start endTs : Int} (h : Removed c start endTs c') (t : Int) :
    sampleAt t c'.dest.samples = if start ≤ t ∧ t ≤ endTs then none else sampleAt t c.dest.samples := by
  rw [h.samples_eq, sampleAt_samplesOut]

theorem removeDestRange_spec (h : c.Ready) (start endTs : Int) :
    ∃ c', c.removeDestRange start endTs = (.ok (), c') ∧ Removed c start endTs c' := by
  obtain ⟨count, dest, hdest, hcut⟩ := h.plain.removeRange_spec start endTs
  rw [removeDestRange, hdest]
  refine ⟨_, rfl, ⟨hcut.plain, fun x hx => h.ordinary x ?_⟩, rfl, rfl, rfl, hcut.samples_eq, ?_⟩
  · rw [hcut.samples_eq] at hx
    exact (mem_filter.mp hx).1
  · cases c.lastForwardClose with
    | none => rfl
    | some m =>
      simp only [hcut.plain.wf.getSample_eq, Except.ok.injEq, Option.bind_some, hcut.plain.wf.last]

section

variable [Env] [LawfulFloatOps]

theorem addDestBucket_spec (h : c.Ready) {k : Int} (hk : c.rule.calcBucketStart k = k) (hts : ValidTs k) {v : F64}
    (hv : v.Ordinary) : ∃ o c', c.addDestBucket k v = (.ok o, c') ∧ Wrote c ⟨k, v⟩ o c' := by
  have hput := h.plain.add_spec h.ordinary hts hv
  rw [addDestBucket, hk]
  generalize c.dest.add k v (some .keepLast) = r at hput ⊢
  obtain ⟨res, dest⟩ := r
  have hready (c' : CompactionContext A) (hc' : c'.dest = dest) : c'.Ready := by
    refine ⟨hc' ▸ hput.plain, fun x hx => ?_⟩
    rw [hc'] at hx
    have hat := hput.sampleAt_eq x.timestamp
    rw [hput.plain.wf.run.increasing.sampleAt_eq_some.mpr ⟨hx, rfl⟩] at hat
    split at hat
    · rw [Option.some.inj hat]
      exact hv
    · exact h.ordinary x (mem_of_sampleAt hat.symm)
  rcases hput.result with rfl | ⟨⟨t, rfl⟩, hat⟩
  · exact ⟨_, _, rfl, hready _ rfl, rfl, rfl, hput.sampleAt_eq, .inl ⟨rfl, rfl, rfl⟩⟩
  · exact ⟨_, _, rfl, hready _ rfl, rfl, rfl, hput.sampleAt_eq, .inr ⟨rfl, rfl, rfl, hat⟩⟩

/-! ### A closed bucket is calculated again -/

/-- What the recalculation of a bucket leaves: its value, or nothing in the bucket's range. -/
inductive Mended (c : CompactionContext A) (k bucketEnd : Int) : Option F64 → CompactionContext A → Prop
  | wrote {v : F64} {o : Option Sample} {c' : CompactionContext A} (h : Wrote c ⟨k, v⟩ o c') :
      Mended c k bucketEnd (some v) c'
  | removed {c' : CompactionContext A} (h : Removed c k (bucketEnd - 1) c') : Mended c k bucketEnd none c'

omit [Env] [LawfulFloatOps] in
theorem Mended.frame {k bucketEnd : Int} {o : Option F64} (h : Mended c k bucketEnd o c') :
    c'.Ready ∧ c'.parent = c.parent ∧ c'.rule = c.rule := by
  cases h with
  | wrote h => exact ⟨h.ready, h.parent, h.rule⟩
  | removed h => exact ⟨h.ready, h.parent, h.rule⟩

variable [Aggregator A]

/-- The parent, as the steps read it. -/
structure Reads (good : F64 → Prop) (c : CompactionContext A) (l : List Sample) : Prop where
  wf : c.parent.WF
  samples : c.parent.samples = l
  fine : Fine good c.rule.toBucketing l

variable {good : F64 → Prop} {l : List Sample}

theorem recalculateBucket_spec (hrule : Admissible good c.rule) (hready : c.Ready) (hreads : Reads good c l)
    {t : Int} (ht : ValidTs t) {m : Int} (hmin : ∀ x ∈ l, m ≤ x.timestamp) {f : Int → Bool}
    (hfilter : ∀ x ∈ l, f x.timestamp = true) :
    ∃ c', c.recalculateBucket (c.rule.calcBucketStart t) (c.rule.bucketEnd (c.rule.calcBucketStart t)) m f
    = (.ok (), c') ∧ Mended c (c.rule.calcBucketStart t) (c.rule.bucketEnd (c.rule.calcBucketStart t))
    (aggregate c.rule.aggregator (c.rule.inBucket (c.rule.calcBucketStart t) l)) c' := by
  obtain ⟨hwf, rfl, hfine⟩ := hreads
  have hrange := calculateRange_eq hrule.noWrap hwf hfine c.rule.aggregator ht hmin hfilter
  have hagg : aggregate c.rule.aggregator (c.rule.inBucket (c.rule.calcBucketStart t) c.parent.samples)
      = if (fresh c.rule.aggregator (c.rule.inBucket (c.rule.calcBucketStart t) c.parent.samples)).2 = true then
          some (Aggregator.finalize
            (fresh c.rule.aggregator (c.rule.inBucket (c.rule.calcBucketStart t) c.parent.samples)).1).1
        else none := rfl
  have hnumeric := hrule.numeric _ (hfine.inBucket (c.rule.calcBucketStart t))
  rw [recalculateBucket, hrange]
  generalize fresh c.rule.aggregator (c.rule.inBucket (c.rule.calcBucketStart t) c.parent.samples) = r at hagg ⊢
  obtain ⟨a, taken⟩ := r
  cases taken with
  | true =>
    obtain ⟨o, c', hc', hwrote⟩ := addDestBucket_spec hready (calcBucketStart_self hrule.noWrap ht)
      (calcBucketStart_valid hrule.noWrap ht) (hnumeric _ hagg)
    dsimp only
    rw [if_pos rfl, hc', hagg]
    exact ⟨c', rfl, .wrote hwrote⟩
  | false =>
    obtain ⟨c', hc', hrem⟩ := removeDestRange_spec hready (c.rule.calcBucketStart t)
      (c.rule.bucketEnd (c.rule.calcBucketStart t) - 1)
    dsimp only
    rw [if_neg Bool.false_ne_true, hc', hagg]
    exact ⟨c', rfl, .removed hrem⟩

end

/-! ### What is mended -/

section

variable [Aggregator A] {good : F64 → Prop} {l : List Sample} {stale : Int → Prop}

theorem Mended.rollupBelow_eq {stale : Int → Prop} (hd : c.rule.NoWrap) (hfine : Fine good c.rule.toBucketing l)
    {t o : Int}
    (ht : ValidTs t) (hk : c.rule.calcBucketStart t < o ∨ c.rule.inBucket (c.rule.calcBucketStart t) l = [])
    (hdest : ∀ k, ¬ stale k → sampleAt k c.dest.samples = rollupBelow c.rule.toBucketing c.rule.aggregator o l k)
    (h : Mended c (c.rule.calcBucketStart t) (c.rule.bucketEnd (c.rule.calcBucketStart t))
    (aggregate c.rule.aggregator (c.rule.inBucket (c.rule.calcBucketStart t) l)) c')
    (k : Int) (hstale : stale k → k = c.rule.calcBucketStart t ∧ c.rule.Fits t) :
    sampleAt k c'.dest.samples = rollupBelow c.rule.toBucketing c.rule.aggregator o l k := by
  have hself : rollupBelow c.rule.toBucketing c.rule.aggregator o l (c.rule.calcBucketStart t)
      = (aggregate c.rule.aggregator (c.rule.inBucket (c.rule.calcBucketStart t) l)).map
          fun v => ⟨c.rule.calcBucketStart t, v⟩ := by
    rw [rollupBelow]
    split
    · rfl
    · rename_i hnot
      rw [hk.resolve_left hnot]
      rfl
  generalize hv : aggregate c.rule.aggregator (c.rule.inBucket (c.rule.calcBucketStart t) l) = v at h hself
  cases h with
  | wrote h =>
    rw [h.sampleAt_eq]
    split
    · rename_i heq
      rw [show k = c.rule.calcBucketStart t from heq, hself]
      rfl
    · rename_i hne
      exact hdest k fun hs => hne (hstale hs).1
  | removed h =>
    rw [h.sampleAt_eq]
    split
    · rename_i hin
      by_cases heq : k = c.rule.calcBucketStart t
      · rw [heq, hself]
        rfl
      · -- a later key of the range is not the start of a bucket
        have hnil : c.rule.inBucket k l = [] := by
          refine eq_nil_iff_forall_not_mem.mpr fun x hx => heq ?_
          obtain ⟨hx, hxk⟩ := mem_inBucket.mp hx
          have hxv := hfine.run.times x hx
          by_cases hfit : c.rule.Fits t
          · have hkv : ValidTs k := hxk ▸ calcBucketStart_valid hd hxv
            have := (calcBucketStart_eq_iff hd ht hfit hkv).mpr ⟨hin.1, by omega⟩
            rw [← this, ← hxk, calcBucketStart_self hd hxv]
          · rw [bucketEnd_of_not_fits hd ht hfit] at hin
            omega
        rw [rollupBelow, hnil]
        simp
    · rename_i hout
      refine hdest k fun hs => hout ?_
      obtain ⟨rfl, hfit⟩ := hstale hs
      have := calcBucketStart_lt_bucketEnd hd ht hfit
      exact ⟨le_rfl, by omega⟩

theorem Mended.inSyncExcept (hd : c.rule.NoWrap) (hfine : Fine good c.rule.toBucketing l) {t o : Int} (ht : ValidTs t)
    (hsync : InSyncExcept stale c.rule l c.dest.samples) (ho : c.rule.openBucket l = some o)
    (hne : c.rule.calcBucketStart t ≠ o)
    (h : Mended c (c.rule.calcBucketStart t) (c.rule.bucketEnd (c.rule.calcBucketStart t))
    (aggregate c.rule.aggregator (c.rule.inBucket (c.rule.calcBucketStart t) l)) c')
    (hfits : stale (c.rule.calcBucketStart t) → c.rule.Fits t) :
    InSyncExcept (fun k => stale k ∧ k ≠ c.rule.calcBucketStart t) c'.rule l c'.dest.samples := by
  have hk : c.rule.calcBucketStart t < o ∨ c.rule.inBucket (c.rule.calcBucketStart t) l = [] := by
    rcases lt_or_gt_of_ne hne with hlt | hgt
    · exact .inl hlt
    · exact .inr (inBucket_eq_nil_of_lt hd hfine.run ho hgt)
  rw [h.frame.2.2]
  refine (SameRule.refl c.rule).inSyncExcept ho (hsync.bucketStart.trans ho) (fun hs => ?_) fun k hs => ?_
  · exact hsync.aggregator o ho fun hstale => hs ⟨hstale, hne.symm⟩
  · have hdest (j : Int) (hj : ¬ (stale j ∧ j < o)) : sampleAt j c.dest.samples
        = rollupBelow c.rule.toBucketing c.rule.aggregator o l j :=
      hsync.dest o ho j fun hstale => not_lt.mp fun hlt => hj ⟨hstale, hlt⟩
    refine h.rollupBelow_eq hd hfine ht hk hdest k fun hstale => ?_
    by_contra hand
    have := hs ⟨hstale.1, fun heq => hand ⟨heq, hfits (heq ▸ hstale.1)⟩⟩
    omega

/-! ### What is logged -/

/-- The destination has changed where something was written to it, to what was written last. -/
def Logged (before : List Sample) (c : CompactionContext A) : Prop :=
  ∀ k, sampleAt k c.dest.samples = (sampleAt k c.written.reverse).or (sampleAt k before)

def marker (c : CompactionContext A) : Option Int := c.lastForwardClose.map (·.timestamp)

/-- The marker names a bucket of the destination, and is unset while there is none. -/
structure Live (c : CompactionContext A) : Prop where
  named : ∀ t, c.marker = some t → sampleAt t c.dest.samples ≠ none
  unset : c.marker = none → c.dest.samples = []

section

omit [Aggregator A]

theorem Live.congr (h : c.Live) (hdest : c'.dest = c.dest) (hmarker : c'.lastForwardClose = c.lastForwardClose) :
    c'.Live := by
  refine ⟨fun t ht => ?_, fun hnone => ?_⟩
  · rw [marker, hmarker] at ht
    rw [hdest]
    exact h.named t ht
  · rw [marker, hmarker] at hnone
    rw [hdest]
    exact h.unset hnone

theorem Wrote.logged {before : List Sample} {x : Sample} {o : Option Sample} (h : Wrote c x o c')
    (hlog : Logged before c) : Logged before c' := by
  intro k
  rw [h.sampleAt_eq]
  rcases h.landed with ⟨-, hwritten, -⟩ | ⟨-, hwritten, -, hat⟩
  · rw [hwritten, reverse_append, reverse_singleton, sampleAt_append, sampleAt_singleton]
    by_cases hk : k = x.timestamp
    · rw [if_pos hk, if_pos hk.symm]
      rfl
    · rw [if_neg hk, if_neg (Ne.symm hk), Option.none_or]
      exact hlog k
  · rw [hwritten]
    split
    · rename_i hk
      rw [← hlog k, hk, hat]
    · exact hlog k

theorem Wrote.marker_eq {x : Sample} {o : Option Sample} (h : Wrote c x o c') (hlive : c.Live) :
    c'.marker = c.marker.or (some x.timestamp) := by
  rcases h.landed with ⟨-, -, hmarker⟩ | ⟨-, -, hmarker, hat⟩
  · rw [marker, hmarker, marker]
    cases c.lastForwardClose <;> rfl
  · rw [marker, hmarker]
    change c.marker = _
    cases hm : c.marker with
    | none => exact absurd (hlive.unset hm) (ne_nil_of_mem (mem_of_sampleAt hat))
    | some m => rfl

theorem Wrote.live {x : Sample} {o : Option Sample} (h : Wrote c x o c') (hlive : c.Live) : c'.Live := by
  have hmarker := h.marker_eq hlive
  refine ⟨fun t ht => ?_, fun hnone => ?_⟩
  · rw [h.sampleAt_eq]
    split
    · exact Option.some_ne_none x
    · rename_i hne
      rw [hmarker, Option.or_eq_some_iff] at ht
      rcases ht with ht | ⟨-, ht⟩
      · exact hlive.named t ht
      · exact absurd (Option.some.inj ht).symm hne
  · rw [hmarker, Option.or_eq_none_iff] at hnone
    cases hnone.2

theorem Removed.live {start endTs : Int} (h : Removed c start endTs c') (hlive : c.Live) : c'.Live := by
  have hmarker := h.marker
  cases hm : c.lastForwardClose with
  | none =>
    have hnil : c'.dest.samples = [] := by
      rw [h.samples_eq, hlive.unset (by rw [CompactionContext.marker, hm]; rfl)]
      rfl
    rw [hm, Option.bind_none] at hmarker
    refine ⟨fun t ht => ?_, fun _ => hnil⟩
    rw [CompactionContext.marker, hmarker] at ht
    cases ht
  | some m =>
    rw [hm, Option.bind_some] at hmarker
    split at hmarker
    · refine ⟨fun t ht => ?_, fun hnone => ?_⟩
      · rw [CompactionContext.marker, hmarker] at ht
        obtain ⟨x, hx, rfl⟩ := Option.map_eq_some_iff.mp ht
        exact fun hnone => sampleAt_eq_none.mp hnone x (mem_of_getLast? hx) rfl
      · rw [CompactionContext.marker, hmarker, Option.map_eq_none_iff] at hnone
        exact getLast?_eq_none_iff.mp hnone
    · rename_i hstill
      refine ⟨fun t ht => ?_, fun hnone => ?_⟩
      · rw [CompactionContext.marker, hmarker] at ht
        rw [← Option.some.inj ht]
        exact hstill
      · rw [CompactionContext.marker, hmarker] at hnone
        cases hnone

theorem Mended.live {k bucketEnd : Int} {o : Option F64} (h : Mended c k bucketEnd o c') (hlive : c.Live) :
    c'.Live := by
  cases h with
  | wrote h => exact h.live hlive
  | removed h => exact h.live hlive

end

end

/-! ### A sample is appended -/

section

variable [Aggregator A] [LawfulAggregator A] {good : F64 → Prop} {l : List Sample} {x : Sample}

/-- The bucket an appended sample closes. -/
def closes (rule : CompactionRule A) (l : List Sample) (x : Sample) : Option Int :=
  (rule.openBucket l).bind fun o =>
    if o < rule.calcBucketStart x.timestamp then (aggregate rule.aggregator (rule.inBucket o l)).map fun _ => o
    else none

structure Appended (c : CompactionContext A) (l : List Sample) (x : Sample) (c' : CompactionContext A) : Prop where
  ready : c'.Ready
  parent : c'.parent = c.parent
  same : SameRule c.rule c'.rule
  sync : InSync c'.rule (l ++ [x]) c'.dest.samples
  logged : ∀ before, Logged before c → Logged before c'
  marker : c'.marker = (closes c.rule l x).or c.marker
  live : c.Live → c'.Live

theorem startBucket_appended (hready : c.Ready) (hsync : InSync c.rule [] c.dest.samples) :
    Appended c [] x (c.startBucket (c.rule.calcBucketStart x.timestamp) x) := by
  have hsame : SameRule c.rule (c.startBucket (c.rule.calcBucketStart x.timestamp) x).rule :=
    ⟨rfl, rfl, reset_update ..⟩
  refine ⟨hready.congr rfl, rfl, hsame, ?_, fun _ => id, rfl, fun h => h.congr rfl rfl⟩
  refine hsame.inSyncExcept (openBucket_concat [] x) rfl (fun _ => ?_) fun k _ => ?_
  · have hidle := (hsync.idle rfl).1
    have hfresh := fresh_concat c.rule.aggregator [] x
    rw [← hidle] at hfresh
    rw [inBucket_concat, if_pos rfl]
    exact hfresh.symm
  · rw [show (c.startBucket _ x).dest = c.dest from rfl, (hsync.idle rfl).2 k, rollupBelow]
    split
    · rw [inBucket_concat, if_neg (by omega)]
      rfl
    · rfl

theorem update_appended (hready : c.Ready) (hsync : InSync c.rule l c.dest.samples)
    (ho : c.rule.openBucket l = some (c.rule.calcBucketStart x.timestamp)) : Appended c l x (c.update x) := by
  have hsame : SameRule c.rule (c.update x).rule := ⟨rfl, rfl, reset_update ..⟩
  refine ⟨hready.congr rfl, rfl, hsame, ?_, fun _ => id, ?_, fun h => h.congr rfl rfl⟩
  · refine hsame.inSyncExcept (openBucket_concat l x) (hsync.bucketStart.trans ho) (fun _ => ?_)
      fun k _ => ?_
    · rw [inBucket_concat, if_pos rfl, fresh_concat, ← hsync.aggregator _ ho id]
      rfl
    · rw [show (c.update x).dest = c.dest from rfl, hsync.dest _ ho k False.elim, rollupBelow, rollupBelow]
      split
      · rw [inBucket_concat, if_neg (by omega), append_nil]
      · rfl
  · rw [closes, ho, Option.bind_some, if_neg (lt_irrefl _)]
    rfl

variable [Env] [LawfulFloatOps]

theorem finalizeCurrentBucket_spec (hrule : Admissible good c.rule) (hready : c.Ready)
    (hfine : Fine good c.rule.toBucketing l) (hsync : InSync c.rule l c.dest.samples) {o : Int}
    (ho : c.rule.openBucket l = some o) (hlt : o < c.rule.calcBucketStart x.timestamp) :
    ∃ c', c.finalizeCurrentBucket x (c.rule.calcBucketStart x.timestamp) o = (.ok (), c') ∧ Appended c l x c' := by
  have hcur := hsync.aggregator o ho id
  have hnone : sampleAt o c.dest.samples = none := by
    rw [hsync.dest o ho o False.elim, rollupBelow, if_neg (lt_irrefl o)]
  obtain ⟨last, hlast, hlo⟩ := Option.map_eq_some_iff.mp ho
  have hlastV := hfine.run.times last (mem_of_getLast? hlast)
  -- the rule that goes on with the new bucket, from whichever aggregator it was reset
  have hnext (c₁ : CompactionContext A) (hbucket : c₁.rule.toBucketing = c.rule.toBucketing)
      (hdest₁ : c₁.rule.dest = c.rule.dest) (hreset : Aggregator.reset c₁.rule.aggregator =
        Aggregator.reset c.rule.aggregator)
      (hd₁ : ∀ k, sampleAt k c₁.dest.samples = if k = o then
        (aggregate c.rule.aggregator (c.rule.inBucket o l)).map (fun v => ⟨o, v⟩) else sampleAt k c.dest.samples) :
      SameRule c.rule (startBucket { c₁ with rule := c₁.rule.reset } (c.rule.calcBucketStart x.timestamp) x).rule
        ∧ InSync (startBucket { c₁ with rule := c₁.rule.reset } (c.rule.calcBucketStart x.timestamp) x).rule
            (l ++ [x]) c₁.dest.samples := by
    have hsame : SameRule c.rule
        (startBucket { c₁ with rule := c₁.rule.reset } (c.rule.calcBucketStart x.timestamp) x).rule := by
      refine ⟨hbucket, hdest₁, (reset_update ..).trans ?_⟩
      exact (reset_reset _).trans hreset
    refine ⟨hsame, hsame.inSyncExcept (openBucket_concat l x) rfl (fun _ => ?_) fun k _ => ?_⟩
    · have hnil : c.rule.inBucket (c.rule.calcBucketStart x.timestamp) l = [] :=
        inBucket_eq_nil_of_lt hrule.noWrap hfine.run ho hlt
      rw [inBucket_concat, if_pos rfl, hnil, nil_append]
      change feed (Aggregator.reset c₁.rule.aggregator, false) x = _
      rw [hreset]
      rfl
    · rw [hd₁, rollupBelow_concat hrule.noWrap hfine.run ho hlt]
      split
      · rfl
      · exact hsync.dest o ho k False.elim
  rw [finalizeCurrentBucket]
  cases hhas : c.rule.hasSamples with
  | true =>
    have hagg : aggregate c.rule.aggregator (c.rule.inBucket o l)
        = some (Aggregator.finalize c.rule.aggregator).1 := by
      rw [aggregate, ← hcur, hhas, if_pos rfl]
    have hv := hrule.numeric _ (hfine.inBucket o) _ hagg
    have hself : c.rule.calcBucketStart o = o := hlo ▸ calcBucketStart_self hrule.noWrap hlastV
    have hvalid : ValidTs o := hlo ▸ calcBucketStart_valid hrule.noWrap hlastV
    have hready' : Ready { c with rule := { c.rule with aggregator := (Aggregator.finalize c.rule.aggregator).2 } } :=
      ⟨hready.plain, hready.ordinary⟩
    obtain ⟨res, c₁, hc₁, hwrote⟩ := addDestBucket_spec hready' hself hvalid hv
    dsimp only
    rw [hc₁]
    -- a bucket that closes was not there, so the write lands
    rcases hwrote.landed with ⟨rfl, hwritten, -⟩ | ⟨-, -, -, hat⟩
    · obtain ⟨hsame, hin⟩ := hnext { c₁ with lastForwardClose := some ⟨o, (Aggregator.finalize c.rule.aggregator).1⟩ }
        (by rw [hwrote.rule]) (by rw [hwrote.rule])
        (by rw [hwrote.rule]; exact reset_reset c.rule.aggregator)
        (fun k => by rw [hwrote.sampleAt_eq, hagg]; rfl)
      refine ⟨_, rfl, ⟨hwrote.ready.plain, hwrote.ready.ordinary⟩, hwrote.parent, hsame, hin, fun before hlog => ?_,
        ?_, fun _ => ⟨fun t ht => ?_, fun hnone => by cases hnone⟩⟩
      · exact hwrote.logged (c := { c with rule := _ }) hlog
      · rw [closes, ho, Option.bind_some, if_pos hlt, hagg]
        rfl
      · change sampleAt t c₁.dest.samples ≠ none
        rw [hwrote.sampleAt_eq, if_pos (Option.some.inj ht).symm]
        exact Option.some_ne_none _
    · rw [hnone] at hat
      cases hat
  | false =>
    have hagg : aggregate c.rule.aggregator (c.rule.inBucket o l) = none := by
      rw [aggregate, ← hcur, hhas, if_neg Bool.false_ne_true]
    obtain ⟨hsame, hin⟩ := hnext c rfl rfl rfl (fun k => by
      rw [hagg]
      split
      · rename_i hk
        rw [hk, hnone]
        rfl
      · rfl)
    refine ⟨_, rfl, hready.congr rfl, rfl, hsame, hin, fun _ => id, ?_, fun h => h.congr rfl rfl⟩
    rw [closes, ho, Option.bind_some, if_pos hlt, hagg]
    rfl

/-- **Appending.**  A sample after all others keeps the rule in sync. -/
theorem handleSampleCompaction_spec (hrule : Admissible good c.rule) (hready : c.Ready)
    (hfine : Fine good c.rule.toBucketing (l ++ [x])) (hsync : InSync c.rule l c.dest.samples) :
    ∃ c', c.handleSampleCompaction x = (.ok (), c') ∧ Appended c l x c' := by
  rw [handleSampleCompaction]
  cases ho : c.rule.openBucket l with
  | none =>
    rw [hsync.bucketStart, ho]
    obtain rfl := openBucket_eq_none.mp ho
    exact ⟨_, rfl, startBucket_appended hready hsync⟩
  | some o =>
    rw [hsync.bucketStart, ho]
    dsimp only
    -- buckets do not go back
    have hle : o ≤ c.rule.calcBucketStart x.timestamp := by
      obtain ⟨last, hlast, rfl⟩ := Option.map_eq_some_iff.mp ho
      have hmem := mem_of_getLast? hlast
      exact calcBucketStart_mono hrule.noWrap (hfine.run.times last (mem_append_left _ hmem))
        (hfine.run.times x (by simp))
        ((pairwise_append.mp hfine.run.increasing).2.2 last hmem x (by simp)).le
    split
    · rename_i heq
      exact ⟨_, rfl, update_appended hready hsync (heq ▸ ho)⟩
    · rename_i hne
      have hlt : o < c.rule.calcBucketStart x.timestamp := lt_of_le_of_ne hle (Ne.symm hne)
      rw [if_pos hlt]
      exact finalizeCurrentBucket_spec hrule hready (hfine.sublist (sublist_append_left ..)) hsync ho hlt

end

end CompactionContext

end ValkeyTimeSeries
