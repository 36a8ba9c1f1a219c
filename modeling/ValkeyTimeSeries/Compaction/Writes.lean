/-
Compaction/Writes.lean

Writes to the source keep a rule in sync: an upsert, and a batch.

Design.  A batch is applied in two passes.  The appends are streamed, which brings the rule in sync with the
old samples followed by the appended ones, a list the source never stored.  It differs from the samples of the
source in the buckets of the back-fills only, and those are calculated again.  `BatchOf` is what this asks of
a batch.
-/
import ValkeyTimeSeries.Compaction.Steps

namespace ValkeyTimeSeries

open List Runs

/-! ### The replay of a batch -/

namespace Bucketing

variable {b : Bucketing} {prevLast : Option Int} {seen : List Int} {st : Replay}

/-- What the replay knows after the timestamps `seen`. -/
structure Replayed (b : Bucketing) (prevLast : Option Int) (seen : List Int) (st : Replay) : Prop where
  highWater_prev : ∀ p, prevLast = some p → ∃ h, st.highWater = some h ∧ p ≤ h
  highWater_seen : ∀ t ∈ seen, ∃ h, st.highWater = some h ∧ t ≤ h
  highWater_eq : st.advanced = [] → st.highWater = prevLast
  advanced_gt : ∀ t ∈ st.advanced, ∀ p, prevLast = some p → p < t
  advanced_seen : ∀ t ∈ st.advanced, t ∈ seen
  backfilled_seen : ∀ t ∈ st.backfilled.map Prod.fst, t ∈ seen
  newest : st.advanced ≠ [] → ∃ h, st.highWater = some h ∧ h ∈ st.advanced
    ∧ st.openBucket = some (b.calcBucketStart h) ∧ h ∉ st.backfilled.map Prod.fst
  older : ∀ t ∈ seen, ∀ p, prevLast = some p → t ≤ p → t ∈ st.backfilled.map Prod.fst

theorem Replayed.advance (h : Replayed b prevLast seen st) {ts : Int}
    (hgt : ∀ w, st.highWater = some w → w < ts) :
    Replayed b prevLast (seen ++ [ts])
      { st with
        highWater := some ts
        openBucket := some (b.calcBucketStart ts)
        advanced := st.advanced ++ [ts] } := by
  have hprev (p : Int) (hp : prevLast = some p) : p < ts := by
    obtain ⟨w, hw, hle⟩ := h.highWater_prev p hp
    exact hle.trans_lt (hgt w hw)
  refine ⟨fun p hp => ⟨ts, rfl, (hprev p hp).le⟩, fun t ht => ?_, fun hnil => ?_, fun t ht p hp => ?_, fun t ht => ?_,
    fun t ht => mem_append_left _ (h.backfilled_seen t ht), fun _ => ⟨ts, rfl, by simp, rfl, fun hmem => ?_⟩,
    fun t ht p hp hle => ?_⟩
  · rcases mem_append.mp ht with ht | ht
    · obtain ⟨w, hw, hle⟩ := h.highWater_seen t ht
      exact ⟨ts, rfl, hle.trans (hgt w hw).le⟩
    · exact ⟨ts, rfl, (mem_singleton.mp ht).le⟩
  · exact absurd hnil (by simp)
  · rcases mem_append.mp ht with ht | ht
    · exact h.advanced_gt t ht p hp
    · rw [mem_singleton.mp ht]
      exact hprev p hp
  · rcases mem_append.mp ht with ht | ht
    · exact mem_append_left _ (h.advanced_seen t ht)
    · exact mem_append_right _ ht
  · obtain ⟨w, hw, hle⟩ := h.highWater_seen ts (h.backfilled_seen ts hmem)
    have := hgt w hw
    omega
  · rcases mem_append.mp ht with ht | ht
    · exact h.older t ht p hp hle
    · rw [mem_singleton.mp ht] at hle
      have := hprev p hp
      omega

theorem Replayed.step (h : Replayed b prevLast seen st) (ts : Int) :
    Replayed b prevLast (seen ++ [ts]) (b.replayStep st ts) := by
  rw [replayStep]
  split
  · rename_i hhw
    exact h.advance fun w hw => by rw [hhw] at hw; cases hw
  · rename_i w hhw
    split
    · rename_i hle
      have hseen (t : Int) (ht : t ∈ seen ++ [ts]) : ∃ w, st.highWater = some w ∧ t ≤ w := by
        rcases mem_append.mp ht with ht | ht
        · exact h.highWater_seen t ht
        · exact ⟨w, hhw, (mem_singleton.mp ht).le.trans hle⟩
      split
      · rename_i hback
        refine ⟨h.highWater_prev, hseen, h.highWater_eq, h.advanced_gt,
          fun t ht => mem_append_left _ (h.advanced_seen t ht), fun t ht => ?_, fun hne => ?_,
          fun t ht p hp hle' => ?_⟩
        · rw [map_append] at ht
          rcases mem_append.mp ht with ht | ht
          · exact mem_append_left _ (h.backfilled_seen t ht)
          · exact mem_append_right _ ht
        · obtain ⟨v, hv, hadv, hopen, hnot⟩ := h.newest hne
          refine ⟨v, hv, hadv, hopen, fun hmem => ?_⟩
          rw [map_append] at hmem
          rcases mem_append.mp hmem with hmem | hmem
          · exact hnot hmem
          · -- a repeat of the newest timestamp is not a back-fill
            rw [show v = ts from mem_singleton.mp hmem] at hadv hopen
            rcases hback with hback | hback
            · exact hback hadv
            · exact hback hopen.symm
        · rw [map_append]
          rcases mem_append.mp ht with ht | ht
          · exact mem_append_left _ (h.older t ht p hp hle')
          · exact mem_append_right _ ht
      · rename_i hfold
        rw [not_or, not_not, not_not] at hfold
        refine ⟨h.highWater_prev, hseen, h.highWater_eq, h.advanced_gt, fun t ht =>
          mem_append_left _ (h.advanced_seen t ht),
          fun t ht => mem_append_left _ (h.backfilled_seen t ht), h.newest, fun t ht p hp hle' => ?_⟩
        rcases mem_append.mp ht with ht | ht
        · exact h.older t ht p hp hle'
        · rw [mem_singleton.mp ht] at hle'
          have := h.advanced_gt ts hfold.1 p hp
          omega
    · refine h.advance fun v hv => ?_
      rw [hhw] at hv
      rw [← Option.some.inj hv]
      omega

/-- **Run lemma.**  What the replay of a batch knows. -/
theorem replayed (b : Bucketing) (openBucket prevLast : Option Int) (inputOrder : List Int) :
    Replayed b prevLast inputOrder (inputOrder.foldl b.replayStep ⟨[], [], prevLast, openBucket⟩) := by
  induction inputOrder using List.reverseRecOn with
  | nil =>
    exact ⟨fun p hp => ⟨p, hp, le_rfl⟩, by simp, fun _ => rfl, by simp, by simp, by simp,
      fun hne => absurd rfl hne, by simp⟩
  | append_singleton seen ts ih =>
    rw [foldl_concat]
    exact ih.step ts

def Backfills (b : Bucketing) (openBucket prevLast : Option Int) (inputOrder : List Int) (t : Int) : Prop :=
  t ∈ (b.backfilled openBucket prevLast inputOrder).map Prod.fst

variable {openBucket : Option Int} {inputOrder : List Int}

theorem backfills_iff {t : Int} : b.Backfills openBucket prevLast inputOrder t
    ↔ t ∈ (inputOrder.foldl b.replayStep ⟨[], [], prevLast, openBucket⟩).backfilled.map Prod.fst := by
  refine Iff.trans (mem_map_joinRuns Prod.fst (fun x y hxy => ?_) fun x y _ => ?_) ?_
  · exact (of_decide_eq_true hxy).symm
  · rfl
  · exact ((perm_insertionSort ..).map Prod.fst).mem_iff

theorem backfills_of_le {t p : Int} (ht : t ∈ inputOrder)
    (hp : prevLast = some p) (hle : t ≤ p) : b.Backfills openBucket prevLast inputOrder t :=
  backfills_iff.mpr ((replayed b openBucket prevLast inputOrder).older t ht p hp hle)

theorem exists_append {t : Int} (ht : t ∈ inputOrder) (hgt : ∀ p, prevLast = some p → p < t) :
    ∃ h ∈ inputOrder, t ≤ h ∧ (∀ p, prevLast = some p → p < h) ∧ ¬ b.Backfills openBucket prevLast inputOrder h := by
  have hr := replayed b openBucket prevLast inputOrder
  obtain ⟨w, hw, hle⟩ := hr.highWater_seen t ht
  have hne : (inputOrder.foldl b.replayStep ⟨[], [], prevLast, openBucket⟩).advanced ≠ [] := by
    intro hnil
    have := hgt w ((hr.highWater_eq hnil).symm.trans hw)
    omega
  obtain ⟨h, hh, hadv, -, hnot⟩ := hr.newest hne
  obtain rfl : h = w := Option.some.inj (hh.symm.trans hw)
  exact ⟨h, hr.advanced_seen h hadv, hle, hr.advanced_gt h hadv, fun hback => hnot (backfills_iff.mp hback)⟩

end Bucketing

namespace CompactionContext

variable {A : Type} [Aggregator A] [DecimalHelpers] {c c' : CompactionContext A} {good : F64 → Prop}
  {l l' : List Sample} {stale : Int → Prop} {o : Int}

/-! ### The open bucket is fed again -/

theorem recalculateCurrentBucket_spec [LawfulAggregator A] (hd : c.rule.NoWrap) (hreads : Reads good c l)
    (ho : c.rule.openBucket l = some o) {m : Int} (hmin : ∀ x ∈ l, m ≤ x.timestamp) (hdest : ∀ k, (stale k → o ≤ k) →
    sampleAt k c.dest.samples = rollupBelow c.rule.toBucketing c.rule.aggregator o l k) :
    SameRule c.rule (c.recalculateCurrentBucket o (c.rule.bucketEnd o) m).rule
    ∧ InSyncExcept (fun k => stale k ∧ k ≠ o) (c.recalculateCurrentBucket o (c.rule.bucketEnd o) m).rule l
    c.dest.samples := by
  obtain ⟨hwf, rfl, hfine⟩ := hreads
  obtain ⟨last, hlast, rfl⟩ := Option.map_eq_some_iff.mp ho
  have hrange := calculateRange_eq hd hwf hfine c.rule.aggregator
    (hfine.run.times last (mem_of_getLast? hlast)) hmin (f := nullTsFilter) fun _ _ => rfl
  rw [recalculateCurrentBucket, hrange]
  have hsame : SameRule c.rule { c.rule with
      aggregator := (fresh c.rule.aggregator (c.rule.inBucket (c.rule.calcBucketStart last.timestamp)
        c.parent.samples)).1
      hasSamples := (fresh c.rule.aggregator (c.rule.inBucket (c.rule.calcBucketStart last.timestamp)
        c.parent.samples)).2
      bucketStart := some (c.rule.calcBucketStart last.timestamp) } := ⟨rfl, rfl, reset_fresh ..⟩
  refine ⟨hsame, hsame.inSyncExcept ho rfl (fun _ => rfl) fun k hk => hdest k fun hs => ?_⟩
  by_cases heq : k = c.rule.calcBucketStart last.timestamp
  · exact heq.ge
  · exact hk ⟨hs, heq⟩

/-! ### One sample at or before the newest one -/

structure Rewritten (c : CompactionContext A) (l : List Sample) (o k : Int) (c' : CompactionContext A) : Prop where
  ready : c'.Ready
  parent : c'.parent = c.parent
  same : SameRule c.rule c'.rule
  sync : InSync c'.rule l c'.dest.samples
  logged : (k ≠ o → aggregate c.rule.aggregator (c.rule.inBucket k l) ≠ none) →
    ∀ before, Logged before c → Logged before c'
  marker : (k ≠ o → aggregate c.rule.aggregator (c.rule.inBucket k l) ≠ none) →
    c.Live → c'.marker = if k = o then c.marker else c.marker.or (some k)
  live : c.Live → c'.Live

variable [LawfulAggregator A] [Env] [LawfulFloatOps]

/-- **An upsert** that changes one timestamp of the source keeps the rule in sync. -/
theorem handleCompactionUpsert_spec (hrule : Admissible good c.rule) (hready : c.Ready) (hreads : Reads good c l')
    (hret : c.parent.retention = 0) (hrun : SampleRun l) (hsync : InSync c.rule l c.dest.samples) {x : Sample}
    (hx : ValidTs x.timestamp) (hfit : c.rule.Fits x.timestamp)
    (hat : ∀ t, t ≠ x.timestamp → sampleAt t l' = sampleAt t l) (ho : c.rule.openBucket l = some o)
    (ho' : c.rule.openBucket l' = some o) : ∃ c', c.handleCompactionUpsert x = (.ok (), c')
    ∧ Rewritten c l' o (c.rule.calcBucketStart x.timestamp) c' := by
  have hmin : ∀ y ∈ l', c.parent.getMinTimestamp ≤ y.timestamp := by
    rw [← hreads.samples]
    exact hreads.wf.getMinTimestamp_le hret
  have hexcept : InSyncExcept (fun k => k = c.rule.calcBucketStart x.timestamp) c.rule l' c.dest.samples := by
    refine hsync.except hrun.increasing hreads.fine.run.increasing (fun t ht => hat t ?_) ho ho'
    rintro rfl
    exact ht rfl
  rw [handleCompactionUpsert, hsync.bucketStart, ho]
  dsimp only
  split
  · rename_i heq
    obtain ⟨hsame, hsync'⟩ := recalculateCurrentBucket_spec hrule.noWrap hreads ho' hmin
      fun k hk => hexcept.dest o ho' k hk
    refine ⟨_, rfl, hready.congr rfl, rfl, hsame, hsync'.mono fun k hk => hk.2 (hk.1.trans heq), fun _ _ => id,
      fun _ _ => ?_, fun h => h.congr rfl rfl⟩
    rw [if_pos heq]
    rfl
  · rename_i hne
    obtain ⟨c', hc', hmended⟩ := recalculateBucket_spec hrule hready hreads hx hmin (f := nullTsFilter)
      fun _ _ => rfl
    have hsync' := hmended.inSyncExcept hrule.noWrap hreads.fine hx hexcept ho' hne fun _ => hfit
    obtain ⟨hready', hparent, hrule'⟩ := hmended.frame
    refine ⟨c', hc', hready', hparent, hrule' ▸ SameRule.refl c.rule, hsync'.mono fun k hk =>
      hk.2 hk.1, ?_, ?_, hmended.live⟩
    · intro htaken before hlog
      generalize aggregate c.rule.aggregator (c.rule.inBucket (c.rule.calcBucketStart x.timestamp) l') = v
        at htaken hmended
      cases hmended with
      | wrote h => exact h.logged hlog
      | removed h => exact absurd rfl (htaken hne)
    · intro htaken hlive
      generalize aggregate c.rule.aggregator (c.rule.inBucket (c.rule.calcBucketStart x.timestamp) l') = v
        at htaken hmended
      rw [if_neg hne]
      cases hmended with
      | wrote h => exact h.marker_eq hlive
      | removed h => exact absurd rfl (htaken hne)

/-! ### A batch -/

/-- A batch that has been merged into `l` with the result `l'`.  What it says is stored is so
for the appends; a sample that met another one may be given as it came in. -/
structure BatchOf (l l' samples : List Sample) (prevLast : Option Int) (inputOrder : List Int) : Prop where
  prevLast_eq : prevLast = l.getLast?.map (·.timestamp)
  sorted : Increasing samples
  stored : ∀ x ∈ samples, x.timestamp ∈ l'.map (·.timestamp)
  appended : ∀ x ∈ samples, (∀ p, prevLast = some p → p < x.timestamp) → x ∈ l'
  changed : ∀ t, t ∉ samples.map (·.timestamp) → sampleAt t l' = sampleAt t l
  kept : ∀ x ∈ l, x.timestamp ∈ l'.map (·.timestamp)
  ordered : ∀ x ∈ samples, x.timestamp ∈ inputOrder
  known : ∀ t ∈ inputOrder, (∀ p, prevLast = some p → p < t) → t ∈ samples.map (·.timestamp)

structure Batched (c : CompactionContext A) (l : List Sample) (c' : CompactionContext A) : Prop where
  ready : c'.Ready
  parent : c'.parent = c.parent
  same : SameRule c.rule c'.rule
  sync : InSync c'.rule l c'.dest.samples
  logged : (∀ x ∈ l, aggregate c.rule.aggregator (c.rule.inBucket (c.rule.calcBucketStart x.timestamp) l) ≠ none) →
    ∀ before, Logged before c → Logged before c'

theorem forEach_append {xs : List Sample} (hrule : Admissible good c.rule) (hready : c.Ready)
    (hfine : Fine good c.rule.toBucketing (l ++ xs)) (hsync : InSync c.rule l c.dest.samples) :
    ∃ c', forEach handleSampleCompaction xs c = (.ok (), c') ∧ c'.Ready ∧ c'.parent = c.parent
    ∧ SameRule c.rule c'.rule ∧ InSync c'.rule (l ++ xs) c'.dest.samples
    ∧ ∀ before, Logged before c → Logged before c' := by
  induction xs generalizing c l with
  | nil => exact ⟨c, rfl, hready, rfl, .refl _, by rwa [append_nil], fun _ => id⟩
  | cons x xs ih =>
    rw [append_cons] at hfine
    obtain ⟨c₁, hc₁, happ⟩ := handleSampleCompaction_spec hrule hready
      (hfine.sublist (sublist_append_left ..)) hsync
    obtain ⟨c₂, hc₂, hready₂, hparent₂, hsame₂, hsync₂, hlog₂⟩ := ih (happ.same.admissible hrule) happ.ready
      (by rw [happ.same.bucketing]; exact hfine) happ.sync
    refine ⟨c₂, ?_, hready₂, hparent₂.trans happ.parent, happ.same.trans hsame₂, by rwa [append_cons],
      fun before hlog => hlog₂ before (happ.logged before hlog)⟩
    rw [forEach, hc₁]
    exact hc₂

theorem forEach_recalculate {buckets : List (Int × Int)} (hrule : Admissible good c.rule) (hready : c.Ready)
    (hreads : Reads good c l) (ho : c.rule.openBucket l = some o)
    (hbuckets : ∀ p ∈ buckets, (∀ y ∈ l, p.2 ≤ y.timestamp) ∧ ∃ x ∈ l, p.1 = c.rule.calcBucketStart x.timestamp)
    (hsync : InSyncExcept (fun k => k ∈ buckets.map Prod.fst) c.rule l c.dest.samples) :
    ∃ c', forEach recalculateBatchBucket buckets c = (.ok (), c') ∧ Batched c l c' := by
  induction buckets generalizing c with
  | nil => exact ⟨c, rfl, hready, rfl, .refl _, hsync.mono fun k hk => by simp at hk, fun _ _ => id⟩
  | cons p ps ih =>
    obtain ⟨hmin, x, hx, hpx⟩ := hbuckets p mem_cons_self
    have hxv := hreads.fine.run.times x hx
    have hfit := hreads.fine.fits x hx
    -- what is left when one bucket has been mended
    have hrest (c₁ : CompactionContext A) (hc₁ : recalculateBatchBucket c p = (.ok (), c₁)) (hready₁ : c₁.Ready)
        (hparent₁ : c₁.parent = c.parent) (hsame₁ : SameRule c.rule c₁.rule)
        (hsync₁ : InSyncExcept (fun k => k ∈ (p :: ps).map Prod.fst ∧ k ≠ p.1) c₁.rule l c₁.dest.samples)
        (hlog₁ : aggregate c.rule.aggregator (c.rule.inBucket p.1 l) ≠ none → ∀ before, Logged before c →
          Logged before c₁) :
        ∃ c', forEach recalculateBatchBucket (p :: ps) c = (.ok (), c') ∧ Batched c l c' := by
      obtain ⟨c₂, hc₂, hbatch⟩ := ih (hsame₁.admissible hrule) hready₁
        ⟨hparent₁ ▸ hreads.wf, hparent₁ ▸ hreads.samples, by rw [hsame₁.bucketing]; exact hreads.fine⟩
        (by rw [hsame₁.bucketing]; exact ho)
        (fun q hq => by
          rw [hsame₁.bucketing]
          exact hbuckets q (mem_cons_of_mem _ hq))
        (hsync₁.mono fun k hk => by
          rcases mem_cons.mp hk.1 with heq | hmem
          · exact absurd heq hk.2
          · exact hmem)
      refine ⟨c₂, ?_, hbatch.ready, hbatch.parent.trans hparent₁, hsame₁.trans hbatch.same, hbatch.sync,
        fun htaken before hlog => ?_⟩
      · rw [forEach, hc₁]
        exact hc₂
      · refine hbatch.logged (fun y hy => ?_) before (hlog₁ ?_ before hlog)
        · rw [hsame₁.bucketing, aggregate_congr hsame₁.reset]
          exact htaken y hy
        · rw [hpx]
          exact htaken x hx
    by_cases hopen : p.1 = o
    · obtain ⟨hsame, hsync'⟩ := recalculateCurrentBucket_spec (m := p.2) hrule.noWrap hreads ho hmin
        fun k hk => hsync.dest o ho k hk
      refine hrest (c.recalculateCurrentBucket p.1 (c.rule.bucketEnd p.1) p.2) ?_ (hready.congr rfl) rfl ?_ ?_
        fun _ _ => id
      · rw [recalculateBatchBucket, if_pos (.inr (by rw [hsync.bucketStart, ho, hopen]))]
      · rw [hopen]
        exact hsame
      · rw [hopen]
        exact hsync'
    · have hclosed : ¬ (c.rule.bucketStart = none ∨ c.rule.bucketStart = some p.1) := by
        rw [hsync.bucketStart, ho]
        rintro (h | h)
        · cases h
        · exact hopen (Option.some.inj h).symm
      obtain ⟨c₁, hc₁, hmended⟩ := recalculateBucket_spec hrule hready hreads hxv hmin (f := nullTsFilter)
        fun _ _ => rfl
      have hsync' := hmended.inSyncExcept hrule.noWrap hreads.fine hxv hsync ho (hpx ▸ hopen) fun _ => hfit
      obtain ⟨hready₁, hparent₁, hrule₁⟩ := hmended.frame
      refine hrest c₁ ?_ hready₁ hparent₁ (hrule₁ ▸ .refl _) (hpx ▸ hsync') fun htaken before hlog => ?_
      · rw [recalculateBatchBucket, if_neg hclosed, hpx]
        exact hc₁
      · rw [hpx] at htaken
        generalize aggregate c.rule.aggregator (c.rule.inBucket (c.rule.calcBucketStart x.timestamp) l) = v
          at htaken hmended
        cases hmended with
        | wrote h => exact h.logged hlog
        | removed h => exact absurd rfl htaken

section Split

variable (c) (samples : List Sample) (prevLast : Option Int) (inputOrder : List Int)

section

omit [Aggregator A] [DecimalHelpers] [Env] [LawfulAggregator A] [LawfulFloatOps]

theorem floor_isNone (t : Int) :
    (((c.rule.backfilled c.rule.bucketStart prevLast inputOrder).find? fun entry => entry.1 = t).map
    fun entry => floorAt c.parent.retention entry.2).isNone = true
    ↔ ¬ c.rule.Backfills c.rule.bucketStart prevLast inputOrder t := by
  rw [Option.isNone_map, Option.isNone_iff_eq_none, find?_eq_none, Bucketing.Backfills, mem_map]
  refine ⟨fun h ⟨entry, hentry, heq⟩ => h entry hentry (decide_eq_true heq), fun h entry hentry heq => ?_⟩
  exact h ⟨entry, hentry, of_decide_eq_true heq⟩

theorem splitBatch_appends : (c.splitBatch samples prevLast inputOrder).1.Sublist samples
    ∧ ∀ x, x ∈ (c.splitBatch samples prevLast inputOrder).1
    ↔ x ∈ samples ∧ ¬ c.rule.Backfills c.rule.bucketStart prevLast inputOrder x.timestamp := by
  refine ⟨filter_sublist, fun x => ?_⟩
  rw [splitBatch, mem_filter]
  exact and_congr_right fun _ => floor_isNone ..

theorem splitBatch_buckets (hret : c.parent.retention = 0) :
    (∀ p ∈ (c.splitBatch samples prevLast inputOrder).2, p.2 = 0)
    ∧ ∀ k, k ∈ (c.splitBatch samples prevLast inputOrder).2.map Prod.fst
    ↔ ∃ x ∈ samples, c.rule.Backfills c.rule.bucketStart prevLast inputOrder x.timestamp
    ∧ c.rule.calcBucketStart x.timestamp = k := by
  have hfloor (ts : Int) : floorAt c.parent.retention ts = 0 := if_pos hret
  constructor
  · refine forall_joinRuns (fun p q hp hq => ?_) fun p hp => ?_
    · rw [hp, hq, max_self]
    · obtain ⟨x, -, hx⟩ := mem_filterMap.mp hp
      obtain ⟨floor, hsome, rfl⟩ := Option.map_eq_some_iff.mp hx
      obtain ⟨entry, -, rfl⟩ := Option.map_eq_some_iff.mp hsome
      exact hfloor entry.2
  · intro k
    refine Iff.trans (mem_map_joinRuns Prod.fst (fun p q hpq => ?_) fun p q _ => ?_) ?_
    · exact of_decide_eq_true hpq
    · rfl
    · rw [mem_map]
      constructor
      · rintro ⟨p, hp, rfl⟩
        obtain ⟨x, hx, hxp⟩ := mem_filterMap.mp hp
        obtain ⟨floor, hsome, rfl⟩ := Option.map_eq_some_iff.mp hxp
        refine ⟨x, hx, not_not.mp fun hnot => ?_, rfl⟩
        cases hsome.symm.trans (Option.isNone_iff_eq_none.mp ((floor_isNone ..).mpr hnot))
      · rintro ⟨x, hx, hback, rfl⟩
        obtain ⟨floor, hsome⟩ := Option.ne_none_iff_exists'.mp fun hnone =>
          (floor_isNone ..).mp (Option.isNone_iff_eq_none.mpr hnone) hback
        exact ⟨_, mem_filterMap.mpr ⟨x, hx, Option.map_eq_some_iff.mpr ⟨floor, hsome, rfl⟩⟩, rfl⟩

end

end Split

section Merge

variable {samples : List Sample} {prevLast : Option Int} {inputOrder : List Int}

section

omit [DecimalHelpers] [LawfulAggregator A] [Env] [LawfulFloatOps]

theorem BatchOf.append_run (h : BatchOf l l' samples prevLast inputOrder) (hrun : SampleRun l) (hrun' : SampleRun l')
    {open? : Option Int} {b : Bucketing} {xs : List Sample} (hsub : xs.Sublist samples)
    (hxs : ∀ x ∈ xs, ¬ b.Backfills open? prevLast inputOrder x.timestamp) : SampleRun (l ++ xs) := by
  refine sampleRun_append.mpr ⟨hrun, ⟨fun x hx => ?_, h.sorted.sublist hsub⟩, fun y hy x hx => ?_⟩
  · obtain ⟨y, hy, heq⟩ := mem_map.mp (h.stored x (hsub.subset hx))
    rw [← heq]
    exact hrun'.times y hy
  · obtain ⟨last, hlast⟩ := Option.ne_none_iff_exists'.mp fun hnone =>
      ne_nil_of_mem hy (getLast?_eq_none_iff.mp hnone)
    have hle := (hrun.increasing.getLast?_eq_some.mp hlast).2 y hy
    have hlt : last.timestamp < x.timestamp := not_le.mp fun hle' =>
      hxs x hx (Bucketing.backfills_of_le (h.ordered x (hsub.subset hx))
        (by rw [h.prevLast_eq, hlast]; rfl) hle')
    omega

theorem BatchOf.openBucket_eq (h : BatchOf l l' samples prevLast inputOrder) (hrun : SampleRun l)
    (hrun' : SampleRun l') {open? : Option Int} {b : Bucketing} {xs : List Sample} (hsub : xs.Sublist samples)
    (hxs : ∀ x, x ∈ xs ↔ x ∈ samples ∧ ¬ b.Backfills open? prevLast inputOrder x.timestamp) :
    b.openBucket (l ++ xs) = b.openBucket l' := by
  have happ := h.append_run hrun hrun' hsub fun x hx => ((hxs x).mp hx).2
  -- every old timestamp is still there
  have hle (x : Sample) (hx : x ∈ l ++ xs) (last : Sample) (hlast : l'.getLast? = some last) :
      x.timestamp ≤ last.timestamp := by
    have hnewest := (hrun'.increasing.getLast?_eq_some.mp hlast).2
    have hin : x.timestamp ∈ l'.map (·.timestamp) := by
      rcases mem_append.mp hx with hx | hx
      · exact h.kept x hx
      · exact h.stored x (hsub.subset hx)
    obtain ⟨y, hy, heq⟩ := mem_map.mp hin
    rw [← heq]
    exact hnewest y hy
  cases hlast : l'.getLast? with
  | none =>
    have hnil : l ++ xs = [] := by
      refine eq_nil_iff_forall_not_mem.mpr fun x hx => ?_
      rw [getLast?_eq_none_iff] at hlast
      subst hlast
      rcases mem_append.mp hx with hx | hx
      · exact absurd (h.kept x hx) not_mem_nil
      · exact absurd (h.stored x (hsub.subset hx)) not_mem_nil
    rw [hnil, getLast?_eq_none_iff.mp hlast]
  | some last =>
    obtain ⟨hmem, hnewest⟩ := hrun'.increasing.getLast?_eq_some.mp hlast
    have hfound : ∃ x ∈ l ++ xs, x.timestamp = last.timestamp := by
      by_cases hin : last.timestamp ∈ samples.map (·.timestamp)
      · obtain ⟨x, hx, hxt⟩ := mem_map.mp hin
        by_cases hgt : ∀ p, prevLast = some p → p < last.timestamp
        · -- the batch moves forward
          obtain ⟨t, ht, hlt, hprev, hnot⟩ := Bucketing.exists_append (hxt ▸ h.ordered x hx) hgt
          obtain ⟨y, hy, rfl⟩ := mem_map.mp (h.known t ht hprev)
          exact ⟨y, mem_append_right _ ((hxs y).mpr ⟨hy, hnot⟩), le_antisymm (hnewest y (h.appended y hy hprev)) hlt⟩
        · obtain ⟨p, hp⟩ := not_forall.mp hgt
          obtain ⟨hprev, hge⟩ := Classical.not_imp.mp hp
          rw [h.prevLast_eq] at hprev
          obtain ⟨y, hy, rfl⟩ := Option.map_eq_some_iff.mp hprev
          have hyl := mem_append_left xs (mem_of_getLast? hy)
          exact ⟨y, hyl, le_antisymm (hle y hyl last hlast) (not_lt.mp hge)⟩
      · have hat := h.changed _ hin
        rw [hrun'.increasing.sampleAt_eq_some.mpr ⟨hmem, rfl⟩] at hat
        exact ⟨last, mem_append_left _ (mem_of_sampleAt hat.symm), rfl⟩
    obtain ⟨x, hx, hxt⟩ := hfound
    have hlast' : (l ++ xs).getLast? = some x :=
      happ.increasing.getLast?_eq_some.mpr ⟨hx, fun y hy => hxt ▸ hle y hy last hlast⟩
    rw [Bucketing.openBucket, Bucketing.openBucket, hlast', hlast, Option.map_some, Option.map_some, hxt]

end

/-- **A batch** keeps the rule in sync, and sets the marker from the order of the items. -/
theorem handleBatchCompaction_spec (hrule : Admissible good c.rule) (hready : c.Ready) (hreads : Reads good c l')
    (hret : c.parent.retention = 0) (hfine : Fine good c.rule.toBucketing l)
    (hsync : InSync c.rule l c.dest.samples) (hbatch : BatchOf l l' samples prevLast inputOrder) :
    ∃ c', c.handleBatchCompaction samples prevLast inputOrder = (.ok (), c') ∧ Batched c l' c' ∧ c'.lastForwardClose =
    ((c.rule.traceDestCacheInInputOrder c.rule.bucketStart prevLast inputOrder).lastForwardClose.or
    (c.marker.or (c.rule.traceDestCacheInInputOrder c.rule.bucketStart prevLast inputOrder).firstWrite)).bind
    fun t => sampleAt t c'.dest.samples := by
  have hrun' := hreads.fine.run
  obtain ⟨hsub, hxs⟩ := splitBatch_appends c samples prevLast inputOrder
  obtain ⟨hzero, hbuckets⟩ := splitBatch_buckets c samples prevLast inputOrder hret
  have happ := hbatch.append_run hfine.run hrun' hsub fun x hx => ((hxs x).mp hx).2
  have hopen := hbatch.openBucket_eq hfine.run hrun' hsub hxs
  rw [handleBatchCompaction]
  generalize c.splitBatch samples prevLast inputOrder = split at hsub hxs hzero hbuckets happ hopen ⊢
  obtain ⟨xs, buckets⟩ := split
  dsimp only at hsub hxs hzero hbuckets happ hopen ⊢
  have hstored (x : Sample) (hx : x ∈ xs) : x ∈ l' := by
    obtain ⟨hmem, hnot⟩ := (hxs x).mp hx
    refine hbatch.appended x hmem fun p hp => not_le.mp fun hle => hnot ?_
    exact Bucketing.backfills_of_le (hbatch.ordered x hmem) hp hle
  have hfineApp : Fine good c.rule.toBucketing (l ++ xs) := by
    refine ⟨happ, fun x hx => ?_, fun x hx => ?_⟩
    · rcases mem_append.mp hx with hx | hx
      · exact hfine.fits x hx
      · exact hreads.fine.fits x (hstored x hx)
    · rcases mem_append.mp hx with hx | hx
      · exact hfine.good x hx
      · exact hreads.fine.good x (hstored x hx)
  obtain ⟨c₁, hc₁, hready₁, hparent₁, hsame₁, hsync₁, hlog₁⟩ := forEach_append hrule hready hfineApp hsync
  obtain ⟨c₂, hc₂, hbatched⟩ : ∃ c₂, forEach recalculateBatchBucket buckets.reverse c₁ = (.ok (), c₂)
      ∧ Batched c₁ l' c₂ := by
    cases ho : c.rule.openBucket l' with
    | none =>
      have hl' := Bucketing.openBucket_eq_none.mp ho
      have hnil : buckets = [] := by
        refine eq_nil_iff_forall_not_mem.mpr fun p hp => ?_
        obtain ⟨x, hx, -⟩ := (hbuckets p.1).mp (mem_map_of_mem hp)
        have hmem := hbatch.stored x hx
        rw [hl'] at hmem
        exact absurd hmem not_mem_nil
      rw [hnil]
      refine ⟨c₁, rfl, hready₁, rfl, .refl _, ?_, fun _ _ => id⟩
      rw [hl', ← Bucketing.openBucket_eq_none.mp (hopen.trans ho)]
      exact hsync₁
    | some o =>
      have hexcept : InSyncExcept (fun k => k ∈ buckets.map Prod.fst) c₁.rule l' c₁.dest.samples := by
        refine hsync₁.except happ.increasing hrun'.increasing (fun t ht => ?_) (by rw [hsame₁.bucketing, hopen, ho])
          (by rw [hsame₁.bucketing, ho])
        rw [hsame₁.bucketing, hbuckets] at ht
        rw [sampleAt_append]
        by_cases hin : t ∈ samples.map (·.timestamp)
        · -- a sample of the batch outside the buckets was appended
          obtain ⟨x, hx, rfl⟩ := mem_map.mp hin
          have hmem : x ∈ xs := (hxs x).mpr ⟨hx, fun hback => ht ⟨x, hx, hback, rfl⟩⟩
          rw [hrun'.increasing.sampleAt_eq_some.mpr ⟨hstored x hmem, rfl⟩, ← sampleAt_append]
          exact (happ.increasing.sampleAt_eq_some.mpr ⟨mem_append_right _ hmem, rfl⟩).symm
        · have hnone : sampleAt t xs = none := sampleAt_eq_none.mpr fun x hx hxt =>
            hin (hxt ▸ mem_map_of_mem (hsub.subset hx))
          rw [hnone, Option.or_none]
          exact hbatch.changed t hin
      refine forEach_recalculate (hsame₁.admissible hrule) hready₁
        ⟨hparent₁ ▸ hreads.wf, hparent₁ ▸ hreads.samples, by rw [hsame₁.bucketing]; exact hreads.fine⟩
        (by rw [hsame₁.bucketing, ho]) (fun p hp => ⟨fun y hy => ?_, ?_⟩) (by simpa using hexcept)
      · rw [hzero p (mem_reverse.mp hp)]
        exact (hrun'.times y hy).1
      · obtain ⟨x, hx, -, heq⟩ := (hbuckets p.1).mp (mem_map_of_mem (mem_reverse.mp hp))
        obtain ⟨y, hy, hyx⟩ := mem_map.mp (hbatch.stored x hx)
        exact ⟨y, hy, by rw [hsame₁.bucketing, hyx, heq]⟩
  rw [hc₁]
  dsimp only [andThen]
  rw [hc₂]
  refine ⟨_, rfl, ⟨hbatched.ready.congr rfl, hbatched.parent.trans hparent₁, hsame₁.trans hbatched.same,
    hbatched.sync, fun htaken before hlog => ?_⟩, ?_⟩
  · refine hbatched.logged (fun x hx => ?_) before (hlog₁ before hlog)
    rw [hsame₁.bucketing, aggregate_congr hsame₁.reset]
    exact htaken x hx
  · simp only [hbatched.ready.plain.wf.getSample_eq]
    rfl

end Merge

end CompactionContext

end ValkeyTimeSeries
