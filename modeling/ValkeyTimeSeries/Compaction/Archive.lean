/-
Compaction/Archive.lean

What a deletion from the source does to older buckets of the destination.

Design.  Source and destination may each have a retention, so the destination can hold buckets whose samples
are gone from the source.  Up to its last phase a deletion spares the visible buckets before the one of its
start (`Spares`), but for those that a bucket it writes pushes out of the destination's own retention; the last
phase cuts the destination off at the bucket of the newest sample that is left.
-/
import ValkeyTimeSeries.Compaction.Source

namespace ValkeyTimeSeries

open Bucketing

/-! ### A write to the destination -/

theorem duplicateValue_keepLast_ok [FloatOps] (old new : F64) :
    ∃ v, DuplicatePolicy.keepLast.duplicateValue old new = .ok v := by
  unfold DuplicatePolicy.duplicateValue
  cases old.isNaN <;> cases new.isNaN <;> exact ⟨_, rfl⟩

theorem upsert_keepLast_ok [FloatOps] (x : Sample) (l : List Sample) :
    ∃ l', DuplicatePolicy.keepLast.upsert x l = .ok l' := by
  refine SortedList.insertWith_ok fun y => ?_
  obtain ⟨v, hv⟩ := duplicateValue_keepLast_ok y.value x.value
  rw [DuplicatePolicy.combine, hv]
  exact ⟨_, rfl⟩

/-- A sample at `t` is kept beside one at `k`. -/
def Retention.Reaches (retention : Retention) (k t : Int) : Prop := retention = 0 ∨ k - retention.val ≤ t

instance (retention : Retention) (k t : Int) : Decidable (retention.Reaches k t) := inferInstanceAs (Decidable (_ ∨ _))

namespace TimeSeries

variable [DecimalHelpers] {s : TimeSeries} {x : Sample}

theorem WF.mem_visible_iff (h : s.WF) :
    x ∈ s.visible ↔ x ∈ s.samples ∧ ∀ y ∈ s.samples, s.retention.Reaches y.timestamp x.timestamp := by
  rw [h.visible_eq]
  by_cases hret : s.retention = 0
  · simp [window, hret, Retention.Reaches]
  · rcases List.eq_nil_or_concat s.samples with hnil | ⟨l, last, hl⟩
    · simp [hnil, window_nil]
    · rw [List.concat_eq_append] at hl
      have hrun := h.run
      rw [hl] at hrun ⊢
      rw [window_concat hret, List.mem_filter, decide_eq_true_eq, windowStart]
      refine and_congr_right fun hx => ⟨fun hstart y hy => .inr ?_, fun hall => ?_⟩
      · have := hrun.le_last hy
        omega
      · have hlast := (hall last (by simp)).resolve_left hret
        have := (hrun.times x hx).1
        omega

/-- No sample is taken for a repetition of one at another time. -/
def IgnoresNothing (s : TimeSeries) : Prop := s.sampleDuplicates.maxTimeDelta.toInt ≤ 0

variable [Env]

/-- What adding a sample at `k` leaves of the visible samples before it. -/
theorem WF.add_frame (h : s.WF) {k : Int} (hk : ValidTs k) (v : F64) :
    let r := s.add k v (some .keepLast)
    (r.2.WF ∧ SameSettings s r.2 ∧ ∀ x, x.timestamp < k → (x ∈ r.2.visible → x ∈ s.visible)
      ∧ (x ∈ s.visible → s.retention.Reaches k x.timestamp → x ∈ r.2.visible))
    ∧ (s.Roomy → r.2.Roomy ∧ r.1 ≠ .duplicate ∧ (∀ e, r.1 ≠ .error e)
      ∧ (s.IgnoresNothing → ∀ x, x.timestamp < k → x ∈ r.2.visible → s.retention.Reaches k x.timestamp)) := by
  have hadded := h.addDeferringRetention_spec hk v (some .keepLast)
  have hroomy := fun hroomy : s.Roomy => h.add_roomy hroomy hk v (some .keepLast)
  have htime : (s.makeSample k v).timestamp = k := rfl
  rw [add_eq] at hroomy ⊢
  generalize s.makeSample k v = new at hadded htime
  generalize s.addDeferringRetention k v (some .keepLast) = r at hadded hroomy ⊢
  cases hadded with
  | tooOld hold =>
    refine ⟨⟨h, .refl s, fun x _ => ⟨id, fun hx _ => hx⟩⟩, fun hr => ⟨hr, by simp, by simp, fun _ x hlt hx => ?_⟩⟩
    -- the window begins after `k`, and so after the sample
    change x ∈ s.visible at hx
    have hmin : s.getMinTimestamp ≤ x.timestamp := by simpa using (List.mem_filter.mp hx).2
    unfold isOlderThanRetention at hold
    split at hold
    · cases hold
    · have : new.timestamp < s.getMinTimestamp := by simpa using hold
      omega
  | ignored hwin hlast hge hdup =>
    rename_i last
    refine ⟨⟨h, .refl s, fun x _ => ⟨id, fun hx _ => hx⟩⟩, fun hr => ⟨hr, by simp, by simp, fun hignores x _ hx => ?_⟩⟩
    have heq : k = last.timestamp := by
      unfold SampleDuplicatePolicy.isDuplicate at hdup
      unfold IgnoresNothing at hignores
      by_contra hne
      rw [if_neg (by omega)] at hdup
      cases hdup
    rw [heq]
    exact (h.mem_visible_iff.mp hx).2 last (List.mem_of_getLast? (h.last ▸ hlast))
  | upserted hwin hnot hr =>
    cases hr with
    | stored hroom hl hs' =>
      rename_i l' s'
      obtain ⟨hwf, hset, hvis, -⟩ := hs'.wf.applyRetention_visible
      have hat (t : Int) : sampleAt t s'.samples =
          if t = k then some (DuplicatePolicy.keepLast.settle new (sampleAt t s.samples)) else sampleAt t
              s.samples := by
        rw [hs'.samples_eq, upsert_eq_put hl, sampleAt_put h.run.increasing, htime]
        rfl
      have hiff (x : Sample) (hlt : x.timestamp < k) :
          x ∈ s'.visible ↔ x ∈ s.visible ∧ s.retention.Reaches k x.timestamp := by
        have hmem : x ∈ s'.samples ↔ x ∈ s.samples := by
          have hx := hat x.timestamp
          rw [if_neg hlt.ne] at hx
          have hnew := hs'.wf.run.increasing.sampleAt_eq_some (t := x.timestamp) (x := x)
          have hold := h.run.increasing.sampleAt_eq_some (t := x.timestamp) (x := x)
          simp only [and_true] at hnew hold
          rw [← hnew, ← hold, hx]
        have htimes (t : Int) : t ∈ s'.samples.map (·.timestamp) ↔ t = k ∨ t ∈ s.samples.map (·.timestamp) := by
          rw [mem_timestamps, mem_timestamps, hat]
          by_cases ht : t = k <;> simp [ht]
        have hall (p : Int → Prop) : (∀ y ∈ s'.samples, p y.timestamp) ↔ p k ∧ ∀ y ∈ s.samples, p y.timestamp := by
          have hlist (l : List Sample) : (∀ y ∈ l, p y.timestamp) ↔ ∀ t ∈ l.map (·.timestamp), p t := by simp
          rw [hlist, hlist]
          simp only [htimes, forall_eq_or_imp]
        rw [hs'.wf.mem_visible_iff, h.mem_visible_iff, hmem, hs'.settings.retention,
          hall fun t => s.retention.Reaches t x.timestamp]
        tauto
      refine ⟨⟨hwf, hs'.settings.trans hset, fun x hlt => ?_⟩, fun hr =>
        ⟨hroomy hr, by simp, by simp, fun _ x hlt => ?_⟩⟩
      · change (x ∈ s'.applyRetention.visible → _) ∧ (_ → _ → x ∈ s'.applyRetention.visible)
        rw [hvis, hiff x hlt]
        exact ⟨And.left, And.intro⟩
      · change x ∈ s'.applyRetention.visible → _
        rw [hvis, hiff x hlt]
        exact And.right
    | refused hroom he hs' =>
      obtain ⟨l', hl'⟩ := upsert_keepLast_ok new s.samples
      cases he.symm.trans hl'
    | overflowed hover hs' =>
      rename_i s'
      have hvis : s'.visible = s.visible := by rw [h.visible_eq, hs'.visible_eq]
      exact ⟨⟨hs'.wf, hs'.settings, fun x _ => ⟨fun hx => hvis ▸ hx, fun hx _ => hvis.symm ▸ hx⟩⟩,
        fun hr => absurd hover (hr.not_overflows h new.timestamp)⟩

end TimeSeries

namespace CompactionContext

variable {A : Type} [DecimalHelpers] {c c' c'' : CompactionContext A} {lo : Int} {w v : Int → Prop}

/-! ### What the phases spare -/

/-- Before `lo`, a phase that writes the buckets `w` keeps the visible samples that these reach. -/
structure Frames (lo : Int) (w : Int → Prop) (c c' : CompactionContext A) : Prop where
  wf : c'.dest.WF
  settings : TimeSeries.SameSettings c.dest c'.dest
  parent : c'.parent = c.parent
  rule : c'.rule = c.rule
  only : ∀ x, x.timestamp < lo → x ∈ c'.dest.visible → x ∈ c.dest.visible
  keeps : ∀ x, x.timestamp < lo → x ∈ c.dest.visible → (∀ k, w k → c.dest.retention.Reaches k x.timestamp) →
    x ∈ c'.dest.visible

theorem Frames.trans (h : Frames lo w c c') (h' : Frames lo v c' c'') : Frames lo (fun k => w k ∨ v k) c c'' := by
  refine ⟨h'.wf, h.settings.trans h'.settings, h'.parent.trans h.parent, h'.rule.trans h.rule,
    fun x hlt hx => h.only x hlt (h'.only x hlt hx), fun x hlt hx hreach => ?_⟩
  refine h'.keeps x hlt (h.keeps x hlt hx fun k hk => hreach k (.inl hk)) fun k hk => ?_
  rw [h.settings.retention]
  exact hreach k (.inr hk)

/-- Such a phase, which succeeds where the destination is roomy, and then keeps no other sample. -/
structure Spares (lo : Int) (w : Int → Prop) (c : CompactionContext A) (r : Outcome A) : Prop where
  frames : Frames lo w c r.2
  roomy : c.dest.Roomy → r.1 = .ok () ∧ r.2.dest.Roomy
  expires : c.dest.Roomy → c.dest.IgnoresNothing → ∀ x, x.timestamp < lo → x ∈ r.2.dest.visible →
    ∀ k, w k → c.dest.retention.Reaches k x.timestamp

namespace Spares

theorem refl (hwf : c.dest.WF) (lo : Int) : Spares lo (fun _ => False) c (.ok (), c) :=
  ⟨⟨hwf, .refl _, rfl, rfl, fun _ _ => id, fun _ _ hx _ => hx⟩, fun h => ⟨rfl, h⟩, fun _ _ _ _ _ _ => False.elim⟩

theorem congr {r : Outcome A} (h : Spares lo w c r) (hw : ∀ k, w k ↔ v k) : Spares lo v c r := by
  obtain rfl : w = v := funext fun k => propext (hw k)
  exact h

theorem andThen {r : Outcome A} (h : Spares lo w c r) {next : CompactionContext A → Outcome A}
    (hnext : ∀ c', Frames lo w c c' → Spares lo v c' (next c')) :
    Spares lo (fun k => w k ∨ v k) c (andThen r next) := by
  obtain ⟨res, c'⟩ := r
  cases res with
  | error e =>
    have hframes := h.frames
    refine ⟨⟨hframes.wf, hframes.settings, hframes.parent, hframes.rule, hframes.only, fun x hlt hx hreach =>
      hframes.keeps x hlt hx fun k hk => hreach k (.inl hk)⟩, fun hroomy => ?_, fun hroomy => ?_⟩
    · cases (h.roomy hroomy).1
    · cases (h.roomy hroomy).1
  | ok =>
    have hrest := hnext c' h.frames
    refine ⟨h.frames.trans hrest.frames, fun hroomy => hrest.roomy (h.roomy hroomy).2,
      fun hroomy hignores x hlt hx k hk => ?_⟩
    rcases hk with hk | hk
    · exact h.expires hroomy hignores x hlt (hrest.frames.only x hlt hx) k hk
    · have hsettings : TimeSeries.SameSettings c.dest c'.dest := h.frames.settings
      rw [← hsettings.retention]
      refine hrest.expires (h.roomy hroomy).2 ?_ x hlt hx k hk
      rwa [TimeSeries.IgnoresNothing, hsettings.sampleDuplicates]

end Spares

theorem removeDestRange_spares (hwf : c.dest.WF) {start : Int} (hlo : lo ≤ start) (endTs : Int) :
    Spares lo (fun _ => False) c (c.removeDestRange start endTs) := by
  obtain ⟨count, dest, hdest, hwf', hset, hvis, -⟩ := hwf.removeRange_spec start endTs
  rw [removeDestRange, hdest]
  have hiff (x : Sample) (hlt : x.timestamp < lo) : x ∈ dest.visible ↔ x ∈ c.dest.visible := by
    rw [hvis, samplesOut, List.mem_filter]
    refine and_iff_left ?_
    simp only [Bool.not_eq_true', decide_eq_false_iff_not]
    omega
  exact ⟨⟨hwf', hset, rfl, rfl, fun x hlt => (hiff x hlt).mp, fun x hlt hx _ => (hiff x hlt).mpr hx⟩,
    fun hroomy => ⟨rfl, hwf.removeRange_roomy hroomy hdest⟩, fun _ _ _ _ _ _ => False.elim⟩

variable [Aggregator A] [Env]

theorem recalculateBucket_spares (hwf : c.dest.WF) {k : Int} (hk : c.rule.calcBucketStart k = k) (hvalid : ValidTs k)
    (hlo : lo ≤ k) (bucketEnd minTs : Int) (filter : Int → Bool) :
    Spares lo (fun j => j = k ∧ (calculateRange c.parent c.rule.aggregator k (bucketEnd - 1) minTs filter).2 = true) c
      (c.recalculateBucket k bucketEnd minTs filter) := by
  rw [recalculateBucket]
  dsimp only
  split
  · rename_i htaken
    generalize (Aggregator.finalize (calculateRange c.parent c.rule.aggregator k (bucketEnd - 1) minTs filter).1).1 = v
    obtain ⟨⟨hwf', hset, hat⟩, hroomy⟩ := hwf.add_frame hvalid v
    rw [addDestBucket, hk]
    have hframes (c' : CompactionContext A) (hdest : c'.dest = (c.dest.add k v (some .keepLast)).2)
        (hparent : c'.parent = c.parent) (hrule : c'.rule = c.rule) : Frames lo (fun j => j = k
          ∧ (calculateRange c.parent c.rule.aggregator k (bucketEnd - 1) minTs filter).2 = true) c c' := by
      refine ⟨hdest ▸ hwf', hdest ▸ hset, hparent, hrule, fun x hlt => ?_, fun x hlt hx hreach => ?_⟩
      · rw [hdest]
        exact (hat x (hlt.trans_le hlo)).1
      · rw [hdest]
        exact (hat x (hlt.trans_le hlo)).2 hx (hreach k ⟨rfl, htaken⟩)
    have hspares (c' : CompactionContext A) (hdest : c'.dest = (c.dest.add k v (some .keepLast)).2)
        (hparent : c'.parent = c.parent) (hrule : c'.rule = c.rule) : Spares lo (fun j => j = k
          ∧ (calculateRange c.parent c.rule.aggregator k (bucketEnd - 1) minTs filter).2 = true) c (.ok (), c') := by
      refine ⟨hframes c' hdest hparent hrule, fun hr => ⟨rfl, hdest ▸ (hroomy hr).1⟩, fun hr hignores x hlt hx j hj =>
        ?_⟩
      dsimp only at hx
      rw [hdest] at hx
      rw [hj.1]
      exact (hroomy hr).2.2.2 hignores x (hlt.trans_le hlo) hx
    generalize c.dest.add k v (some .keepLast) = r at hroomy hframes hspares ⊢
    obtain ⟨res, dest⟩ := r
    cases res with
    | ok sample => exact hspares _ rfl rfl rfl
    | ignored t => exact hspares _ rfl rfl rfl
    | tooOld => exact hspares _ rfl rfl rfl
    | duplicate =>
      exact ⟨hframes _ rfl rfl rfl, fun hr => absurd rfl (hroomy hr).2.1, fun hr => absurd rfl (hroomy hr).2.1⟩
    | error e =>
      exact ⟨hframes _ rfl rfl rfl, fun hr => absurd rfl ((hroomy hr).2.2.1 e),
        fun hr => absurd rfl ((hroomy hr).2.2.1 e)⟩
  · rename_i htaken
    exact (removeDestRange_spares hwf hlo _).congr fun j => ⟨False.elim, fun hj => htaken hj.2⟩

/-- The bucket is closed, the range does not cover it, and the aggregator takes a sample in it. -/
def Recalculates (c : CompactionContext A) (start endTs k : Int) : Prop :=
  c.rule.bucketStart ≠ some k ∧ ¬ (start ≤ k ∧ endTs ≥ c.rule.bucketEnd k) ∧
    (calculateRange c.parent c.rule.aggregator k (c.rule.bucketEnd k - 1) c.parent.getMinTimestamp
      fun ts => ts < start ∨ ts > endTs).2 = true

theorem removeOrRecalculateBucket_spares (hwf : c.dest.WF) {k : Int} (hk : c.rule.calcBucketStart k = k)
    (hvalid : ValidTs k) (hlo : lo ≤ k) (start endTs : Int) :
    Spares lo (fun j => j = k ∧ c.Recalculates start endTs k) c (c.removeOrRecalculateBucket k start endTs) := by
  rw [removeOrRecalculateBucket]
  split
  · rename_i hopen
    exact (Spares.refl hwf lo).congr fun j => ⟨False.elim, fun hj => hj.2.1 hopen⟩
  · rename_i hopen
    dsimp only
    split
    · rename_i hcovered
      have hnone (j : Int) : False ↔ j = k ∧ c.Recalculates start endTs k := ⟨False.elim, fun hj => hj.2.2.1 hcovered⟩
      split
      · exact (Spares.refl hwf lo).congr hnone
      · exact (removeDestRange_spares hwf hlo _).congr hnone
    · rename_i hcovered
      refine (recalculateBucket_spares hwf hk hvalid hlo ..).congr fun j => and_congr_right fun _ => ?_
      exact ⟨fun htaken => ⟨hopen, hcovered, htaken⟩, fun h => h.2.2⟩

/-- A deletion's work on both ends of the range and on what lies between them. -/
def removeBoundaries (c : CompactionContext A) (start endTs : Int) : Outcome A :=
  let firstBucketStart := c.rule.calcBucketStart start
  let lastBucketStart := c.rule.calcBucketStart endTs
  andThen (c.removeOrRecalculateBucket firstBucketStart start endTs) fun c =>
    if lastBucketStart ≠ firstBucketStart then
      let middleStart := c.rule.bucketEnd firstBucketStart
      andThen
        (if middleStart < lastBucketStart ∧ ¬ c.dest.isEmpty then
          c.removeDestRange middleStart (lastBucketStart - 1)
        else (.ok (), c))
        fun c => c.removeOrRecalculateBucket lastBucketStart start endTs
    else (.ok (), c)

theorem handleCompactionRangeRemoval_eq (c : CompactionContext A) (start endTs : Int) :
    c.handleCompactionRangeRemoval start endTs = andThen (c.removeBoundaries start endTs)
    resyncOpenBucketAfterRemoval := by
  rw [handleCompactionRangeRemoval, removeBoundaries]
  generalize c.removeOrRecalculateBucket (c.rule.calcBucketStart start) start endTs = r
  obtain ⟨res, c'⟩ := r
  cases res <;> rfl

/-- The buckets at the ends of the range that are written again. -/
def Rewrites (c : CompactionContext A) (start endTs k : Int) : Prop :=
  (k = c.rule.calcBucketStart start ∨ k = c.rule.calcBucketStart endTs) ∧ c.Recalculates start endTs k

omit [Env] in
theorem Frames.recalculates (h : Frames lo w c c') {start endTs k : Int} :
    c'.Recalculates start endTs k ↔ c.Recalculates start endTs k := by
  rw [Recalculates, Recalculates, h.rule, h.parent]

theorem removeBoundaries_spares (hwf : c.dest.WF) (hd : c.rule.NoWrap) {start endTs : Int} (hstart : ValidTs start)
    (hend : ValidTs endTs) (horder : start ≤ endTs) :
    Spares (c.rule.calcBucketStart start) (c.Rewrites start endTs) c (c.removeBoundaries start endTs) := by
  have hmono : c.rule.calcBucketStart start ≤ c.rule.calcBucketStart endTs :=
    calcBucketStart_mono hd hstart hend horder
  have hfirst := removeOrRecalculateBucket_spares hwf (calcBucketStart_self hd hstart)
    (calcBucketStart_valid hd hstart) le_rfl start endTs
  rw [removeBoundaries]
  by_cases hne : c.rule.calcBucketStart endTs = c.rule.calcBucketStart start
  · simp only [ne_eq, hne, not_true, if_false]
    refine (hfirst.andThen fun c₁ hframes => Spares.refl hframes.wf _).congr fun k => ?_
    rw [Rewrites, hne, or_self, or_false]
    exact and_congr_right fun hk => by rw [hk]
  · simp only [ne_eq, hne, not_false_eq_true, if_true]
    have hlt : c.rule.calcBucketStart start < c.rule.calcBucketStart endTs := lt_of_le_of_ne hmono (Ne.symm hne)
    refine (hfirst.andThen (v := fun k => False ∨ k = c.rule.calcBucketStart endTs
      ∧ c.Recalculates start endTs (c.rule.calcBucketStart endTs)) fun c₁ hframes₁ => ?_).congr fun k => ?_
    · refine Spares.andThen ?_ fun c₂ hframes₂ => ?_
      · split
        · refine removeDestRange_spares hframes₁.wf ?_ _
          rw [hframes₁.rule]
          exact (calcBucketStart_lt_bucketEnd hd hstart (fits_of_lt hd hstart hend hlt)).le
        · exact .refl hframes₁.wf _
      · have hself : c₂.rule.calcBucketStart (c.rule.calcBucketStart endTs) = c.rule.calcBucketStart endTs := by
          rw [hframes₂.rule, hframes₁.rule]
          exact calcBucketStart_self hd hend
        refine (removeOrRecalculateBucket_spares hframes₂.wf hself (calcBucketStart_valid hd hend) hmono start
          endTs).congr fun k => and_congr_right fun _ => ?_
        rw [hframes₂.recalculates, hframes₁.recalculates]
    · rw [Rewrites, false_or, or_and_right]
      exact or_congr (and_congr_right fun hk => by rw [hk]) (and_congr_right fun hk => by rw [hk])

/-! ### What the last phase cuts off -/

omit [Aggregator A] [Env] in
theorem removeDestRange_cuts (hwf : c.dest.WF) (start endTs : Int) :
    ∃ c', (if c.dest.isEmpty then (.ok (), c) else c.removeDestRange start endTs) = (.ok (), c')
    ∧ ∀ x, x ∈ c'.dest.visible ↔ x ∈ c.dest.visible ∧ ¬ (start ≤ x.timestamp ∧ x.timestamp ≤ endTs) := by
  cases hempty : c.dest.isEmpty with
  | true =>
    rw [hwf.isEmpty_eq, decide_eq_true_eq] at hempty
    refine ⟨c, rfl, fun x => ?_⟩
    have hnil : c.dest.visible = [] := List.sublist_nil.mp (hempty ▸ TimeSeries.visible_sublist)
    simp [hnil]
  | false =>
    obtain ⟨count, dest, hdest, hwf', hset, hvis, -⟩ := hwf.removeRange_spec start endTs
    rw [if_neg Bool.false_ne_true, removeDestRange, hdest]
    refine ⟨_, rfl, fun x => ?_⟩
    rw [hvis, samplesOut, List.mem_filter, Bool.not_eq_true', decide_eq_false_iff_not]

omit [Env] in
/-- The destination is cut off at the bucket of the source's newest sample. -/
theorem resyncOpenBucketAfterRemoval_cuts (hparent : c.parent.WF) (hwf : c.dest.WF) {x : Sample}
    (hx : ValidTs x.timestamp) : x ∈ c.resyncOpenBucketAfterRemoval.2.dest.visible ↔ x ∈ c.dest.visible
    ∧ ∃ y, c.parent.visible.getLast? = some y ∧ x.timestamp < c.rule.calcBucketStart y.timestamp := by
  rw [resyncOpenBucketAfterRemoval, ← hparent.getLast?_visible]
  cases hlast : c.parent.visible.getLast? with
  | none =>
    obtain ⟨c', hc', hcut⟩ := removeDestRange_cuts (c := { c with rule := c.rule.reset }) hwf i64Min i64Max
    have hmin : i64Min ≤ 0 := by decide
    rw [hc', hcut]
    refine and_congr_right fun _ => ?_
    simp [hmin.trans hx.1, hx.2]
  | some last =>
    obtain ⟨c', hc', hcut⟩ := removeDestRange_cuts hwf (c.rule.calcBucketStart last.timestamp) i64Max
    dsimp only [Bucketing.getBucketRange]
    rw [hc']
    change x ∈ c'.dest.visible ↔ _
    simp [hcut, hx.2]

/-! ### A deletion -/

/-- Every visible sample of the destination whose bucket ends at or before `start` is there after a
deletion from the source. -/
def KeepsArchive (c : CompactionContext A) (start endTs : Int) : Prop :=
  ∀ x ∈ c.dest.visible, c.rule.floor x.timestamp + c.rule.bucketDuration ≤ start →
    x ∈ (c.removeRangeWithCompaction start endTs).2.dest.visible

/-- What a deletion leaves of a bucket of the source. -/
def remaining (c : CompactionContext A) (start endTs k : Int) : List Sample :=
  samplesIn k (c.rule.bucketEnd k - 1) (samplesOut start endTs c.parent.visible)

/-- A bucket at an end of the range is written again: it is closed, the range does not cover it, and the
aggregator takes one of the samples that remain in it. -/
def WritesAgain (c : CompactionContext A) (start endTs k : Int) : Prop :=
  (k = c.rule.calcBucketStart start ∨ k = c.rule.calcBucketStart endTs) ∧ c.rule.bucketStart ≠ some k
    ∧ ¬ (start ≤ k ∧ endTs ≥ c.rule.bucketEnd k)
    ∧ ((c.remaining start endTs k).foldl feed (Aggregator.reset c.rule.aggregator, false)).2 = true

/-- A deletion takes no sample of the source; or for all samples of the destination that end at or before
`start` it leaves one of the source in a later bucket, and writes no bucket that is too late for the
destination to keep them beside it. -/
def Outlasts (c : CompactionContext A) (start endTs : Int) : Prop :=
  samplesIn start endTs c.parent.visible = [] ∨
    ∀ x ∈ c.dest.visible, c.rule.floor x.timestamp + c.rule.bucketDuration ≤ start →
      (∃ y ∈ samplesOut start endTs c.parent.visible,
        c.rule.calcBucketStart x.timestamp < c.rule.calcBucketStart y.timestamp)
      ∧ ∀ k, c.WritesAgain start endTs k → c.dest.retention.Reaches k x.timestamp

/-- A visible sample before the bucket of `start` is still there when it is before the bucket of the newest
sample of the source and what is written reaches it, and only then if the destination is roomy. -/
theorem handleCompactionRangeRemoval_keeps (hparent : c.parent.WF) (hwf : c.dest.WF)
    (hd : c.rule.NoWrap) {start endTs : Int} (hstart : ValidTs start) (hend : ValidTs endTs) (horder : start ≤ endTs)
    {x : Sample} (hx : x ∈ c.dest.visible) (hbefore : x.timestamp < c.rule.calcBucketStart start) :
    ((∃ y, c.parent.visible.getLast? = some y ∧ x.timestamp < c.rule.calcBucketStart y.timestamp) →
    (∀ k, c.Rewrites start endTs k → c.dest.retention.Reaches k x.timestamp) →
    x ∈ (c.handleCompactionRangeRemoval start endTs).2.dest.visible)
    ∧ (c.dest.Roomy → c.dest.IgnoresNothing → x ∈ (c.handleCompactionRangeRemoval start endTs).2.dest.visible →
    (∃ y, c.parent.visible.getLast? = some y ∧ x.timestamp < c.rule.calcBucketStart y.timestamp)
    ∧ ∀ k, c.Rewrites start endTs k → c.dest.retention.Reaches k x.timestamp) := by
  obtain ⟨hframes, hroomy, hexpires⟩ := removeBoundaries_spares hwf hd hstart hend horder
  rw [handleCompactionRangeRemoval_eq]
  have hvalid := hwf.run.times x (TimeSeries.visible_sublist.subset hx)
  generalize c.removeBoundaries start endTs = r at hframes hroomy hexpires ⊢
  obtain ⟨res, c'⟩ := r
  cases res with
  | error e => exact ⟨fun _ hreach => hframes.keeps x hbefore hx hreach, fun hr => by cases (hroomy hr).1⟩
  | ok =>
    have hcut := resyncOpenBucketAfterRemoval_cuts (hframes.parent ▸ hparent) hframes.wf hvalid
    rw [hframes.parent, hframes.rule] at hcut
    change (_ → _ → x ∈ c'.resyncOpenBucketAfterRemoval.2.dest.visible)
      ∧ (_ → _ → x ∈ c'.resyncOpenBucketAfterRemoval.2.dest.visible → _)
    rw [hcut]
    constructor
    · intro hlater hreach
      exact ⟨hframes.keeps x hbefore hx hreach, hlater⟩
    · rintro hr hignores ⟨hmem, hlater⟩
      exact ⟨hlater, hexpires hr hignores x hbefore hmem⟩

omit [DecimalHelpers] [Env] in
theorem lt_calcBucketStart_of_ends {b : Bucketing} (hd : b.NoWrap) {t start : Int} (hstart : ValidTs start)
    (hends : b.floor t + b.bucketDuration ≤ start) : t < b.calcBucketStart start := by
  have hlt := b.lt_floor_add t
  have hmono := floor_mono (b := b) hends
  have hself := floor_eq (b := b) (t := t) (u := b.floor t) le_rfl (by have := b.duration_pos; omega)
  rw [floor_add, hself] at hmono
  rw [calcBucketStart_eq hd hstart]
  omega

omit [Env] in
/-- What is recalculated from the source after the deletion is what remains of the bucket. -/
theorem rewrites_iff {parent : TimeSeries} (hwf : parent.WF) {start endTs : Int}
    (hvis : parent.visible = samplesOut start endTs c.parent.visible) (hall : parent.visible = parent.samples)
    {k : Int} :
    Rewrites { c with parent, written := [] } start endTs k ↔ c.WritesAgain start endTs k := by
  have hrange : calculateRange parent c.rule.aggregator k (c.rule.bucketEnd k - 1) parent.getMinTimestamp
      (fun ts => ts < start ∨ ts > endTs) =
      (c.remaining start endTs k).foldl feed (Aggregator.reset c.rule.aggregator, false) := by
    rw [calculateRange, hwf.storedRangeIter_eq, ← hall, samplesIn, List.filter_filter, remaining, ← hvis, samplesIn]
    congr 1
    refine List.filter_congr fun x hx => ?_
    have hmin : parent.getMinTimestamp ≤ x.timestamp := by simpa using (List.mem_filter.mp hx).2
    have hout : ¬ (start ≤ x.timestamp ∧ x.timestamp ≤ endTs) := by
      rw [hvis] at hx
      simpa only [Bool.not_eq_true', decide_eq_false_iff_not] using (List.mem_filter.mp hx).2
    have hout' : x.timestamp < start ∨ x.timestamp > endTs := by omega
    simp only [hout', decide_true, Bool.true_and, decide_eq_decide]
    omega
  rw [Rewrites, Recalculates, WritesAgain, hrange]

/-- **A deletion keeps the archived buckets** when it leaves a sample of the source in a later
bucket and writes none that makes the destination's retention drop them; only then, if the destination has
room for what the deletion writes and ignores none of it. -/
theorem removeRangeWithCompaction_keepsArchive (hparent : c.parent.WF) (hwf : c.dest.WF)
    (hd : c.rule.NoWrap) {start endTs : Int} (hstart : ValidTs start) (hend : ValidTs endTs) :
    (c.Outlasts start endTs → c.KeepsArchive start endTs)
      ∧ (c.dest.Roomy → c.dest.IgnoresNothing → c.KeepsArchive start endTs → c.Outlasts start endTs) := by
  obtain ⟨count, parent, hrem, hwf', hset, hvis, hcount, hall⟩ := hparent.removeRange_spec start endTs
  unfold KeepsArchive Outlasts
  rw [removeRangeWithCompaction, hrem]
  dsimp only
  by_cases hnil : samplesIn start endTs c.parent.visible = []
  · rw [if_neg (by rw [hcount, hnil]; exact Nat.lt_irrefl 0)]
    exact ⟨fun _ x hx _ => hx, fun _ _ _ => .inl hnil⟩
  · rw [if_pos (by rw [hcount]; exact List.length_pos_iff.mpr hnil)]
    have horder : start ≤ endTs := by
      obtain ⟨x, hx⟩ := List.exists_mem_of_ne_nil _ hnil
      have := (List.mem_filter.mp hx).2
      simp only [decide_eq_true_eq] at this
      omega
    -- the newest sample that is left is in the latest bucket
    have hnewest (t : Int) (ht : ValidTs t) :
        (∃ y, parent.visible.getLast? = some y ∧ t < c.rule.calcBucketStart y.timestamp)
          ↔ ∃ y ∈ samplesOut start endTs c.parent.visible,
            c.rule.calcBucketStart t < c.rule.calcBucketStart y.timestamp := by
      have htimes (y : Sample) (hy : y ∈ parent.visible) : ValidTs y.timestamp :=
        hwf'.run.times y (TimeSeries.visible_sublist.subset hy)
      rw [← hvis]
      constructor
      · rintro ⟨y, hy, hlt⟩
        exact ⟨y, List.mem_of_getLast? hy, (calcBucketStart_le hd ht).trans_lt hlt⟩
      · rintro ⟨y, hy, hlt⟩
        obtain ⟨last, hlast⟩ := Option.ne_none_iff_exists'.mp fun hnone =>
          List.ne_nil_of_mem hy (List.getLast?_eq_none_iff.mp hnone)
        have hmax := ((Increasing.getLast?_eq_some
          (hwf'.run.increasing.sublist TimeSeries.visible_sublist)).mp hlast).2 y hy
        have hlastV := htimes last (List.mem_of_getLast? hlast)
        have hle := calcBucketStart_mono (b := c.rule.toBucketing) hd (htimes y hy) hlastV hmax
        refine ⟨last, hlast, not_le.mp fun hge => ?_⟩
        have hk := calcBucketStart_mono hd (calcBucketStart_valid hd hlastV) ht hge
        rw [calcBucketStart_self hd hlastV] at hk
        omega
    have hvalid {x : Sample} (hx : x ∈ c.dest.visible) : ValidTs x.timestamp :=
      hwf.run.times x (TimeSeries.visible_sublist.subset hx)
    have hkeeps {x : Sample} (hx : x ∈ c.dest.visible)
        (hends : c.rule.floor x.timestamp + c.rule.bucketDuration ≤ start) :=
      handleCompactionRangeRemoval_keeps (c := { c with parent, written := [] }) hwf' hwf hd hstart hend horder
        hx (lt_calcBucketStart_of_ends hd hstart hends)
    simp only [rewrites_iff hwf' hvis (hall (.inl horder))] at hkeeps
    constructor
    · rintro (h | houtlasts) x hx hends
      · exact absurd h hnil
      · obtain ⟨hlater, hreach⟩ := houtlasts x hx hends
        exact (hkeeps hx hends).1 ((hnewest _ (hvalid hx)).mpr hlater) hreach
    · intro hroomy hignores hkept
      refine .inr fun x hx hends => ?_
      obtain ⟨hlater, hreach⟩ := (hkeeps hx hends).2 hroomy hignores (hkept x hx hends)
      exact ⟨(hnewest _ (hvalid hx)).mp hlater, hreach⟩

instance (c : CompactionContext A) (start endTs : Int) : Decidable (c.KeepsArchive start endTs) :=
  inferInstanceAs (Decidable (∀ x ∈ _, _ → _))

omit [DecimalHelpers] [Env] in
/-- A source that keeps ten milliseconds.  The sample of bucket zero has expired when the
deletion takes the only one that is left, and the whole destination goes with it. -/
theorem removeRangeWithCompaction_loses_archive :
    letI := oneTenth
    letI := keepLastEnv
    ¬ (({ lastOfTen with parent := { TimeSeries.fresh with retention := 10 } } : CompactionContext LastAggregator).run
      [.add 5 (F64.ofNat 1) none, .add 25 (F64.ofNat 2) none]).KeepsArchive 20 30 := by
  decide

/-- A source that keeps twenty milliseconds, and a destination that keeps a day. -/
def archivePair : CompactionContext LastAggregator :=
  { lastOfTen with parent := { TimeSeries.fresh with retention := 20 },
                   dest := { TimeSeries.fresh with retention := 86400000 } }

omit [DecimalHelpers] [Env] in
/-- The sample of bucket zero has expired in the source; the deletion takes the newest sample. -/
theorem removeRangeWithCompaction_keepsArchive_later :
    letI := oneTenth
    letI := keepLastEnv
    let c := archivePair.run [.add 5 (F64.ofNat 1) none, .add 25 (F64.ofNat 2) none, .add 31 (F64.ofNat 3) none,
      .add 38 (F64.ofNat 4) none]
    c.dest.visible.map (·.timestamp) = [0, 20] ∧ c.parent.visible.map (·.timestamp) = [25, 31, 38] ∧
      c.KeepsArchive 35 40 := by
  let _ := oneTenth
  let _ := keepLastEnv
  dsimp only
  generalize hc : archivePair.run [.add 5 (F64.ofNat 1) none, .add 25 (F64.ofNat 2) none, .add 31 (F64.ofNat 3) none,
    .add 38 (F64.ofNat 4) none] = c
  have hparent : c.parent = ({ TimeSeries.fresh with retention := 20 } : TimeSeries).run
      [.add 5 (F64.ofNat 1) none, .add 25 (F64.ofNat 2) none, .add 31 (F64.ofNat 3) none,
        .add 38 (F64.ofNat 4) none] := by
    rw [← hc]
    decide
  have hdest : c.dest = ({ TimeSeries.fresh with retention := 86400000 } : TimeSeries).run
      [.add 0 (F64.ofNat 1) (some .keepLast), .add 20 (F64.ofNat 2) (some .keepLast)] := by
    rw [← hc]
    decide
  have hfresh (retention : Retention) : ({ TimeSeries.fresh with retention } : TimeSeries).WF :=
    @TimeSeries.wf_of_withOptions _ _ _ ⟨.uncompressed, some 48, some retention, none, none, none⟩ rfl
  have hdestWF : c.dest.WF := hdest ▸ (hfresh _).run_wf (by decide)
  have hlater : ∀ x ∈ c.dest.visible, c.rule.floor x.timestamp + c.rule.bucketDuration ≤ 35 →
      ∃ y ∈ samplesOut 35 40 c.parent.visible, c.rule.calcBucketStart x.timestamp < c.rule.calcBucketStart
          y.timestamp := by
    rw [← hc]
    decide
  have hends : c.rule.calcBucketStart 35 = 30 ∧ c.rule.calcBucketStart 40 = 40 ∧ c.dest.retention = 86400000
      ∧ c.rule.NoWrap ∧ c.dest.visible.map (·.timestamp) = [0, 20]
      ∧ c.parent.visible.map (·.timestamp) = [25, 31, 38] := by
    rw [← hc]
    decide
  obtain ⟨hstart, hend, hretention, hnoWrap, hbefore, hsource⟩ := hends
  refine ⟨hbefore, hsource, (removeRangeWithCompaction_keepsArchive (hparent ▸ (hfresh _).run_wf (by decide)) hdestWF
    hnoWrap
    (by decide) (by decide)).1 (.inr fun x hx hends => ⟨hlater x hx hends, fun k hk => .inr ?_⟩)⟩
  -- a day reaches back to zero from the bucket of either bound
  have hvalid := (hdestWF.run.times x (TimeSeries.visible_sublist.subset hx)).1
  rw [hretention]
  change k - 86400000 ≤ x.timestamp
  rcases hk.1 with hk | hk <;> omega

end CompactionContext

end ValkeyTimeSeries
