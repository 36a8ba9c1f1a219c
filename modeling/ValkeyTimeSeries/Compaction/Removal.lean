/-
Compaction/Removal.lean

A deletion from the source keeps a rule in sync.

Design.  The buckets at the two ends of the range are calculated again and those between them removed; up to
there the destination is kept before the bucket that was open.  The newest sample may have been deleted, so at
last the open bucket is found anew and the destination cut off there.
-/
import ValkeyTimeSeries.Compaction.Writes

namespace ValkeyTimeSeries

open List Bucketing

namespace CompactionContext

variable {A : Type} [DecimalHelpers] {c c' c'' : CompactionContext A}

/-! ### Phases -/

structure Kept (c c' : CompactionContext A) : Prop where
  ready : c'.Ready
  parent : c'.parent = c.parent
  rule : c'.rule = c.rule
  live : c.Live → c'.Live

theorem Kept.refl (h : c.Ready) : Kept c c := ⟨h, rfl, rfl, id⟩

theorem Kept.trans (h : Kept c c') (h' : Kept c' c'') : Kept c c'' :=
  ⟨h'.ready, h'.parent.trans h.parent, h'.rule.trans h.rule, fun hlive => h'.live (h.live hlive)⟩

theorem Removed.kept {start endTs : Int} (h : Removed c start endTs c') : Kept c c' :=
  ⟨h.ready, h.parent, h.rule, h.live⟩

theorem Mended.kept {k bucketEnd : Int} {v : Option F64} (h : Mended c k bucketEnd v c') : Kept c c' :=
  ⟨h.frame.1, h.frame.2.1, h.frame.2.2, h.live⟩

theorem removeDestRange_unless_empty (h : c.Ready) (start endTs : Int) :
    ∃ c', (if c.dest.isEmpty then (.ok (), c) else c.removeDestRange start endTs) = (.ok (), c') ∧ Kept c c'
    ∧ ∀ t, sampleAt t c'.dest.samples = if start ≤ t ∧ t ≤ endTs then none else sampleAt t c.dest.samples := by
  cases hempty : c.dest.isEmpty with
  | true =>
    rw [h.plain.wf.isEmpty_eq, decide_eq_true_eq] at hempty
    refine ⟨c, rfl, .refl h, fun t => ?_⟩
    rw [hempty]
    split <;> rfl
  | false =>
    obtain ⟨c', hc', hrem⟩ := removeDestRange_spec h start endTs
    exact ⟨c', hc', hrem.kept, hrem.sampleAt_eq⟩

theorem removeMiddle_spec (h : c.Ready) (start endTs : Int) :
    ∃ c', (if start < endTs ∧ ¬ c.dest.isEmpty then c.removeDestRange start (endTs - 1) else (.ok (), c))
    = (.ok (), c') ∧ Kept c c'
    ∧ ∀ t, sampleAt t c'.dest.samples = if start ≤ t ∧ t < endTs then none else sampleAt t c.dest.samples := by
  obtain ⟨c', hc', hkept, hat⟩ := removeDestRange_unless_empty h start (endTs - 1)
  by_cases hlt : start < endTs
  · refine ⟨c', ?_, hkept, fun t => ?_⟩
    · rw [← hc']
      cases c.dest.isEmpty <;> simp [hlt]
    · rw [hat]
      simp only [Int.le_sub_one_iff]
  · refine ⟨c, if_neg fun hand => hlt hand.1, .refl h, fun t => ?_⟩
    rw [if_neg (by omega)]

variable [Aggregator A]

/-- The destination has the rollup before `o`, except for some buckets. -/
def Agrees (c : CompactionContext A) (o : Int) (l : List Sample) (stale : Int → Prop) : Prop :=
  ∀ k, ¬ stale k → sampleAt k c.dest.samples = rollupBelow c.rule.toBucketing c.rule.aggregator o l k

variable {good : F64 → Prop} {l l' : List Sample} {stale : Int → Prop} {o start endTs : Int}

section Ends

variable [Env] [LawfulFloatOps]

theorem removeOrRecalculateBucket_spec (hrule : Admissible good c.rule) (hready : c.Ready) (hreads : Reads good c l)
    (hret : c.parent.retention = 0) (hgone : ∀ x ∈ l, x.timestamp < start ∨ endTs < x.timestamp)
    (hopen : c.rule.bucketStart = some o) (hle : ∀ x ∈ l, c.rule.calcBucketStart x.timestamp ≤ o) {t : Int}
    (ht : ValidTs t) (hagrees : Agrees c o l stale) (hbelow : ∀ k, stale k → k < o)
    (hfits : stale (c.rule.calcBucketStart t) → c.rule.Fits t) :
    ∃ c', c.removeOrRecalculateBucket (c.rule.calcBucketStart t) start endTs = (.ok (), c') ∧ Kept c c'
    ∧ Agrees c' o l fun k => stale k ∧ k ≠ c.rule.calcBucketStart t := by
  rw [removeOrRecalculateBucket]
  by_cases hcur : c.rule.calcBucketStart t = o
  · rw [if_pos (by rw [hopen, hcur])]
    refine ⟨c, rfl, .refl hready, fun k hk => hagrees k fun hs => hk ⟨hs, ?_⟩⟩
    rintro rfl
    exact absurd (hbelow _ hs) (hcur ▸ lt_irrefl _)
  · rw [if_neg (by rw [hopen]; exact fun h => hcur (Option.some.inj h).symm)]
    have hk : c.rule.calcBucketStart t < o ∨ c.rule.inBucket (c.rule.calcBucketStart t) l = [] := by
      rcases lt_or_gt_of_ne hcur with hlt | hgt
      · exact .inl hlt
      · refine .inr (eq_nil_iff_forall_not_mem.mpr fun x hx => ?_)
        obtain ⟨hx, hxk⟩ := mem_inBucket.mp hx
        have := hle x hx
        omega
    have hmended (c' : CompactionContext A) (h : Mended c (c.rule.calcBucketStart t)
        (c.rule.bucketEnd (c.rule.calcBucketStart t))
        (aggregate c.rule.aggregator (c.rule.inBucket (c.rule.calcBucketStart t) l)) c') :
        Kept c c' ∧ Agrees c' o l fun k => stale k ∧ k ≠ c.rule.calcBucketStart t := by
      refine ⟨h.kept, fun k hkeep => ?_⟩
      rw [h.kept.rule]
      refine h.rollupBelow_eq hrule.noWrap hreads.fine ht hk hagrees k fun hs => ?_
      have heq : k = c.rule.calcBucketStart t := not_not.mp fun hne => hkeep ⟨hs, hne⟩
      exact ⟨heq, hfits (heq ▸ hs)⟩
    dsimp only
    split
    · -- all of the bucket has been deleted
      have hnil : c.rule.inBucket (c.rule.calcBucketStart t) l = [] := by
        refine eq_nil_iff_forall_not_mem.mpr fun x hx => ?_
        obtain ⟨hx, hxk⟩ := mem_inBucket.mp hx
        obtain ⟨-, rfl, hfine⟩ := hreads
        have hbetween := (hfine.between_iff hrule.noWrap ht hx).mpr hxk
        have := hgone x hx
        omega
      cases hempty : c.dest.isEmpty with
      | true =>
        rw [hready.plain.wf.isEmpty_eq, decide_eq_true_eq] at hempty
        refine ⟨c, rfl, .refl hready, fun k hkeep => ?_⟩
        by_cases hs : stale k
        · have heq : k = c.rule.calcBucketStart t := not_not.mp fun hne => hkeep ⟨hs, hne⟩
          rw [hempty, rollupBelow, heq, hnil]
          simp [sampleAt]
        · exact hagrees k hs
      | false =>
        obtain ⟨c', hc', hrem⟩ := removeDestRange_spec hready (c.rule.calcBucketStart t)
          (c.rule.bucketEnd (c.rule.calcBucketStart t) - 1)
        refine ⟨c', hc', hmended c' ?_⟩
        rw [hnil, aggregate_nil]
        exact .removed hrem
    · have hmin : ∀ y ∈ l, c.parent.getMinTimestamp ≤ y.timestamp := by
        rw [← hreads.samples]
        exact hreads.wf.getMinTimestamp_le hret
      obtain ⟨c', hc', h⟩ := recalculateBucket_spec hrule hready hreads ht hmin
        (f := fun ts => ts < start ∨ ts > endTs) fun x hx => decide_eq_true (hgone x hx)
      exact ⟨c', hc', hmended c' h⟩

end Ends

/-! ### The open bucket -/

variable [LawfulAggregator A]

structure Pruned (c : CompactionContext A) (l : List Sample) (c' : CompactionContext A) : Prop where
  ready : c'.Ready
  parent : c'.parent = c.parent
  same : SameRule c.rule c'.rule
  sync : InSync c'.rule l c'.dest.samples
  live : c.Live → c'.Live

theorem resyncOpenBucketAfterRemoval_spec (hrule : Admissible good c.rule) (hready : c.Ready)
    (hreads : Reads good c l) (hret : c.parent.retention = 0)
    (hle : ∀ x ∈ l, c.rule.calcBucketStart x.timestamp ≤ o) (hagrees : Agrees c o l fun _ => False) :
    ∃ c', c.resyncOpenBucketAfterRemoval = (.ok (), c') ∧ Pruned c l c' := by
  obtain ⟨hwf, rfl, hfine⟩ := hreads
  rw [resyncOpenBucketAfterRemoval, hwf.last]
  cases hlast : c.parent.samples.getLast? with
  | none =>
    have hnil := getLast?_eq_none_iff.mp hlast
    obtain ⟨c', hc', hkept, hat⟩ := removeDestRange_unless_empty (c := { c with rule := c.rule.reset })
      (hready.congr rfl) i64Min i64Max
    refine ⟨c', hc', hkept.ready, hkept.parent, ?_, ?_, fun h => hkept.live (h.congr rfl rfl)⟩
    · rw [hkept.rule]
      exact ⟨rfl, rfl, LawfulAggregator.reset_reset _⟩
    · have hopen (rule : CompactionRule A) : rule.openBucket c.parent.samples = none := by
        rw [hnil]
        rfl
      refine ⟨?_, fun o ho => ?_, fun o ho => ?_, fun _ => ⟨?_, fun k => ?_⟩⟩
      · rw [hkept.rule, hopen]
        rfl
      · rw [hopen] at ho
        cases ho
      · rw [hopen] at ho
        cases ho
      · rw [hkept.rule]
        exact Prod.ext (LawfulAggregator.reset_reset _).symm rfl
      · rw [hat]
        split
        · rfl
        · rename_i hout
          refine sampleAt_eq_none.mpr fun x hx hxk => hout ?_
          have := hready.plain.wf.run.times x hx
          have hmin : i64Min ≤ 0 := by decide
          exact ⟨hmin.trans (hxk ▸ this.1), hxk ▸ this.2⟩
  | some last =>
    have hmem := mem_of_getLast? hlast
    have hlastV := hfine.run.times last hmem
    have hopen : c.rule.openBucket c.parent.samples = some (c.rule.calcBucketStart last.timestamp) := by
      rw [Bucketing.openBucket, hlast]
      rfl
    obtain ⟨c', hc', hkept, hat⟩ := removeDestRange_unless_empty hready
      (c.rule.calcBucketStart last.timestamp) i64Max
    dsimp only [Bucketing.getBucketRange]
    rw [hc']
    dsimp only [andThen]
    -- what is read of the parent is the newest bucket
    have hrange : c'.parent.rangeIter (c.rule.calcBucketStart last.timestamp)
        (c.rule.bucketEnd (c.rule.calcBucketStart last.timestamp) - 1)
        = c.rule.inBucket (c.rule.calcBucketStart last.timestamp) c.parent.samples := by
      rw [hkept.parent, hwf.rangeIter_eq, hwf.visible_of_retention hret, samplesIn, Bucketing.inBucket]
      refine filter_congr fun x hx => ?_
      rw [decide_eq_decide]
      exact hfine.between_iff hrule.noWrap hlastV hx
    have hsame : SameRule c.rule { c'.rule with
        aggregator := (fresh c.rule.aggregator (c.rule.inBucket (c.rule.calcBucketStart last.timestamp)
          c.parent.samples)).1
        hasSamples := (fresh c.rule.aggregator (c.rule.inBucket (c.rule.calcBucketStart last.timestamp)
          c.parent.samples)).2
        bucketStart := some (c.rule.calcBucketStart last.timestamp) } :=
      ⟨by rw [hkept.rule], by rw [hkept.rule], reset_fresh ..⟩
    rw [hrange, hkept.rule] at *
    refine ⟨_, rfl, hkept.ready.congr rfl, hkept.parent, hsame, ?_, fun h => (hkept.live h).congr rfl rfl⟩
    refine hsame.inSyncExcept hopen rfl (fun _ => rfl) fun k _ => ?_
    have hold := hagrees k id
    rw [hat, rollupBelow]
    rw [rollupBelow] at hold
    by_cases hlt : k < c.rule.calcBucketStart last.timestamp
    · have := hle last hmem
      rw [if_neg (by omega), if_pos hlt, hold, if_pos (by omega)]
    · split
      · rfl
      · rename_i hout
        refine sampleAt_eq_none.mpr fun x hx hxk => hout ?_
        have := hready.plain.wf.run.times x hx
        exact ⟨by omega, hxk ▸ this.2⟩

variable [Env] [LawfulFloatOps]

/-- **A deletion** of a range of the source keeps the rule in sync. -/
theorem handleCompactionRangeRemoval_spec (hrule : Admissible good c.rule) (hready : c.Ready)
    (hreads : Reads good c (samplesOut start endTs l)) (hret : c.parent.retention = 0)
    (hfine : Fine good c.rule.toBucketing l) (hsync : InSync c.rule l c.dest.samples) (hne : l ≠ [])
    (hstart : ValidTs start) (hend : ValidTs endTs) (horder : start ≤ endTs) :
    ∃ c', c.handleCompactionRangeRemoval start endTs = (.ok (), c') ∧ Pruned c (samplesOut start endTs l) c' := by
  have hd := hrule.noWrap
  obtain ⟨o, ho⟩ := Option.ne_none_iff_exists'.mp fun hnone =>
    hne (openBucket_eq_none (b := c.rule.toBucketing).mp hnone)
  have hmem (x : Sample) (hx : x ∈ samplesOut start endTs l) : x ∈ l := (mem_filter.mp hx).1
  have hgone (x : Sample) (hx : x ∈ samplesOut start endTs l) : x.timestamp < start ∨ endTs < x.timestamp := by
    simpa [imp_iff_not_or] using (mem_filter.mp hx).2
  have hle (x : Sample) (hx : x ∈ samplesOut start endTs l) : c.rule.calcBucketStart x.timestamp ≤ o :=
    le_openBucket hd hfine.run ho (hmem x hx)
  have hfirstLast : c.rule.calcBucketStart start ≤ c.rule.calcBucketStart endTs :=
    calcBucketStart_mono hd hstart hend horder
  -- the buckets that lost a sample
  generalize hstale : (fun k => k < o ∧ ∃ x ∈ l, (start ≤ x.timestamp ∧ x.timestamp ≤ endTs)
    ∧ c.rule.calcBucketStart x.timestamp = k) = stale
  have hbelow (k : Int) (hk : stale k) : k < o := by
    rw [← hstale] at hk
    exact hk.1
  have hbounds (k : Int) (hk : stale k) :
      c.rule.calcBucketStart start ≤ k ∧ k ≤ c.rule.calcBucketStart endTs := by
    rw [← hstale] at hk
    obtain ⟨-, x, hx, ⟨hsx, hxe⟩, rfl⟩ := hk
    have hxv := hfine.run.times x hx
    exact ⟨calcBucketStart_mono hd hstart hxv hsx, calcBucketStart_mono hd hxv hend hxe⟩
  have hfits (t : Int) (hk : stale (c.rule.calcBucketStart t)) : c.rule.Fits t := by
    rw [← hstale] at hk
    obtain ⟨-, x, hx, -, heq⟩ := hk
    have := hfine.fits x hx
    rwa [Bucketing.Fits, heq] at this
  have hagrees : Agrees c o (samplesOut start endTs l) stale := by
    intro k hk
    rw [hsync.dest o ho k False.elim, rollupBelow, rollupBelow]
    split
    · rename_i hlt
      have hsame : c.rule.inBucket k (samplesOut start endTs l) = c.rule.inBucket k l := by
        rw [Bucketing.inBucket, samplesOut, filter_filter]
        refine filter_congr fun x hx => ?_
        rw [← hstale] at hk
        by_cases hxk : c.rule.calcBucketStart x.timestamp = k
        · have hout : ¬ (start ≤ x.timestamp ∧ x.timestamp ≤ endTs) := fun hin => hk ⟨hlt, x, hx, hin, hxk⟩
          rw [decide_eq_false hout]
          simp
        · rw [decide_eq_false hxk, Bool.false_and]
      rw [hsame]
    · rfl
  obtain ⟨c₁, hc₁, hkept₁, hagrees₁⟩ := removeOrRecalculateBucket_spec hrule hready hreads hret hgone
    (hsync.bucketStart.trans ho) hle hstart hagrees hbelow (hfits start)
  rw [handleCompactionRangeRemoval, hc₁]
  dsimp only [andThen]
  -- what is left once both ends and the middle are done
  have hrest (c₂ : CompactionContext A) (hkept : Kept c c₂)
      (hdone : Agrees c₂ o (samplesOut start endTs l) fun _ => False) :
      ∃ c', c₂.resyncOpenBucketAfterRemoval = (.ok (), c') ∧ Pruned c (samplesOut start endTs l) c' := by
    obtain ⟨c', hc', hpruned⟩ := resyncOpenBucketAfterRemoval_spec (by rw [hkept.rule]; exact hrule) hkept.ready
      ⟨hkept.parent ▸ hreads.wf, hkept.parent ▸ hreads.samples, by rw [hkept.rule]; exact hreads.fine⟩
      (hkept.parent ▸ hret) (by rw [hkept.rule]; exact hle) hdone
    exact ⟨c', hc', hpruned.ready, hpruned.parent.trans hkept.parent, hkept.rule ▸ hpruned.same, hpruned.sync,
      fun hlive => hpruned.live (hkept.live hlive)⟩
  by_cases hone : c.rule.calcBucketStart endTs = c.rule.calcBucketStart start
  · rw [if_neg (not_not.mpr hone)]
    refine hrest c₁ hkept₁ fun k _ => hagrees₁ k fun hk => hk.2 ?_
    have := hbounds k hk.1
    omega
  · rw [if_pos hone, hkept₁.rule]
    have hfit : c.rule.Fits start := fits_of_lt hd hstart hend (lt_of_le_of_ne hfirstLast (Ne.symm hone))
    have hstartLt := calcBucketStart_lt_bucketEnd hd hstart hfit
    obtain ⟨c₂, hc₂, hkept₂, hat₂⟩ := removeMiddle_spec hkept₁.ready
      (c.rule.bucketEnd (c.rule.calcBucketStart start)) (c.rule.calcBucketStart endTs)
    -- no sample is left in a bucket between the ends
    have hnil (k : Int) (hlo : c.rule.calcBucketStart start < k) (hhi : k < c.rule.calcBucketStart endTs) :
        c.rule.inBucket k (samplesOut start endTs l) = [] := by
      refine eq_nil_iff_forall_not_mem.mpr fun x hxk => ?_
      obtain ⟨hx, rfl⟩ := mem_inBucket.mp hxk
      have hxv := hfine.run.times x (hmem x hx)
      rcases hgone x hx with hlt | hgt
      · have := calcBucketStart_mono hd hxv hstart hlt.le
        omega
      · have := calcBucketStart_mono hd hend hxv hgt.le
        omega
    have hagrees₂ : Agrees c₂ o (samplesOut start endTs l) fun k => k = c.rule.calcBucketStart endTs ∧ stale k := by
      intro k hk
      rw [hat₂, hkept₂.rule]
      split
      · rename_i hin
        rw [rollupBelow, hkept₁.rule, hnil k (by omega) hin.2]
        simp
      · rename_i hout
        refine hagrees₁ k fun hs => hout ?_
        obtain ⟨hlo, hhi⟩ := hbounds k hs.1
        have hlt : k < c.rule.calcBucketStart endTs := lt_of_le_of_ne hhi fun heq => hk ⟨heq, hs.1⟩
        refine ⟨?_, hlt⟩
        rw [← hstale] at hs
        obtain ⟨⟨-, x, hx, -, rfl⟩, hne⟩ := hs
        exact bucketEnd_le_of_lt hd hstart hfit (hfine.run.times x hx) (lt_of_le_of_ne hlo (Ne.symm hne))
    have hkept := hkept₁.trans hkept₂
    obtain ⟨c₃, hc₃, hkept₃, hagrees₃⟩ := removeOrRecalculateBucket_spec (c := c₂) (by rw [hkept.rule]; exact hrule)
      hkept.ready ⟨hkept.parent ▸ hreads.wf, hkept.parent ▸ hreads.samples, by rw [hkept.rule]; exact hreads.fine⟩
      (hkept.parent ▸ hret) hgone (by rw [hkept.rule]; exact hsync.bucketStart.trans ho)
      (by rw [hkept.rule]; exact hle) hend hagrees₂ (fun k hk => hbelow k hk.2)
      (by rw [hkept.rule]; exact fun hk => hfits endTs hk.2)
    rw [hkept.rule] at hc₃ hagrees₃
    rw [hc₂]
    rw [hc₃]
    exact hrest c₃ (hkept.trans hkept₃) fun k _ => hagrees₃ k fun hk => hk.2 hk.1.1

end CompactionContext

end ValkeyTimeSeries
