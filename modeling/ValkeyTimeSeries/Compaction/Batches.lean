/-
Compaction/Batches.lean

What a write leaves in a source without retention, and what it hands to the compaction.

Design.  A source is seen through `sampleAt`.  Writing one sample changes its own timestamp (`Took`), and a
batch is a list of such writes, whichever of its three ways it goes: alone, one by one where a timestamp
repeats, or merged.
-/
import ValkeyTimeSeries.Compaction.Writes

namespace ValkeyTimeSeries

open List Option

/-! ### Values -/

section Values

variable [FloatOps] {good : F64 → Prop} {policy : DuplicatePolicy} {l l' items more : List Sample}

/-- Values that the policy combines to values of the same kind. -/
def Combines (good : F64 → Prop) (policy : DuplicatePolicy) : Prop :=
  ∀ old new v, good old → good new → policy.duplicateValue old new = .ok v → good v

/-- A policy that keeps one of the two values combines values of any kind. -/
theorem combines_of_keeps (good : F64 → Prop) (h : policy = .block ∨ policy = .keepFirst ∨ policy = .keepLast) :
    Combines good policy := by
  intro old new v hold hnew hv
  have hchoice : v = old ∨ v = new := by
    unfold DuplicatePolicy.duplicateValue at hv
    rcases h with rfl | rfl | rfl <;> grind
  rcases hchoice with rfl | rfl
  · exact hold
  · exact hnew

/-- What stands at a timestamp when items have been settled there one after the other. -/
def DuplicatePolicy.settleAll (policy : DuplicatePolicy) (old : Option Sample) (items : List Sample) : Option Sample :=
  items.foldl (fun old x => some (policy.settle x old)) old

/-- Whichever of the items at a timestamp are settled with the sample there, the value is good. -/
def Settles (good : F64 → Prop) (policy : DuplicatePolicy) (l items : List Sample) : Prop :=
  ∀ t sub, sub <+ items → (∀ x ∈ sub, x.timestamp = t) → ∀ y ∈ policy.settleAll (sampleAt t l) sub, good y.value

theorem Combines.settle (h : Combines good policy) {x : Sample} (hx : good x.value) {old : Option Sample}
    (hold : ∀ y ∈ old, good y.value) : good (policy.settle x old).value := by
  cases old with
  | none => exact hx
  | some y =>
    have hy := hold y rfl
    rw [DuplicatePolicy.settle, DuplicatePolicy.combine]
    cases hv : policy.duplicateValue y.value x.value with
    | error e => exact hy
    | ok v => exact h y.value x.value v hy hx hv

theorem Combines.settles (h : Combines good policy) (hl : ∀ x ∈ l, good x.value) (hitems : ∀ x ∈ items, good x.value) :
    Settles good policy l items := by
  intro t sub hsub htimes
  have hstart : ∀ y ∈ sampleAt t l, good y.value := fun y hy => hl y (mem_of_sampleAt hy)
  replace hitems : ∀ x ∈ sub, good x.value := fun x hx => hitems x (hsub.subset hx)
  clear hsub htimes
  generalize sampleAt t l = old at hstart
  induction sub generalizing old with
  | nil => exact hstart
  | cons x sub ih =>
    refine ih (fun z hz => hitems z (mem_cons_of_mem _ hz)) _ fun y hy => ?_
    rw [← Option.some.inj hy]
    exact h.settle (hitems x mem_cons_self) hstart

/-- The samples of a list come from an older list and from items that were settled there. -/
def Drawn (policy : DuplicatePolicy) (l items l' : List Sample) : Prop :=
  ∀ t, ∃ sub, sub <+ items ∧ (∀ x ∈ sub, x.timestamp = t) ∧ sampleAt t l' = policy.settleAll (sampleAt t l) sub

namespace Drawn

theorem refl (policy : DuplicatePolicy) (l items : List Sample) : Drawn policy l items l :=
  fun _ => ⟨[], nil_sublist _, fun _ hx => absurd hx not_mem_nil, rfl⟩

theorem trans {l'' items' : List Sample} (h : Drawn policy l items l') (h' : Drawn policy l' items' l'') :
    Drawn policy l (items ++ items') l'' := by
  intro t
  obtain ⟨sub, hsub, htimes, heq⟩ := h t
  obtain ⟨sub', hsub', htimes', heq'⟩ := h' t
  refine ⟨sub ++ sub', hsub.append hsub', fun x hx => (mem_append.mp hx).elim (htimes x) (htimes' x), ?_⟩
  rw [heq', heq, DuplicatePolicy.settleAll, DuplicatePolicy.settleAll, DuplicatePolicy.settleAll, foldl_append]

theorem of_sampleAt (h : ∀ t, sampleAt t l' = sampleAt t l ∨ ∃ x ∈ items, x.timestamp = t
    ∧ sampleAt t l' = some (policy.settle x (sampleAt t l))) : Drawn policy l items l' := by
  intro t
  rcases h t with heq | ⟨x, hx, hxt, heq⟩
  · exact ⟨[], nil_sublist _, fun _ hx => absurd hx not_mem_nil, heq⟩
  · exact ⟨[x], singleton_sublist.mpr hx, fun y hy => mem_singleton.mp hy ▸ hxt, heq⟩

theorem times (h : Drawn policy l items l') {y : Sample} (hy : y ∈ l') :
    y.timestamp ∈ l.map (·.timestamp) ∨ y.timestamp ∈ items.map (·.timestamp) := by
  obtain ⟨sub, hsub, htimes, heq⟩ := h y.timestamp
  cases sub with
  | nil =>
    left
    rw [mem_timestamps]
    exact fun hnone => mem_timestamps.mp (mem_map_of_mem hy) (heq.trans hnone)
  | cons x sub =>
    rw [← htimes x mem_cons_self]
    exact .inr (mem_map_of_mem (hsub.subset mem_cons_self))

theorem values (h : Drawn policy l items l') (hl' : Increasing l')
    (hsettles : Settles good policy l items) {y : Sample} (hy : y ∈ l') : good y.value := by
  obtain ⟨sub, hsub, htimes, heq⟩ := h y.timestamp
  exact hsettles _ sub hsub htimes y (heq.symm.trans (hl'.sampleAt_eq_some.mpr ⟨hy, rfl⟩))

theorem settles (h : Drawn policy l items l') (hsettles : Settles good policy l (items ++ more)) :
    Settles good policy l' more := by
  intro t sub' hsub' htimes' y hy
  obtain ⟨sub, hsub, htimes, heq⟩ := h t
  refine hsettles t (sub ++ sub') (hsub.append hsub') (fun x hx => (mem_append.mp hx).elim (htimes x) (htimes' x)) y ?_
  rw [heq] at hy
  rwa [DuplicatePolicy.settleAll, foldl_append]

end Drawn

end Values

namespace TimeSeries

variable [DecimalHelpers]

/-- A source without retention or rounding. -/
structure Unlimited (s : TimeSeries) : Prop where
  wf : s.WF
  retention : s.retention = 0
  rounding : s.rounding = none

variable {s s' : TimeSeries}

theorem Becomes.unlimited {l : List Sample} (hb : Becomes s s' l) (h : s.Unlimited) : s'.Unlimited :=
  ⟨hb.wf, hb.settings.retention.trans h.retention, hb.settings.rounding.trans h.rounding⟩

theorem applyRetention_of_retention (hret : s.retention = 0) : s.applyRetention = s := if_pos hret

structure Took [FloatOps] (policy : DuplicatePolicy) (l l' : List Sample) (x : Sample) : Prop where
  sampleAt_eq : ∀ t, sampleAt t l' = if t = x.timestamp then some (policy.settle x (sampleAt t l)) else sampleAt t l

variable [Env]

theorem Unlimited.makeSample_eq (h : s.Unlimited) (x : Sample) : s.makeSample x.timestamp x.value = x := by
  rw [makeSample, adjustValue, h.rounding]

theorem Unlimited.addDeferringRetention_spec (h : s.Unlimited) {x : Sample} (hx : ValidTs x.timestamp)
    (override : Option DuplicatePolicy) :
    let r := s.addDeferringRetention x.timestamp x.value override
    ((r.1 = .ok x ∧ Took (s.sampleDuplicates.resolvePolicy override) s.samples r.2.samples x)
    ∨ r.1.sample? = none ∧ r.2.samples = s.samples
    ∧ (r.1 = .duplicate → sampleAt x.timestamp s.samples ≠ none))
    ∧ r.2.Unlimited ∧ SameSettings s r.2 := by
  have hadded := h.wf.addDeferringRetention_spec hx x.value override
  rw [h.makeSample_eq] at hadded
  generalize s.addDeferringRetention x.timestamp x.value override = r at hadded
  cases hadded with
  | tooOld hold => exact ⟨.inr ⟨rfl, rfl, fun hdup => by cases hdup⟩, h, .refl s⟩
  | ignored hwin hlast hge hdup => exact ⟨.inr ⟨rfl, rfl, fun hdup => by cases hdup⟩, h, .refl s⟩
  | upserted hwin hnot hr =>
    cases hr with
    | stored hroom hl hs' =>
      refine ⟨.inl ⟨rfl, ⟨fun t => ?_⟩⟩, hs'.unlimited h, hs'.settings⟩
      rw [hs'.samples_eq, upsert_eq_put hl, sampleAt_put h.wf.run.increasing]
    | refused hroom he hs' =>
      exact ⟨.inr ⟨rfl, hs'.samples_eq, fun _ => sampleAt_of_upsert_error h.wf.run.increasing he⟩,
        hs'.unlimited h, hs'.settings⟩
    | overflowed hover hs' =>
      exact ⟨.inr ⟨rfl, hs'.samples_eq, fun hdup => by cases hdup⟩, hs'.unlimited h, hs'.settings⟩

/-! ### What is stored -/

section Lists

variable {policy : DuplicatePolicy} {l l' : List Sample} {x : Sample}

section

omit [DecimalHelpers]

theorem Took.mem (h : Took policy l l' x) : sampleAt x.timestamp l' ≠ none := by
  rw [h.sampleAt_eq, if_pos rfl]
  exact some_ne_none _

theorem Took.kept (h : Took policy l l' x) {t : Int} (ht : sampleAt t l ≠ none) : sampleAt t l' ≠ none := by
  rw [h.sampleAt_eq]
  split
  · exact some_ne_none _
  · exact ht

theorem Took.append (h : Took policy l l' x) (hl : Increasing l) (hl' : Increasing l')
    (hlt : ∀ y ∈ l, y.timestamp < x.timestamp) : l' = l ++ [x] := by
  have happ : Increasing (l ++ [x]) :=
    pairwise_append.mpr ⟨hl, pairwise_singleton .., fun y hy z hz => mem_singleton.mp hz ▸ hlt y hy⟩
  refine hl'.ext_sampleAt happ fun t => ?_
  rw [h.sampleAt_eq, sampleAt_append, sampleAt_singleton]
  split
  · rename_i ht
    have hnone : sampleAt t l = none := sampleAt_eq_none.mpr fun y hy => ht ▸ (hlt y hy).ne
    rw [if_pos ht.symm, hnone]
    rfl
  · rename_i ht
    rw [if_neg (Ne.symm ht), or_none]

end

end Lists

section

omit [DecimalHelpers]

theorem Took.drawn {policy : DuplicatePolicy} {l l' : List Sample} {x : Sample} (h : Took policy l l' x) :
    Drawn policy l [x] l' := by
  refine .of_sampleAt fun t => ?_
  rw [h.sampleAt_eq]
  split
  · rename_i ht
    exact .inr ⟨x, mem_singleton.mpr rfl, ht.symm, rfl⟩
  · exact .inl rfl

end

/-! ### One by one -/

def okTimes (items : List (Sample × SampleAddResult)) : List Int :=
  (items.filter fun item => item.2.isOk).map fun item => item.1.timestamp

structure AddedEach (s : TimeSeries) (samples : List Sample) (items : List (Sample × SampleAddResult))
    (s' : TimeSeries) : Prop where
  unlimited : s'.Unlimited
  settings : SameSettings s s'
  changed : ∀ t, t ∉ okTimes items → sampleAt t s'.samples = sampleAt t s.samples
  stored : ∀ t ∈ okTimes items, sampleAt t s'.samples ≠ none
  kept : ∀ t, sampleAt t s.samples ≠ none → sampleAt t s'.samples ≠ none
  refused : ∀ item ∈ items, item.2 = .duplicate → sampleAt item.1.timestamp s'.samples ≠ none
  drawn : Drawn (s.sampleDuplicates.resolvePolicy none) s.samples samples s'.samples

variable {samples : List Sample}

theorem Unlimited.addEach_spec (h : s.Unlimited) (hvalid : ValidTimes samples) :
    AddedEach s samples (s.addEach samples).1 (s.addEach samples).2 := by
  induction samples generalizing s with
  | nil =>
    exact ⟨h, .refl s, fun _ _ => rfl, fun t ht => absurd ht not_mem_nil, fun _ => id,
      fun item hitem => absurd hitem not_mem_nil, Drawn.refl _ _ _⟩
  | cons x xs ih =>
    have hx := hvalid x mem_cons_self
    obtain ⟨hone, h₁, hset₁⟩ := h.addDeferringRetention_spec hx none
    rw [addEach]
    generalize s.addDeferringRetention x.timestamp x.value none = r at hone h₁ hset₁ ⊢
    obtain ⟨res, s₁⟩ := r
    dsimp only at hone h₁ hset₁ ⊢
    have hrest := ih h₁ fun y hy => hvalid y (mem_cons_of_mem _ hy)
    generalize s₁.addEach xs = rest at hrest ⊢
    obtain ⟨items, s₂⟩ := rest
    have hkept (t : Int) (ht : sampleAt t s.samples ≠ none) : sampleAt t s₁.samples ≠ none := by
      rcases hone with ⟨-, htook⟩ | ⟨-, heq, -⟩
      · exact htook.kept ht
      · rwa [heq]
    have hdrawn : Drawn (s.sampleDuplicates.resolvePolicy none) s.samples [x] s₁.samples := by
      rcases hone with ⟨-, htook⟩ | ⟨-, heq, -⟩
      · exact htook.drawn
      · rw [heq]
        exact Drawn.refl _ _ _
    have hdrawnRest := hrest.drawn
    rw [hset₁.sampleDuplicates] at hdrawnRest
    refine ⟨hrest.unlimited, hset₁.trans hrest.settings, fun t ht => ?_, fun t ht => ?_,
      fun t ht => hrest.kept t (hkept t ht), fun item hitem hdup => ?_, hdrawn.trans hdrawnRest⟩
    · rcases hone with ⟨rfl, htook⟩ | ⟨hres, heq, -⟩
      · rw [okTimes, filter_cons_of_pos rfl, map_cons, mem_cons, not_or] at ht
        rw [hrest.changed t ht.2, htook.sampleAt_eq, if_neg ht.1]
      · have hnot : res.isOk = false := by cases res <;> first | rfl | cases hres
        rw [okTimes, filter_cons_of_neg (by simp [hnot])] at ht
        rw [hrest.changed t ht, heq]
    · rcases hone with ⟨rfl, htook⟩ | ⟨hres, -, -⟩
      · rw [okTimes, filter_cons_of_pos rfl, map_cons, mem_cons] at ht
        rcases ht with rfl | ht
        · exact hrest.kept _ htook.mem
        · exact hrest.stored t ht
      · have hnot : res.isOk = false := by cases res <;> first | rfl | cases hres
        rw [okTimes, filter_cons_of_neg (by simp [hnot])] at ht
        exact hrest.stored t ht
    · rcases mem_cons.mp hitem with rfl | hitem
      · rcases hone with ⟨rfl, -⟩ | ⟨-, -, hthere⟩
        · cases hdup
        · exact hrest.kept _ (hkept _ (hthere hdup))
      · exact hrest.refused item hitem hdup

/-! ### A batch -/

open CompactionContext (BatchOf)

structure BatchLeft (s : TimeSeries) (samples : List Sample) (group : PerSeriesSamples) : Prop where
  unlimited : group.series.Unlimited
  settings : SameSettings s group.series
  batch : BatchOf s.samples group.series.samples group.added group.prevLast group.addedOrder
  drawn : Drawn (s.sampleDuplicates.resolvePolicy none) s.samples samples group.series.samples

theorem Unlimited.addGroupSequentially_spec (h : s.Unlimited) (hvalid : ValidTimes samples) :
    BatchLeft s samples (s.addGroupSequentially samples).2 := by
  have heach := h.addEach_spec hvalid
  rw [addGroupSequentially]
  generalize s.addEach samples = r at heach ⊢
  obtain ⟨items, s'⟩ := r
  have hrun := heach.unlimited.wf.run.increasing
  simp only [heach.unlimited.wf.getSample_eq]
  -- the samples handed over are those stored at the timestamps that were written
  have hmem (x : Sample) : x ∈ (sortDedup (okTimes items)).filterMap (fun t => sampleAt t s'.samples)
      ↔ x ∈ s'.samples ∧ x.timestamp ∈ okTimes items := by
    rw [mem_filterMap]
    constructor
    · rintro ⟨t, ht, hat⟩
      obtain ⟨hx, rfl⟩ := hrun.sampleAt_eq_some.mp hat
      exact ⟨hx, mem_sortDedup.mp ht⟩
    · rintro ⟨hx, ht⟩
      exact ⟨x.timestamp, mem_sortDedup.mpr ht, hrun.sampleAt_eq_some.mpr ⟨hx, rfl⟩⟩
  have htimes (t : Int) (ht : t ∈ okTimes items) :
      t ∈ ((sortDedup (okTimes items)).filterMap fun t => sampleAt t s'.samples).map (·.timestamp) := by
    obtain ⟨x, hx⟩ := ne_none_iff_exists'.mp (heach.stored t ht)
    obtain ⟨hxs, rfl⟩ := hrun.sampleAt_eq_some.mp hx
    exact mem_map_of_mem ((hmem x).mpr ⟨hxs, ht⟩)
  refine ⟨heach.unlimited, heach.settings, ⟨by rw [h.wf.last], ?_, fun x hx => ?_, fun x hx _ => ?_, fun t ht => ?_,
    fun x hx => ?_, fun x hx => ?_, fun t ht hgt => ?_⟩, heach.drawn⟩
  · -- in ascending order
    refine List.Pairwise.filterMap _ (fun t t' hlt x hx y hy => ?_) (pairwise_sortDedup _)
    rw [timestamp_of_sampleAt hx, timestamp_of_sampleAt hy]
    exact hlt
  · exact mem_map_of_mem ((hmem x).mp hx).1
  · exact ((hmem x).mp hx).1
  · exact heach.changed t fun hok => ht (htimes t hok)
  · rw [mem_timestamps]
    exact heach.kept _ (mem_timestamps.mp (mem_map_of_mem hx))
  · obtain ⟨item, hitem, heq⟩ := mem_map.mp ((hmem x).mp hx).2
    obtain ⟨hitem, hok⟩ := mem_filter.mp hitem
    refine mem_map.mpr ⟨item, mem_filter.mpr ⟨hitem, ?_⟩, heq⟩
    rw [hok, Bool.true_or]
  · obtain ⟨item, hitem, rfl⟩ := mem_map.mp ht
    obtain ⟨hitem, hres⟩ := mem_filter.mp hitem
    refine htimes _ ?_
    cases hok : item.2.isOk with
    | true => exact mem_map_of_mem (mem_filter.mpr ⟨hitem, hok⟩)
    | false =>
      -- a refused item meets a sample, which after the newest old one is a sample of the batch
      rw [hok, Bool.false_or, decide_eq_true_eq] at hres
      by_contra hnot
      have hthere := heach.refused item hitem hres
      rw [heach.changed _ hnot, ← mem_timestamps] at hthere
      obtain ⟨y, hy, hyt⟩ := mem_map.mp hthere
      obtain ⟨last, hlast⟩ := ne_none_iff_exists'.mp fun hnone =>
        ne_nil_of_mem hy (getLast?_eq_none_iff.mp hnone)
      have hle := (h.wf.run.increasing.getLast?_eq_some.mp hlast).2 y hy
      have := hgt last.timestamp (by rw [h.wf.last, hlast]; rfl)
      omega

omit [DecimalHelpers] [Env] in
theorem exists_of_forall₂ {α β : Type} {R : α → β → Prop} {as : List α} {bs : List β} (h : List.Forall₂ R as bs) :
    (∀ a ∈ as, ∃ b ∈ bs, R a b) ∧ ∀ b ∈ bs, ∃ a ∈ as, R a b := by
  induction h with
  | nil => exact ⟨by simp, by simp⟩
  | cons hab _ ih =>
    refine ⟨fun a ha => ?_, fun b hb => ?_⟩
    · rcases mem_cons.mp ha with rfl | ha
      · exact ⟨_, mem_cons_self, hab⟩
      · obtain ⟨b, hb, hr⟩ := ih.1 a ha
        exact ⟨b, mem_cons_of_mem _ hb, hr⟩
    · rcases mem_cons.mp hb with rfl | hb
      · exact ⟨_, mem_cons_self, hab⟩
      · obtain ⟨a, ha, hr⟩ := ih.2 b hb
        exact ⟨a, mem_cons_of_mem _ ha, hr⟩

omit [DecimalHelpers] [Env] in
theorem sublist_timestamps {R : Sample → SampleAddResult → Prop} {xs : List Sample} {results : List SampleAddResult}
    (h : List.Forall₂ R xs results) (htime : ∀ x r y, R x r → r.sample? = some y → y.timestamp = x.timestamp) :
    ((results.filterMap (·.sample?)).map (·.timestamp)).Sublist (xs.map (·.timestamp)) := by
  induction h with
  | nil => exact .slnil
  | cons hxr _ ih =>
    rename_i x r xs results _
    cases hr : r.sample? with
    | none =>
      rw [filterMap_cons_none hr]
      exact ih.cons _
    | some y =>
      rw [filterMap_cons_some hr, map_cons, map_cons, htime x r y hxr hr]
      exact ih.cons_cons _

theorem Unlimited.answered_ok (h : s.Unlimited) {x y : Sample} {r : SampleAddResult}
    (hr : Answered s samples none x r) (hy : r.sample? = some y) :
    x ∈ (s.normalizeBatch samples none).toInsert ∧ y.timestamp = x.timestamp
    ∧ (sampleAt x.timestamp s.samples = none → y = x) := by
  cases hr with
  | keptOut hv hout =>
    rename_i v
    cases v <;> cases hv <;> cases hy
  | merged hin hans =>
    rw [h.makeSample_eq] at hin hans
    have htime : ((s.sampleDuplicates.resolvePolicy none).settle x (sampleAt x.timestamp s.samples)).timestamp =
        x.timestamp :=
      settle_timestamp fun z hz => timestamp_of_sampleAt hz
    refine ⟨hin, ?_⟩
    rcases hans with rfl | ⟨-, -, rfl⟩
    · rcases outcome_settle (s.sampleDuplicates.resolvePolicy none) s.samples x with hout | ⟨hout, -⟩
      · rw [hout] at hy
        obtain rfl := Option.some.inj hy
        refine ⟨htime, fun hnone => ?_⟩
        rw [hnone]
        rfl
      · rw [hout] at hy
        cases hy
    · obtain rfl := Option.some.inj hy
      exact ⟨rfl, fun _ => rfl⟩

theorem Unlimited.answered_of_mem (h : s.Unlimited) {x : Sample} {r : SampleAddResult}
    (hr : Answered s samples none x r) (hx : x ∈ (s.normalizeBatch samples none).toInsert) :
    (∃ y, r.sample? = some y) ∨ sampleAt x.timestamp s.samples
    = some ((s.sampleDuplicates.resolvePolicy none).settle x (sampleAt x.timestamp s.samples)) := by
  cases hr with
  | keptOut hv hout => exact absurd (mem_map_of_mem hx) hout
  | merged hin hans =>
    rw [h.makeSample_eq] at hans
    rcases hans with rfl | ⟨-, -, rfl⟩
    · rcases outcome_settle (s.sampleDuplicates.resolvePolicy none) s.samples x with hout | ⟨-, hold⟩
      · exact .inl ⟨_, by rw [hout]; rfl⟩
      · exact .inr hold
    · exact .inl ⟨x, rfl⟩

theorem Unlimited.merged_spec (h : s.Unlimited) (hvalid : ValidTimes samples)
    (hnodup : (samples.map (·.timestamp)).Nodup) {results : List SampleAddResult}
    (hspec : MergeSpec s samples none results s') :
    BatchLeft s samples ⟨s', (results.filterMap (·.sample?)).insertionSort fun a b => a.timestamp ≤ b.timestamp,
    (results.filterMap (·.sample?)).map (·.timestamp), s.lastSample.map (·.timestamp)⟩ := by
  have hans := hspec.answered hnodup
  have hperm := perm_insertionSort (fun a b : Sample => a.timestamp ≤ b.timestamp) (results.filterMap (·.sample?))
  have hinsert := (normalizeBatch_run (s := s) none hvalid).increasing
  have hsub (x : Sample) (hx : x ∈ (s.normalizeBatch samples none).toInsert) : x ∈ samples := by
    obtain ⟨z, hz, rfl⟩ := normalizeBatch_adjusted hx
    rwa [h.makeSample_eq]
  -- what is handed over are the samples that went into the list and were not refused
  have hfrom (y : Sample) (hy : y ∈ results.filterMap (·.sample?)) :
      ∃ x ∈ (s.normalizeBatch samples none).toInsert, y.timestamp = x.timestamp
        ∧ (sampleAt x.timestamp s.samples = none → y = x) := by
    obtain ⟨r, hr, hry⟩ := mem_filterMap.mp hy
    obtain ⟨x, -, hx⟩ := (exists_of_forall₂ hans).2 r hr
    exact ⟨x, h.answered_ok hx hry⟩
  have hthere (x : Sample) (hx : x ∈ (s.normalizeBatch samples none).toInsert)
      (hnot : x.timestamp ∉ (results.filterMap (·.sample?)).map (·.timestamp)) :
      sampleAt x.timestamp s.samples
        = some ((s.sampleDuplicates.resolvePolicy none).settle x (sampleAt x.timestamp s.samples)) := by
    obtain ⟨r, hr, hxr⟩ := (exists_of_forall₂ hans).1 x (hsub x hx)
    refine (h.answered_of_mem hxr hx).resolve_left ?_
    rintro ⟨y, hy⟩
    refine hnot (mem_map.mpr ⟨y, mem_filterMap.mpr ⟨r, hr, hy⟩, ?_⟩)
    exact (h.answered_ok hxr hy).2.1
  have hdist : ((results.filterMap (·.sample?)).map (·.timestamp)).Nodup :=
    (sublist_timestamps hans fun x r y hxr hy => (h.answered_ok hxr hy).2.1).nodup hnodup
  have hl := h.wf.run.increasing
  have hl' := hspec.becomes.wf.run.increasing
  have hin (x : Sample) (hx : x ∈ (s.normalizeBatch samples none).toInsert) :
      sampleAt x.timestamp s'.samples
        = some ((s.sampleDuplicates.resolvePolicy none).settle x (sampleAt x.timestamp s.samples)) := by
    rw [hspec.becomes.samples_eq]
    exact sampleAt_putAll_of_mem hl hinsert.nodup hx
  have hout (t : Int) (ht : t ∉ (s.normalizeBatch samples none).toInsert.map (·.timestamp)) :
      sampleAt t s'.samples = sampleAt t s.samples := by
    rw [hspec.becomes.samples_eq]
    exact sampleAt_putAll_of_not_mem hl hinsert.nodup ht
  refine ⟨hspec.becomes.unlimited h, hspec.becomes.settings, ⟨by rw [h.wf.last], ?_, fun y hy => ?_, fun y hy hgt => ?_,
    fun t ht => ?_, fun y hy => ?_, fun y hy => ?_, fun t ht _ => ?_⟩, ?_⟩
  · exact increasing_of_nodup (pairwise_insertionSort ..) ((hperm.map _).nodup_iff.mpr hdist)
  · obtain ⟨x, hx, hxt, -⟩ := hfrom y (hperm.mem_iff.mp hy)
    rw [mem_timestamps, hxt, hin x hx]
    exact some_ne_none _
  · obtain ⟨x, hx, hxt, hnew⟩ := hfrom y (hperm.mem_iff.mp hy)
    -- no stored sample has a timestamp after the newest one
    have hnone : sampleAt x.timestamp s.samples = none := by
      refine sampleAt_eq_none.mpr fun z hz hzt => ?_
      obtain ⟨last, hlast⟩ := ne_none_iff_exists'.mp fun hnone =>
        ne_nil_of_mem hz (getLast?_eq_none_iff.mp hnone)
      have hle := (hl.getLast?_eq_some.mp hlast).2 z hz
      have := hgt last.timestamp (by rw [h.wf.last, hlast]; rfl)
      omega
    have hat := hin x hx
    rw [hnone] at hat
    rw [hnew hnone]
    exact mem_of_sampleAt hat
  · have ht' : t ∉ (results.filterMap (·.sample?)).map (·.timestamp) := fun hmem => ht ((hperm.map _).mem_iff.mpr hmem)
    by_cases hmem : t ∈ (s.normalizeBatch samples none).toInsert.map (·.timestamp)
    · obtain ⟨x, hx, rfl⟩ := mem_map.mp hmem
      exact (hin x hx).trans (hthere x hx ht').symm
    · exact hout t hmem
  · rw [mem_timestamps]
    by_cases hmem : y.timestamp ∈ (s.normalizeBatch samples none).toInsert.map (·.timestamp)
    · obtain ⟨x, hx, hxt⟩ := mem_map.mp hmem
      rw [← hxt, hin x hx]
      exact some_ne_none _
    · rw [hout _ hmem]
      exact mem_timestamps.mp (mem_map_of_mem hy)
  · exact mem_map_of_mem (hperm.mem_iff.mp hy)
  · exact (hperm.map _).mem_iff.mpr ht
  · refine .of_sampleAt fun t => ?_
    by_cases hmem : t ∈ (s.normalizeBatch samples none).toInsert.map (·.timestamp)
    · obtain ⟨x, hx, rfl⟩ := mem_map.mp hmem
      exact .inr ⟨x, hsub x hx, rfl, hin x hx⟩
    · exact .inl (hout t hmem)

/-- **The merge of a batch** into a source without retention. -/
theorem Unlimited.addSamplesInternal_spec (h : s.Unlimited) (hvalid : ValidTimes samples) :
    BatchLeft s samples (s.addSamplesInternal samples).2 := by
  unfold addSamplesInternal
  split
  · rename_i x
    obtain ⟨hone, h₁, hset₁⟩ := h.addDeferringRetention_spec (hvalid x mem_cons_self) none
    generalize s.addDeferringRetention x.timestamp x.value none = r at hone h₁ hset₁ ⊢
    obtain ⟨res, s'⟩ := r
    dsimp only at hone h₁ hset₁ ⊢
    have hl := h.wf.run.increasing
    rcases hone with ⟨rfl, htook⟩ | ⟨hres, heq, -⟩
    · refine ⟨h₁, hset₁, ⟨by rw [h.wf.last], pairwise_singleton .., fun y hy => ?_, fun y hy hgt => ?_,
        fun t ht => ?_, fun y hy => ?_, fun y hy => ?_, fun t ht _ => ht⟩, htook.drawn⟩
      · rw [mem_singleton.mp hy, mem_timestamps]
        exact htook.mem
      · rw [mem_singleton.mp hy] at hgt ⊢
        rw [htook.append hl h₁.wf.run.increasing fun z hz => ?_]
        · exact mem_append_right _ mem_cons_self
        · obtain ⟨last, hlast⟩ := ne_none_iff_exists'.mp fun hnone =>
            ne_nil_of_mem hz (getLast?_eq_none_iff.mp hnone)
          have hle := (hl.getLast?_eq_some.mp hlast).2 z hz
          have := hgt last.timestamp (by rw [h.wf.last, hlast]; rfl)
          omega
      · rw [htook.sampleAt_eq, if_neg fun heq : t = x.timestamp => ht (mem_singleton.mpr heq)]
      · rw [mem_timestamps]
        exact htook.kept (mem_timestamps.mp (mem_map_of_mem hy))
      · exact mem_map_of_mem hy
    · rw [hres]
      refine ⟨h₁, hset₁, ⟨by rw [h.wf.last], .nil, fun y hy => absurd hy not_mem_nil,
        fun y hy => absurd hy not_mem_nil, fun t _ => by rw [heq], fun y hy => by
          rw [heq]
          exact mem_map_of_mem hy, fun y hy => absurd hy not_mem_nil, fun t ht _ => ht⟩, ?_⟩
      rw [heq]
      exact Drawn.refl _ _ _
  · split
    · exact h.addGroupSequentially_spec hvalid
    · rename_i hdup
      obtain ⟨results, s', hs', hspec⟩ := h.wf.mergeSamplesDeferringRetention_spec hvalid none
      rw [hs']
      exact h.merged_spec hvalid (nodup_of_not_hasInBatchDuplicate (by simpa using hdup)) hspec

end TimeSeries

end ValkeyTimeSeries
