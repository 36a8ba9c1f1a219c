/-
Compaction/Handover.lean

The timestamps a batch hands over, item by item.

Design.  Each of the three ways of a batch puts its items one after the other, as far as its result shows, and
hands over those that were not ignored or refused (`Handed`).  Where the source is roomy and ignores nothing
but repeats of the newest sample (`Exact`), every item is put.
-/
import ValkeyTimeSeries.Compaction.Batches
import ValkeyTimeSeries.Compaction.Marker

namespace ValkeyTimeSeries

open List

section Put

variable [FloatOps] {policy : DuplicatePolicy} {l : List Sample} {x : Sample}

theorem put_eq_self (h : Increasing l)
    (hat : sampleAt x.timestamp l = some (policy.settle x (sampleAt x.timestamp l))) : policy.put x l = l := by
  refine (increasing_put h x).ext_sampleAt h fun t => ?_
  rw [sampleAt_put h]
  split
  · rename_i ht
    rw [ht, ← hat]
  · rfl

theorem put_of_upsert_error {e : TsdbError} (he : policy.upsert x l = .error e) : policy.put x l = l := by
  rw [DuplicatePolicy.upsert] at he
  rw [DuplicatePolicy.put, SortedList.putWith, he]

theorem put_eq_self_of_mem (h : Increasing l) (hx : x ∈ l) (hnan : x.value.isNaN = false) :
    DuplicatePolicy.keepLast.put x l = l := by
  have hat : sampleAt x.timestamp l = some x := h.sampleAt_eq_some.mpr ⟨hx, rfl⟩
  refine put_eq_self h ?_
  rw [hat, DuplicatePolicy.settle, DuplicatePolicy.combine, duplicateValue_keepLast hnan]
  rfl

end Put

namespace TimeSeries

variable [DecimalHelpers] {s s' : TimeSeries}

/-- A roomy source that ignores nothing but repeats of its newest sample, and good samples for it. -/
structure Exact [Env] (good : F64 → Prop) (s : TimeSeries) (samples : List Sample) : Prop where
  plain : s.Plain
  stored : ∀ x ∈ s.samples, good x.value
  items : ∀ x ∈ samples, good x.value
  faithful : Faithful good
  settles : Settles good (s.sampleDuplicates.resolvePolicy none) s.samples samples

variable [Env] [LawfulFloatOps] {good : F64 → Prop} {samples : List Sample} {x : Sample}

omit [LawfulFloatOps] in
theorem Exact.unlimited (h : s.Exact good samples) : s.Unlimited := ⟨h.plain.wf, h.plain.retention, h.plain.rounding⟩

theorem Exact.ignored (h : s.Exact good samples) (hx : good x.value) {last : Sample} (hlast : s.lastSample = some last)
    {override : Option DuplicatePolicy} (hdup : s.sampleDuplicates.isDuplicate x last override = true) :
    x.timestamp ∈ s.samples.map (·.timestamp)
    ∧ (s.sampleDuplicates.resolvePolicy override).put x s.samples = s.samples := by
  have hmem := mem_of_getLast? (h.plain.wf.last ▸ hlast)
  obtain ⟨rfl, hpolicy, hnan⟩ := h.plain.eq_of_isDuplicate h.faithful (h.stored last hmem) hx hdup
  refine ⟨mem_map_of_mem hmem, ?_⟩
  rw [hpolicy]
  exact put_eq_self_of_mem h.plain.wf.run.increasing hmem hnan

/-! ### One sample -/

theorem Unlimited.addDeferringRetention_put (h : s.Unlimited) (hx : ValidTs x.timestamp) {loose : Prop}
    (hexact : loose ∨ s.Exact good (x :: samples)) :
    let r := s.addDeferringRetention x.timestamp x.value none
    r.2.samples = (s.sampleDuplicates.resolvePolicy none).put x s.samples
    ∧ (r.1.isOk = false → r.1 ≠ .duplicate → x.timestamp ∈ s.samples.map (·.timestamp))
    ∨ loose ∧ r.2.samples = s.samples ∧ r.1.isOk = false ∧ r.1 ≠ .duplicate := by
  have hadded := h.wf.addDeferringRetention_spec hx x.value none
  rw [h.makeSample_eq] at hadded
  generalize s.addDeferringRetention x.timestamp x.value none = r at hadded
  cases hadded with
  | tooOld hold =>
    rw [isOlderThanRetention, if_pos h.retention] at hold
    cases hold
  | ignored hwin hlast hge hdup =>
    rcases hexact with hloose | hexact
    · exact .inr ⟨hloose, rfl, rfl, by simp⟩
    · obtain ⟨hmem, hput⟩ := hexact.ignored (hexact.items x mem_cons_self) hlast hdup
      exact .inl ⟨hput.symm, fun _ _ => hmem⟩
  | upserted hwin hnot hr =>
    cases hr with
    | stored hroom hl hs' => exact .inl ⟨hs'.samples_eq.trans (upsert_eq_put hl), fun hok => by cases hok⟩
    | refused hroom he hs' =>
      exact .inl ⟨hs'.samples_eq.trans (put_of_upsert_error he).symm, fun _ hne => absurd rfl hne⟩
    | overflowed hover hs' =>
      rcases hexact with hloose | hexact
      · exact .inr ⟨hloose, hs'.samples_eq, rfl, by simp⟩
      · exact absurd hover (hexact.plain.roomy.not_overflows h.wf x.timestamp)

omit [LawfulFloatOps] in
theorem Exact.addDeferringRetention (h : s.Exact good (x :: samples)) (hx : ValidTs x.timestamp) :
    (s.addDeferringRetention x.timestamp x.value none).2.Exact good samples := by
  obtain ⟨hone, h₁, hset₁⟩ := h.unlimited.addDeferringRetention_spec hx none
  have hroomy := h.plain.wf.addDeferringRetention_roomy h.plain.roomy hx x.value none
  have hdrawn : Drawn (s.sampleDuplicates.resolvePolicy none) s.samples [x]
      (s.addDeferringRetention x.timestamp x.value none).2.samples := by
    rcases hone with ⟨-, htook⟩ | ⟨-, heq, -⟩
    · exact htook.drawn
    · rw [heq]
      exact Drawn.refl _ _ _
  have hone : Settles good (s.sampleDuplicates.resolvePolicy none) s.samples [x] := fun t sub hsub =>
    h.settles t sub (hsub.trans (singleton_sublist.mpr mem_cons_self))
  refine ⟨h.plain.of_settings h₁.wf hroomy hset₁, fun y hy => hdrawn.values h₁.wf.run.increasing hone hy,
    fun y hy => h.items y (mem_cons_of_mem _ hy), h.faithful, ?_⟩
  rw [hset₁.sampleDuplicates]
  exact hdrawn.settles h.settles

/-! ### One by one -/

theorem Unlimited.addEach_handed (h : s.Unlimited) (hvalid : ValidTimes samples) {loose : Prop}
    (hexact : loose ∨ s.Exact good samples) : Handed loose (s.sampleDuplicates.resolvePolicy none) s.samples samples
      (((s.addEach samples).1.filter fun item => item.2.isOk || decide (item.2 = .duplicate)).map fun item =>
    item.1.timestamp)
      (s.addEach samples).2.samples := by
  induction samples generalizing s with
  | nil => exact .nil _
  | cons x xs ih =>
    have hx := hvalid x mem_cons_self
    have hone := h.addDeferringRetention_put hx hexact
    obtain ⟨-, h₁, hset₁⟩ := h.addDeferringRetention_spec hx none
    have hexact₁ : loose ∨ (s.addDeferringRetention x.timestamp x.value none).2.Exact good xs :=
      hexact.imp_right fun hexact => hexact.addDeferringRetention hx
    rw [addEach]
    generalize s.addDeferringRetention x.timestamp x.value none = r at hone h₁ hset₁ hexact₁ ⊢
    obtain ⟨res, s₁⟩ := r
    dsimp only at hone h₁ hset₁ hexact₁ ⊢
    have hrest := ih h₁ (fun y hy => hvalid y (mem_cons_of_mem _ hy)) hexact₁
    rw [hset₁.sampleDuplicates] at hrest
    generalize s₁.addEach xs = rest at hrest ⊢
    obtain ⟨items, s₂⟩ := rest
    rcases hone with ⟨hput, hmet⟩ | ⟨hloose, heq, hok, hdup⟩
    · rw [hput] at hrest
      by_cases hover : (res.isOk || decide (res = .duplicate)) = true
      · rw [filter_cons, if_pos hover]
        exact .kept x hrest
      · rw [filter_cons, if_neg hover]
        rw [Bool.or_eq_true, not_or, Bool.not_eq_true, decide_eq_true_eq] at hover
        exact .met x (hmet hover.1 hover.2) hrest
    · rw [heq] at hrest
      rw [filter_cons_of_neg (by simp [hok, hdup])]
      exact .turnedAway x hloose hrest

/-! ### Merged -/

omit [DecimalHelpers] [LawfulFloatOps] in
theorem handed_of_answers (loose : Prop) (policy : DuplicatePolicy) (stored : List Sample) (inserted : Sample → Bool)
    {R : Sample → SampleAddResult → Prop} {xs : List Sample} {results : List SampleAddResult}
    (h : List.Forall₂ R xs results) (hnodup : (xs.map (·.timestamp)).Nodup) {l : List Sample} (hl : Increasing l)
    (hat : ∀ x ∈ xs, sampleAt x.timestamp l = sampleAt x.timestamp stored)
    (hover : ∀ x ∈ xs, ∀ r, R x r → ∀ y, r.sample? = some y → y.timestamp = x.timestamp ∧ inserted x = true)
    (hnot : ∀ x ∈ xs, ∀ r, R x r → r.sample? = none → inserted x = true → sampleAt x.timestamp stored ≠ none)
    (hout : ∀ x ∈ xs, inserted x = false →
    loose ∨ sampleAt x.timestamp stored = some (policy.settle x (sampleAt x.timestamp stored))) :
    Handed loose policy l xs ((results.filterMap (·.sample?)).map (·.timestamp))
    (policy.putAll (xs.filter inserted) l) := by
  induction h generalizing l with
  | nil => exact .nil l
  | cons hxr _ ih =>
    rename_i x r xs results _
    obtain ⟨hnew, hnodup⟩ := nodup_cons.mp hnodup
    have hx := hat x mem_cons_self
    -- the other items do not see this one
    have hrest := ih hnodup (l := policy.put x l) (increasing_put hl x)
      (fun y hy => by
        rw [sampleAt_put hl, if_neg fun heq => hnew (mem_map.mpr ⟨y, hy, heq⟩)]
        exact hat y (mem_cons_of_mem _ hy))
      (fun y hy => hover y (mem_cons_of_mem _ hy)) (fun y hy => hnot y (mem_cons_of_mem _ hy))
      fun y hy => hout y (mem_cons_of_mem _ hy)
    cases hr : r.sample? with
    | some y =>
      obtain ⟨hyt, hin⟩ := hover x mem_cons_self r hxr y hr
      rw [filterMap_cons_some hr, map_cons, hyt, filter_cons_of_pos hin]
      exact .kept x hrest
    | none =>
      rw [filterMap_cons_none hr]
      cases hin : inserted x with
      | true =>
        rw [filter_cons_of_pos hin]
        refine .met x (mem_timestamps.mpr ?_) hrest
        rw [hx]
        exact hnot x mem_cons_self r hxr hr hin
      | false =>
        rw [filter_cons_of_neg (by simp [hin])]
        rcases hout x mem_cons_self hin with hloose | hsettle
        · refine .turnedAway x hloose (ih hnodup hl (fun y hy => hat y (mem_cons_of_mem _ hy))
            (fun y hy => hover y (mem_cons_of_mem _ hy)) (fun y hy => hnot y (mem_cons_of_mem _ hy))
            fun y hy => hout y (mem_cons_of_mem _ hy))
        · rw [← hx] at hsettle
          refine .met x (mem_timestamps.mpr (hsettle ▸ Option.some_ne_none _)) ?_
          have hself : policy.put x l = l := put_eq_self hl hsettle
          rw [hself] at hrest ⊢
          exact hrest

theorem Unlimited.merged_handed (h : s.Unlimited) (hvalid : ValidTimes samples)
    (hnodup : (samples.map (·.timestamp)).Nodup) {results : List SampleAddResult}
    (hspec : MergeSpec s samples none results s') {loose : Prop} (hexact : loose ∨ s.Exact good samples) :
    Handed loose (s.sampleDuplicates.resolvePolicy none) s.samples samples
    ((results.filterMap (·.sample?)).map (·.timestamp)) s'.samples := by
  have hl := h.wf.run.increasing
  have hinsert := (normalizeBatch_run (s := s) none hvalid).increasing
  have hhanded := handed_of_answers loose (s.sampleDuplicates.resolvePolicy none) s.samples
    (fun x => decide (x ∈ (s.normalizeBatch samples none).toInsert)) (hspec.answered hnodup) hnodup hl (fun _ _ => rfl)
    (fun x _ r hr y hy => by
      obtain ⟨hin, hyt, -⟩ := h.answered_ok hr hy
      exact ⟨hyt, decide_eq_true hin⟩)
    (fun x _ r hr hnone hin => by
      rcases h.answered_of_mem hr (of_decide_eq_true hin) with ⟨y, hy⟩ | hat
      · rw [hnone] at hy
        cases hy
      · rw [hat]
        exact Option.some_ne_none _)
    (fun x hx hout => by
      refine hexact.imp_right fun hexact => ?_
      rcases normalizeBatch_inserts none hexact.plain.timeDelta h.retention hnodup hx with hin | ⟨last, hlast, -, hdup⟩
      · rw [h.makeSample_eq] at hin
        exact absurd hin (of_decide_eq_false hout)
      · rw [h.makeSample_eq] at hdup
        have hself := (hexact.ignored (hexact.items x hx) hlast hdup).2
        have hat := congrArg (sampleAt x.timestamp) hself
        rw [sampleAt_put hl, if_pos rfl] at hat
        exact hat.symm)
  -- the items that were inserted, in the order of the batch
  have hperm : (samples.filter fun x => decide (x ∈ (s.normalizeBatch samples none).toInsert)).Perm
      (s.normalizeBatch samples none).toInsert := by
    refine (perm_ext_iff_of_nodup (hnodup.of_map.filter _) hinsert.nodup.of_map).mpr fun x => ?_
    rw [mem_filter, decide_eq_true_eq]
    refine ⟨fun hx => hx.2, fun hx => ⟨?_, hx⟩⟩
    obtain ⟨y, hy, rfl⟩ := normalizeBatch_adjusted hx
    rwa [h.makeSample_eq]
  rw [putAll_perm hl hperm (hnodup.sublist (filter_sublist.map _)), ← hspec.becomes.samples_eq] at hhanded
  exact hhanded

/-- **What a batch hands over.** -/
theorem Unlimited.addSamplesInternal_handed (h : s.Unlimited) (hvalid : ValidTimes samples) {loose : Prop}
    (hexact : loose ∨ s.Exact good samples) :
    Handed loose (s.sampleDuplicates.resolvePolicy none) s.samples samples (s.addSamplesInternal samples).2.addedOrder
    (s.addSamplesInternal samples).2.series.samples := by
  unfold addSamplesInternal
  split
  · rename_i x
    have hx := hvalid x mem_cons_self
    have hput := h.addDeferringRetention_put hx hexact
    obtain ⟨hone, -, -⟩ := h.addDeferringRetention_spec hx none
    generalize s.addDeferringRetention x.timestamp x.value none = r at hone hput ⊢
    obtain ⟨res, s'⟩ := r
    dsimp only at hone hput ⊢
    rcases hone with ⟨rfl, -⟩ | ⟨hres, heq, hdup⟩
    · rcases hput with ⟨hput, -⟩ | ⟨-, -, hok, -⟩
      · rw [hput]
        exact .kept x (.nil _)
      · cases hok
    · rw [hres]
      rcases hput with ⟨hput, hmet⟩ | ⟨hloose, heq, -, -⟩
      · have hmem : x.timestamp ∈ s.samples.map (·.timestamp) := by
          by_cases hd : res = .duplicate
          · exact mem_timestamps.mpr (hdup hd)
          · exact hmet (by cases res <;> first | rfl | cases hres) hd
        rw [hput]
        exact .met x hmem (.nil _)
      · rw [heq]
        exact .turnedAway x hloose (.nil _)
  · split
    · exact h.addEach_handed hvalid hexact
    · rename_i hdup
      obtain ⟨results, s', hs', hspec⟩ := h.wf.mergeSamplesDeferringRetention_spec hvalid none
      rw [hs']
      exact h.merged_handed hvalid (nodup_of_not_hasInBatchDuplicate (by simpa using hdup)) hspec hexact

end TimeSeries

end ValkeyTimeSeries
