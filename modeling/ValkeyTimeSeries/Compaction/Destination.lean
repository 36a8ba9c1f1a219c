/-
Compaction/Destination.lean

The destination of a rule as a map from bucket starts to values.

Design.  A destination without retention, IGNORE and rounding takes what it is given,
with two exceptions: a NaN does not replace a number, and a value that equals the newest
one is ignored, also where one of them is the negative zero.  On `Ordinary` values a write
puts one key and a removal deletes a range of keys.
-/
import ValkeyTimeSeries.Compaction.Rollup

namespace ValkeyTimeSeries

/-! ### Ordinary values -/

/-- A number, other than the negative zero. -/
def F64.Ordinary (v : F64) : Prop := v.isNaN = false ∧ v ≠ 0x8000000000000000

instance (v : F64) : Decidable v.Ordinary := inferInstanceAs (Decidable (_ ∧ _))

theorem F64.eq_zero_of_rank {v : F64} (h : v.Ordinary) (hrank : v.rank = 0) : v = 0 := by
  have hmag : v.magnitude = 0 := by
    rw [F64.rank] at hrank
    split at hrank <;> omega
  have hnat := F64.toNat_eq_magnitude v
  rw [hmag] at hnat
  cases hmsb : v.msb with
  | false =>
    rw [hmsb] at hnat
    exact BitVec.eq_of_toNat_eq hnat
  | true =>
    rw [hmsb] at hnat
    exact absurd (BitVec.eq_of_toNat_eq hnat) h.2

theorem F64.eq_of_ordinary {a b : F64} (ha : a.Ordinary) (hb : b.Ordinary) (h : F64.eq a b = true) : a = b := by
  by_cases hrank : b.rank = 0
  · have hrank' : a.rank = 0 := by
      simp only [F64.eq, Bool.and_eq_true, decide_eq_true_eq] at h
      rw [h.2, hrank]
    rw [F64.eq_zero_of_rank ha hrank', F64.eq_zero_of_rank hb hrank]
  · exact F64.eq_of_eq_of_rank_ne_zero h hrank

/-- Values of which no two different ones compare equal. -/
def Faithful (good : F64 → Prop) : Prop := ∀ v w, good v → good w → F64.eq v w = true → v = w

theorem faithful_ordinary : Faithful F64.Ordinary := fun _ _ => F64.eq_of_ordinary

/-- A difference of doubles is zero only where they are equal: subtraction underflows gradually. -/
class LawfulFloatOps [FloatOps] : Prop where
  eq_of_sub (a b : F64) : a.isNaN = false → b.isNaN = false → (FloatOps.sub a b).abs.le 0 = true → F64.eq a b = true

theorem duplicateValue_keepLast [FloatOps] {old new : F64} (h : new.isNaN = false) :
    DuplicatePolicy.keepLast.duplicateValue old new = .ok new := by
  unfold DuplicatePolicy.duplicateValue
  rw [h]
  cases old.isNaN <;> rfl

namespace TimeSeries

variable [DecimalHelpers]

/-- No retention, IGNORE or rounding, and room for every sample. -/
structure Plain (s : TimeSeries) : Prop where
  wf : s.WF
  roomy : s.Roomy
  retention : s.retention = 0
  rounding : s.rounding = none
  timeDelta : s.sampleDuplicates.maxTimeDelta = 0
  valueDelta : s.sampleDuplicates.maxValueDelta = 0

variable {s s' : TimeSeries}

theorem Plain.of_settings (h : s.Plain) (hwf : s'.WF) (hroomy : s'.Roomy) (hsame : SameSettings s s') : s'.Plain :=
  ⟨hwf, hroomy, hsame.retention.trans h.retention, hsame.rounding.trans h.rounding,
    by rw [hsame.sampleDuplicates, h.timeDelta], by rw [hsame.sampleDuplicates, h.valueDelta]⟩

theorem WF.visible_of_retention (h : s.WF) (hret : s.retention = 0) : s.visible = s.samples := by
  rw [h.visible_eq, window, if_pos hret]

theorem Plain.eq_of_isDuplicate [Env] [LawfulFloatOps] (h : s.Plain) {good : F64 → Prop} (hfaith : Faithful good)
    {x last : Sample} (hlast : good last.value) (hx : good x.value) {override : Option DuplicatePolicy}
    (hdup : s.sampleDuplicates.isDuplicate x last override = true) :
    last = x ∧ s.sampleDuplicates.resolvePolicy override = .keepLast ∧ x.value.isNaN = false := by
  have hts := isDuplicate_timestamp h.timeDelta hdup
  unfold SampleDuplicatePolicy.isDuplicate at hdup
  dsimp only at hdup
  split at hdup
  · split at hdup
    · cases hdup
    · rename_i hpolicy
      split at hdup
      · cases hdup
      · rename_i hnan
        rw [Bool.or_eq_true, not_or, Bool.not_eq_true, Bool.not_eq_true] at hnan
        rw [h.valueDelta] at hdup
        have hval := hfaith _ _ hlast hx (LawfulFloatOps.eq_of_sub _ _ hnan.2 hnan.1 hdup)
        refine ⟨?_, not_not.mp hpolicy, hnan.1⟩
        cases x
        cases last
        exact (Sample.mk.injEq ..).mpr ⟨hts.symm, hval⟩
  · cases hdup

/-- What a write leaves: one key is put, or the newest sample was the same already. -/
structure Put (s s' : TimeSeries) (x : Sample) (r : SampleAddResult) : Prop where
  plain : s'.Plain
  sampleAt_eq : ∀ t, sampleAt t s'.samples = if t = x.timestamp then some x else sampleAt t s.samples
  result : r = .ok x ∨ (∃ t, r = .ignored t) ∧ sampleAt x.timestamp s.samples = some x

variable [Env] [LawfulFloatOps]

theorem Plain.add_spec (h : s.Plain) (hord : ∀ x ∈ s.samples, x.value.Ordinary) {k : Int} (hk : ValidTs k) {v : F64}
    (hv : v.Ordinary) : Put s (s.add k v (some .keepLast)).2 ⟨k, v⟩ (s.add k v (some .keepLast)).1 := by
  have hspec := h.wf.add_spec hk v (some .keepLast)
  have hroomy := h.wf.add_roomy h.roomy hk v (some .keepLast)
  have hmake : s.makeSample k v = ⟨k, v⟩ := by rw [makeSample, adjustValue, h.rounding]
  rw [hmake] at hspec
  have hplain := h.of_settings hspec.wf hroomy hspec.settings
  have hrefines := hspec.refines fun haway => h.roomy.not_overflows h.wf k haway.2
  rw [hspec.wf.visible_of_retention (hspec.settings.retention.trans h.retention),
    h.wf.visible_of_retention h.retention, windowAdd] at hrefines
  generalize s.add k v (some .keepLast) = r at hplain hrefines ⊢
  obtain ⟨res, s'⟩ := r
  have hrun := h.wf.run.increasing
  -- the put of the list, and what is stored then
  have hput (l' : List Sample) (hl' : DuplicatePolicy.keepLast.upsert ⟨k, v⟩ s.samples = .ok l') (t : Int) :
      sampleAt t l' = if t = k then some ⟨k, v⟩ else sampleAt t s.samples := by
    have heq : DuplicatePolicy.keepLast.put ⟨k, v⟩ s.samples = l' := by
      rw [DuplicatePolicy.put, SortedList.putWith]
      rw [DuplicatePolicy.upsert] at hl'
      rw [hl']
    rw [← heq, sampleAt_put hrun]
    split
    · rename_i ht
      cases hat : sampleAt t s.samples with
      | none => rfl
      | some old =>
        have hold : old.timestamp = k := (timestamp_of_sampleAt hat).trans ht
        rw [DuplicatePolicy.settle, DuplicatePolicy.combine, duplicateValue_keepLast hv.1]
        dsimp only [Functor.map, Except.map]
        rw [hold]
    · rfl
  cases hlast : s.samples.getLast? with
  | none =>
    rw [hlast] at hrefines
    obtain ⟨rfl, hs'⟩ := Prod.mk.inj hrefines
    have hnil := List.getLast?_eq_none_iff.mp hlast
    refine ⟨hplain, fun t => ?_, .inl rfl⟩
    rw [hs', hnil, sampleAt_singleton]
    by_cases ht : t = k
    · rw [if_pos ht.symm, if_pos ht]
    · rw [if_neg (Ne.symm ht), if_neg ht]
      rfl
  | some last =>
    rw [hlast] at hrefines
    dsimp only at hrefines
    rw [if_neg (fun hand => hand.1 h.retention)] at hrefines
    split at hrefines
    · rename_i hign
      obtain ⟨rfl, hs'⟩ := Prod.mk.inj hrefines
      -- an ignored sample is the newest one
      have hsame : last = ⟨k, v⟩ :=
        (h.eq_of_isDuplicate faithful_ordinary (hord last (List.mem_of_getLast? hlast)) hv hign.2).1
      have hat : sampleAt k s.samples = some ⟨k, v⟩ :=
        hrun.sampleAt_eq_some.mpr ⟨hsame ▸ List.mem_of_getLast? hlast, rfl⟩
      refine ⟨hplain, fun t => ?_, .inr ⟨⟨_, rfl⟩, hat⟩⟩
      rw [hs']
      split
      · rename_i ht
        rw [ht]
        exact hat
      · rfl
    · have hpolicy : s.sampleDuplicates.resolvePolicy (some .keepLast) = .keepLast := rfl
      rw [hpolicy] at hrefines
      cases hup : DuplicatePolicy.keepLast.upsert ⟨k, v⟩ s.samples with
      | ok l' =>
        rw [hup] at hrefines
        obtain ⟨rfl, hs'⟩ := Prod.mk.inj hrefines
        have hs' : s'.samples = l' := by
          rw [window, if_pos h.retention] at hs'
          exact hs'
        refine ⟨hplain, fun t => ?_, .inl rfl⟩
        rw [hs']
        exact hput l' hup t
      | error e =>
        -- the last value is kept, whatever there was
        exfalso
        have hout := outcome_eq .keepLast hrun ⟨k, v⟩
        rw [hup] at hout
        have hout : DuplicatePolicy.keepLast.outcome s.samples ⟨k, v⟩ = .duplicate := hout
        unfold DuplicatePolicy.outcome at hout
        split at hout
        · cases hout
        · rw [DuplicatePolicy.combine, duplicateValue_keepLast hv.1] at hout
          cases hout

structure Cut (s s' : TimeSeries) (start endTs : Int) : Prop where
  plain : s'.Plain
  samples_eq : s'.samples = samplesOut start endTs s.samples

omit [Env] [LawfulFloatOps] in
theorem Plain.removeRange_spec (h : s.Plain) (start endTs : Int) :
    ∃ count s', s.removeRange start endTs = .ok (count, s') ∧ Cut s s' start endTs := by
  obtain ⟨count, s', hs', hwf, hset, hvis, -, -⟩ := h.wf.removeRange_spec start endTs
  have hplain := h.of_settings hwf (h.wf.removeRange_roomy h.roomy hs') hset
  refine ⟨count, s', hs', hplain, ?_⟩
  rw [← hwf.visible_of_retention hplain.retention, hvis, h.wf.visible_of_retention h.retention]

end TimeSeries

end ValkeyTimeSeries
