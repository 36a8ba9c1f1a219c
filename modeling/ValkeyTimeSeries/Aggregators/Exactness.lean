/-
Aggregators/Exactness.lean

Over exact numbers, reducing a group shard by shard and merging gives what one reducer gives.

Design.  The meaning of a reducer is a statistic of the multiset of the values it accepted (`Denotes`). A
partial state summarizes such a multiset (`Summarizes`) and the reducer of a single node tracks it (`Tracks`),
whatever the order of the values.

`avg` is where the two part: the single-node counter has 32 bits and saturates.
-/
import ValkeyTimeSeries.Aggregators.PartialReducer
import ValkeyTimeSeries.Library.Statistics

namespace ValkeyTimeSeries.Aggregators

open List Arith PartialReducer Statistics

section Exactness

variable [Root]

/-! ### Exact arithmetic -/

section Exact

variable (a b : ℚ) (n : Nat)

@[simp] theorem isNan_num : isNan (Exact.num a) = false := rfl
@[simp] theorem isNan_nan : isNan Exact.nan = true := rfl
@[simp] theorem ofNat_exact : (ofNat n : Exact) = .num n := rfl
@[simp] theorem nan_exact : (nan : Exact) = .nan := rfl
@[simp] theorem add_num : add (Exact.num a) (.num b) = .num (a + b) := rfl
@[simp] theorem sub_num : sub (Exact.num a) (.num b) = .num (a - b) := rfl
@[simp] theorem mul_num : mul (Exact.num a) (.num b) = .num (a * b) := rfl
@[simp] theorem div_num : div (Exact.num a) (.num b) = .num (a / b) := rfl
@[simp] theorem min_num : Arith.min (Exact.num a) (.num b) = .num (min a b) := rfl
@[simp] theorem max_num : Arith.max (Exact.num a) (.num b) = .num (max a b) := rfl
@[simp] theorem sqrt_num : sqrt (Exact.num a) = .num (Root.sqrt a) := rfl
@[simp] theorem eq_num : eq (Exact.num a) (.num b) = decide (a = b) := rfl

/-- Exact sums have nothing to compensate. -/
@[simp] theorem kahanInc_num (c : ℚ) : kahanInc (Exact.num a) (.num b) (.num c) = (.num (b + a), .num c) := by
  have hfirst : c + (b - (b + a) + a) = c := by ring
  have hsecond : c + (a - (b + a) + b) = c := by ring
  rw [kahanInc]
  simp only [add_num, sub_num, hfirst, hsecond, ite_self]
  rfl

end Exact

/-! ### Statistics -/

/-- What a reducer is to give a group of which it accepted the values `s`. -/
def Denotes (kind : PartialReducerKind) (s : Multiset ℚ) (v : Exact) : Prop :=
  if s = 0 then v = emptyResult kind
  else match kind with
    | .sum | .sumIf => v = .num s.sum
    | .count | .countIf => v = .num s.card
    | .min => ∃ q, Least s q ∧ v = .num q
    | .max => ∃ q, Greatest s q ∧ v = .num q
    | .range => ∃ lo hi, Least s lo ∧ Greatest s hi ∧ v = .num (hi - lo)
    | .avg => v = .num (mean s)
    | .varP => v = .num (dispersion s / s.card)
    | .varS => v = .num (if s.card = 1 then 0 else dispersion s / (s.card - 1))
    | .stdP => v = .num (Root.sqrt (dispersion s / s.card))
    | .stdS => v = .num (if s.card = 1 then 0 else Root.sqrt (dispersion s / (s.card - 1)))
    | .first | .last => ∃ q ∈ s, v = .num q

theorem Denotes.unique {kind : PartialReducerKind} {s : Multiset ℚ} {v v' : Exact} (h : Denotes kind s v)
    (h' : Denotes kind s v') (hties : kind = .first ∨ kind = .last → ∀ x ∈ s, ∀ y ∈ s, x = y) : v = v' := by
  unfold Denotes at h h'
  by_cases hs : s = 0
  · rw [if_pos hs] at h h'
    exact h.trans h'.symm
  rw [if_neg hs] at h h'
  cases kind with
  | min =>
    obtain ⟨q, hq, rfl⟩ := h
    obtain ⟨q', hq', rfl⟩ := h'
    rw [hq.unique hq']
  | max =>
    obtain ⟨q, hq, rfl⟩ := h
    obtain ⟨q', hq', rfl⟩ := h'
    rw [hq.unique hq']
  | range =>
    obtain ⟨lo, hi, hlo, hhi, rfl⟩ := h
    obtain ⟨lo', hi', hlo', hhi', rfl⟩ := h'
    rw [hlo.unique hlo', hhi.unique hhi']
  | first =>
    obtain ⟨q, hq, rfl⟩ := h
    obtain ⟨q', hq', rfl⟩ := h'
    rw [hties (.inl rfl) q hq q' hq']
  | last =>
    obtain ⟨q, hq, rfl⟩ := h
    obtain ⟨q', hq', rfl⟩ := h'
    rw [hties (.inr rfl) q hq q' hq']
  | _ => exact h.trans h'.symm

/-! ### Partial states -/

/-- The value as a number; an accepted NaN is only ever counted. -/
def Exact.toRat : Exact → ℚ
  | .nan => 0
  | .num q => q

/-- The state of a reducer that accepted the values `s` at the timestamp `ts`. -/
def Summarizes (kind : PartialReducerKind) (ts : Int) (st : PartialState Exact) (s : Multiset ℚ) : Prop :=
  st.count = s.card ∧
    match kind with
    | .sum | .sumIf | .avg => st.total = ⟨.num s.sum, .num 0⟩
    | .count | .countIf => True
    | .min => s ≠ 0 → ∃ q, Least s q ∧ st.acc1 = .num q
    | .max => s ≠ 0 → ∃ q, Greatest s q ∧ st.acc1 = .num q
    | .range => s ≠ 0 → ∃ lo hi, Least s lo ∧ Greatest s hi ∧ st.acc1 = .num lo ∧ st.acc2 = .num hi
    | .stdP | .stdS | .varP | .varS => st.acc1 = .num (mean s) ∧ st.acc2 = .num (dispersion s)
    | .first | .last => s ≠ 0 → st.ts = ts ∧ ∃ q ∈ s, st.acc1 = .num q

section PartialStates

variable {kind : PartialReducerKind} {ts : Int} {st st' : PartialState Exact} {s s' : Multiset ℚ}

theorem summarizes_default : Summarizes kind ts .default 0 := by
  refine ⟨rfl, ?_⟩
  cases kind <;> simp [PartialState.default, PartialState.total, mean, dispersion]

variable (h : Summarizes kind ts st s)
include h

theorem Summarizes.take (q : ℚ) :
    Summarizes kind ts (PartialReducer.take kind (st.count = 0) { st with count := st.count + 1 } ts (.num q))
    (q ::ₘ s) := by
  obtain ⟨hcount, h⟩ := h
  have hempty : decide (st.count = 0) = true ↔ s = 0 := by rw [decide_eq_true_iff, hcount, Multiset.card_eq_zero]
  cases kind with
  | sum | sumIf | avg =>
    refine ⟨by simp [PartialReducer.take, hcount], ?_⟩
    simp only [PartialState.total, KahanSum.mk.injEq] at h
    simp [PartialReducer.take, PartialState.total, KahanSum.incr, h.1, h.2, add_comm]
  | count | countIf => exact ⟨by simp [PartialReducer.take, hcount], trivial⟩
  | min =>
    refine ⟨by simp [PartialReducer.take, hcount], fun _ => ?_⟩
    by_cases hs : s = 0
    · subst hs
      exact ⟨q, Least.singleton q, by simp [PartialReducer.take, hcount]⟩
    · obtain ⟨lo, hlo, hacc⟩ := h hs
      refine ⟨min lo q, hlo.cons q, ?_⟩
      simp [PartialReducer.take, hcount, hs, hacc]
  | max =>
    refine ⟨by simp [PartialReducer.take, hcount], fun _ => ?_⟩
    by_cases hs : s = 0
    · subst hs
      exact ⟨q, Greatest.singleton q, by simp [PartialReducer.take, hcount]⟩
    · obtain ⟨hi, hhi, hacc⟩ := h hs
      refine ⟨max hi q, hhi.cons q, ?_⟩
      simp [PartialReducer.take, hcount, hs, hacc]
  | range =>
    by_cases hs : s = 0
    · subst hs
      refine ⟨by simp [PartialReducer.take, hcount], fun _ => ⟨q, q, Least.singleton q, Greatest.singleton q, ?_⟩⟩
      simp [PartialReducer.take, hcount]
    · obtain ⟨lo, hi, hlo, hhi, hacc, hacc'⟩ := h hs
      refine ⟨by simp [PartialReducer.take, hcount, hs], fun _ => ⟨min lo q, max hi q,
        hlo.cons q, hhi.cons q, ?_⟩⟩
      simp [PartialReducer.take, hcount, hs, hacc, hacc']
  | stdP | stdS | varP | varS =>
    obtain ⟨hmean, hdisp⟩ := h
    refine ⟨by simp [PartialReducer.take, hcount], ?_⟩
    simp only [PartialReducer.take, hmean, hdisp, hcount, ofNat_exact, sub_num, div_num, add_num, mul_num, mean_cons,
      dispersion_cons, and_self]
  | first =>
    refine ⟨by simp only [PartialReducer.take]; split <;> simp [hcount], fun _ => ?_⟩
    by_cases hs : s = 0
    · subst hs
      exact ⟨by simp [PartialReducer.take, hcount], q, Multiset.mem_cons_self q 0,
        by simp [PartialReducer.take, hcount]⟩
    · obtain ⟨hts, x, hx, hacc⟩ := h hs
      have hkeep : ¬ (decide (st.count = 0) = true ∨ ts < st.ts) := by
        rw [hempty, hts]
        simp [hs]
      simp only [PartialReducer.take, if_neg hkeep]
      exact ⟨hts, x, Multiset.mem_cons_of_mem hx, hacc⟩
  | last =>
    refine ⟨by simp only [PartialReducer.take]; split <;> simp [hcount], fun _ => ?_⟩
    have htake : decide (st.count = 0) = true ∨ st.ts ≤ ts := by
      by_cases hs : s = 0
      · exact .inl (hempty.mpr hs)
      · exact .inr (h hs).1.le
    simp only [PartialReducer.take, if_pos htake]
    exact ⟨trivial, q, Multiset.mem_cons_self q s, rfl⟩

theorem Summarizes.merge (h' : Summarizes kind ts st' s') :
    Summarizes kind ts (PartialReducer.merge kind st st') (s + s') := by
  rw [PartialReducer.merge]
  by_cases hs' : s' = 0
  · rw [if_pos (by rw [h'.1, hs', Multiset.card_zero]), hs', add_zero]
    exact h
  by_cases hs : s = 0
  · rw [if_neg (by rwa [h'.1, Multiset.card_eq_zero]), if_pos (by rw [h.1, hs, Multiset.card_zero]), hs, zero_add]
    exact h'
  rw [if_neg (by rwa [h'.1, Multiset.card_eq_zero]), if_neg (by rwa [h.1, Multiset.card_eq_zero])]
  obtain ⟨hcount, h⟩ := h
  obtain ⟨hcount', h'⟩ := h'
  have hcard : st.count + st'.count = (s + s').card := by rw [hcount, hcount', Multiset.card_add]
  cases kind with
  | sum | sumIf | avg =>
    refine ⟨hcard, ?_⟩
    simp [PartialState.total, KahanSum.merge] at h h' ⊢
    simp [h, h']
  | count | countIf => exact ⟨hcard, trivial⟩
  | min =>
    obtain ⟨lo, hlo, hacc⟩ := h hs
    obtain ⟨lo', hlo', hacc'⟩ := h' hs'
    exact ⟨hcard, fun _ => ⟨min lo lo', hlo.add hlo', by simp [hacc, hacc']⟩⟩
  | max =>
    obtain ⟨hi, hhi, hacc⟩ := h hs
    obtain ⟨hi', hhi', hacc'⟩ := h' hs'
    exact ⟨hcard, fun _ => ⟨max hi hi', hhi.add hhi', by simp [hacc, hacc']⟩⟩
  | range =>
    obtain ⟨lo, hi, hlo, hhi, hacc, hacc2⟩ := h hs
    obtain ⟨lo', hi', hlo', hhi', hacc', hacc2'⟩ := h' hs'
    exact ⟨hcard, fun _ => ⟨min lo lo', max hi hi', hlo.add hlo', hhi.add hhi', by simp [hacc, hacc'],
      by simp [hacc2, hacc2']⟩⟩
  | stdP | stdS | varP | varS =>
    obtain ⟨hmean, hdisp⟩ := h
    obtain ⟨hmean', hdisp'⟩ := h'
    refine ⟨hcard, ?_⟩
    simp only [hmean, hdisp, hmean', hdisp', hcount, hcount', ofNat_exact, sub_num, div_num, add_num, mul_num,
      mean_add hs hs', dispersion_add hs hs', and_self]
  | first =>
    obtain ⟨hts, x, hx, hacc⟩ := h hs
    obtain ⟨hts', _⟩ := h' hs'
    dsimp only
    rw [if_neg (by rw [hts, hts']; exact lt_irrefl ts)]
    exact ⟨hcard, fun _ => ⟨hts, x, Multiset.mem_add.mpr (.inl hx), hacc⟩⟩
  | last =>
    obtain ⟨hts, _⟩ := h hs
    obtain ⟨hts', x, hx, hacc⟩ := h' hs'
    dsimp only
    rw [if_pos (by rw [hts, hts'])]
    exact ⟨hcard, fun _ => ⟨hts', x, Multiset.mem_add.mpr (.inr hx), hacc⟩⟩

theorem Summarizes.finalize : Denotes kind s (PartialReducer.finalize kind st) := by
  obtain ⟨hcount, h⟩ := h
  unfold Denotes PartialReducer.finalize
  by_cases hs : s = 0
  · rw [if_pos hs, if_pos (by rw [hcount, hs, Multiset.card_zero])]
  rw [if_neg hs, if_neg (by rwa [hcount, Multiset.card_eq_zero])]
  cases kind with
  | sum | sumIf => simp [h, KahanSum.value]
  | avg => simp [h, KahanSum.value, hcount, mean]
  | count | countIf => simp [hcount]
  | min | max =>
    obtain ⟨q, hq, hacc⟩ := h hs
    exact ⟨q, hq, hacc⟩
  | range =>
    obtain ⟨lo, hi, hlo, hhi, hacc, hacc'⟩ := h hs
    exact ⟨lo, hi, hlo, hhi, by simp [hacc, hacc']⟩
  | varP | stdP => simp [h.2, hcount]
  | varS | stdS =>
    by_cases hone : s.card = 1 <;> simp [h.2, hcount, hone]
  | first | last =>
    obtain ⟨_, q, hq, hacc⟩ := h hs
    exact ⟨q, hq, hacc⟩

end PartialStates

/-! ### The values a reducer accepts -/

namespace PartialReducer

def accepted (r : PartialReducer Exact) (values : List Exact) : Multiset ℚ :=
  ((values.filter r.accepts).map Exact.toRat : List ℚ)

/-- A reducer that accepts NaN only counts. -/
def Regular (r : PartialReducer Exact) : Prop := r.acceptance = .reject ∨ r.kind = .count

omit [Root] in
theorem forConfig_regular {config : AggregatorConfig Exact} {r : PartialReducer Exact} (h : forConfig config = some r) :
    r.Regular := by
  obtain ⟨aggregation, filter, _⟩ := config
  cases aggregation <;> cases filter <;> simp only [forConfig, Option.some.injEq, reduceCtorEq] at h <;> subst h <;>
    simp [Regular]

variable {r : PartialReducer Exact}

theorem accepted_cons (v : Exact) (values : List Exact) :
    r.accepted (v :: values) = if r.accepts v then v.toRat ::ₘ r.accepted values else r.accepted values := by
  unfold accepted
  rw [filter_cons]
  split <;> rfl

theorem accepted_append (values values' : List Exact) :
    r.accepted (values ++ values') = r.accepted values + r.accepted values' := by
  unfold accepted
  rw [filter_append, map_append]
  rfl

theorem accepted_perm {values values' : List Exact} (h : values.Perm values') :
    r.accepted values = r.accepted values' := Multiset.coe_eq_coe.mpr ((h.filter _).map _)

theorem update_summarizes (hr : r.Regular) {ts : Int} {st : PartialState Exact} {s : Multiset ℚ}
    (h : Summarizes r.kind ts st s) (v : Exact) :
    Summarizes r.kind ts (r.update st ts v) (if r.accepts v then v.toRat ::ₘ s else s) := by
  rw [update]
  by_cases hv : r.accepts v
  · rw [if_pos hv, if_pos hv]
    cases v with
    | num q => exact h.take q
    | nan =>
      have hkind : r.kind = .count := by
        refine hr.resolve_left fun hreject => ?_
        simp [accepts, hreject] at hv
      rw [hkind] at h ⊢
      exact ⟨by simp [PartialReducer.take, h.1], trivial⟩
  · rw [if_neg hv, if_neg hv]
    exact h

theorem partialState_summarizes (hr : r.Regular) (ts : Int) (values : List Exact) :
    Summarizes r.kind ts (r.partialState ts values) (r.accepted values) := by
  have hfold : ∀ (values : List Exact) (st : PartialState Exact) (s : Multiset ℚ), Summarizes r.kind ts st s →
      Summarizes r.kind ts (values.foldl (r.update · ts ·) st) (r.accepted values + s) := by
    intro values
    induction values with
    | nil =>
      intro st s h
      rw [show r.accepted [] = 0 from rfl, zero_add]
      exact h
    | cons v values ih =>
      intro st s h
      have hstep := ih _ _ (update_summarizes hr h v)
      rw [accepted_cons]
      by_cases hv : r.accepts v
      · rw [if_pos hv] at hstep ⊢
        rwa [Multiset.cons_add, ← Multiset.add_cons]
      · rwa [if_neg hv] at hstep ⊢
  have h := hfold values .default 0 summarizes_default
  rwa [add_zero] at h

theorem mergeAll_summarizes (hr : r.Regular) (ts : Int) (shards : List (List Exact)) :
    Summarizes r.kind ts (mergeAll r.kind (shards.map (r.partialState ts))) (r.accepted shards.flatten) := by
  have hfold : ∀ (shards : List (List Exact)) (st : PartialState Exact) (s : Multiset ℚ), Summarizes r.kind ts st s →
      Summarizes r.kind ts ((shards.map (r.partialState ts)).foldl (merge r.kind) st)
          (s + r.accepted shards.flatten) := by
    intro shards
    induction shards with
    | nil =>
      intro st s h
      rw [flatten_nil, show r.accepted [] = 0 from rfl, add_zero]
      exact h
    | cons values shards ih =>
      intro st s h
      have hstep := ih _ _ (h.merge (partialState_summarizes hr ts values))
      rwa [add_assoc, ← accepted_append, ← flatten_cons] at hstep
  have h := hfold shards .default 0 summarizes_default
  rwa [zero_add] at h

end PartialReducer

/-! ### The reducer of a single node -/

/-- The reducer rejects NaN and has no condition. -/
def PartialReducer.Plain (r : PartialReducer Exact) : Prop := r.acceptance = .reject ∧ r.filter = none

/-- The reducer rejects NaN and has the condition. -/
def PartialReducer.Conditional (r : PartialReducer Exact) (filter : ValueComparisonFilter Exact) : Prop :=
  r.acceptance = .reject ∧ ∀ q, r.filter.all (·.compare (Exact.num q)) = filter.compare (.num q)

/-- The aggregator that goes with the reducer `r`, after the values `s` were counted. -/
def Tracks (r : PartialReducer Exact) (s : Multiset ℚ) : Aggregator Exact → Prop
  | .avg a => r.kind = .avg ∧ r.Plain ∧ a.count = min s.card (2 ^ 32 - 1) ∧ a.sum = ⟨.num s.sum, .num 0⟩
  | .count n => r.kind = .count ∧ r.Plain ∧ n = s.card
  | .countAll n => r.kind = .count ∧ r.acceptance = .all ∧ n = s.card
  | .countNan n => r.kind = .count ∧ r.acceptance = .nanOnly ∧ n = s.card
  | .countIf c =>
    r.kind = .countIf ∧ r.Conditional c.filter ∧ (c.hasSamples = true ↔ s ≠ 0) ∧ c.sum = ⟨.num s.card, .num 0⟩
  | .sumIf c => r.kind = .sumIf ∧ r.Conditional c.filter ∧ (c.hasSamples = true ↔ s ≠ 0) ∧ c.sum = ⟨.num s.sum, .num 0⟩
  | .sum a => r.kind = .sum ∧ r.Plain ∧ a = ⟨.num s.sum, .num 0⟩
  | .first v => r.kind = .first ∧ r.Plain ∧ if s = 0 then v = none else ∃ q ∈ s, v = some (.num q)
  | .last v => r.kind = .last ∧ r.Plain ∧ if s = 0 then v = none else ∃ q ∈ s, v = some (.num q)
  | .max v => r.kind = .max ∧ r.Plain ∧ if s = 0 then v = none else ∃ q, Greatest s q ∧ v = some (.num q)
  | .min v => r.kind = .min ∧ r.Plain ∧ if s = 0 then v = none else ∃ q, Least s q ∧ v = some (.num q)
  | .range a =>
    r.kind = .range ∧ r.Plain ∧
      if s = 0 then a.init = false else ∃ lo hi, Least s lo ∧ Greatest s hi ∧ a = ⟨.num lo, .num hi, true⟩
  | .stdP a => r.kind = .stdP ∧ r.Plain ∧ a = ⟨.num (mean s), .num (dispersion s), s.card⟩
  | .stdS a => r.kind = .stdS ∧ r.Plain ∧ a = ⟨.num (mean s), .num (dispersion s), s.card⟩
  | .varP a => r.kind = .varP ∧ r.Plain ∧ a = ⟨.num (mean s), .num (dispersion s), s.card⟩
  | .varS a => r.kind = .varS ∧ r.Plain ∧ a = ⟨.num (mean s), .num (dispersion s), s.card⟩

/-- The flag says whether a value was taken; a conditional aggregator also takes those that fail the condition. -/
def Flagged (s : Multiset ℚ) (has : Bool) : Aggregator Exact → Prop
  | .countIf _ | .sumIf _ => s ≠ 0 → has = true
  | _ => has = true ↔ s ≠ 0

section SingleNode

variable {r : PartialReducer Exact} {s : Multiset ℚ} {agg : Aggregator Exact} {has : Bool}

theorem PartialReducer.Plain.accepts_num (h : r.Plain) (q : ℚ) : r.accepts (.num q) = true := by
  simp [PartialReducer.accepts, h.1, h.2]

theorem PartialReducer.Plain.accepts_nan (h : r.Plain) : r.accepts .nan = false := by
  simp [PartialReducer.accepts, h.1]

theorem aggStd_add (q : ℚ) (s : Multiset ℚ) : AggStd.add ⟨.num (mean s), .num (dispersion s), s.card⟩ (Exact.num q) =
    ⟨.num (mean (q ::ₘ s)), .num (dispersion (q ::ₘ s)), (q ::ₘ s).card⟩ := by
  simp only [AggStd.add, ofNat_exact, sub_num, div_num, add_num, mul_num, mean_cons, dispersion_cons,
    Multiset.card_cons]

theorem variance_eq (s : Multiset ℚ) (m : Exact) :
    AggStd.variance ⟨m, .num (dispersion s), s.card⟩ = .num (dispersion s) := by
  rw [AggStd.variance]
  split
  · next hle =>
      rcases Nat.le_one_iff_eq_zero_or_eq_one.mp hle with hzero | hone
      · rw [Multiset.card_eq_zero.mp hzero]
        simp [dispersion]
      · obtain ⟨q, rfl⟩ := Multiset.card_eq_one.mp hone
        simp [dispersion]
  · rfl

theorem feed_plain (hplain : r.Plain) (h : Tracks r s agg) (hf : Flagged s has agg) {next : Aggregator Exact}
    {v : Exact}
    (hupdate : agg.update v = agg.takeNumber next v)
    (hnext : ∀ q, v = .num q → Tracks r (q ::ₘ s) next ∧ Flagged (q ::ₘ s) true next) :
    Tracks r (if r.accepts v then v.toRat ::ₘ s else s) (feed (agg, has) v).1 ∧
    Flagged (if r.accepts v then v.toRat ::ₘ s else s) (feed (agg, has) v).2 (feed (agg, has) v).1 := by
  simp only [feed, hupdate, Aggregator.takeNumber]
  cases v with
  | nan => simpa [hplain.accepts_nan] using ⟨h, hf⟩
  | num q => simpa [hplain.accepts_num q, Exact.toRat] using hnext q rfl

theorem feed_conditional (inc : ℚ → ℚ) (total : Multiset ℚ → ℚ) {c : ConditionalCountState Exact}
    (hcond : r.Conditional c.filter) (htotal : ∀ q s, total (q ::ₘ s) = total s + inc q)
    (hhas : c.hasSamples = true ↔ s ≠ 0) (hsum : c.sum = ⟨.num (total s), .num 0⟩) (hf : s ≠ 0 → has = true) (v : Exact)
    {i : Exact} (hi : ∀ q, v = .num q → i = .num (inc q)) :
    let s' := if r.accepts v then v.toRat ::ₘ s else s
    let c' := c.updateBy v i
    (r.Conditional c'.1.filter ∧ (c'.1.hasSamples = true ↔ s' ≠ 0) ∧ c'.1.sum = ⟨.num (total s'), .num 0⟩) ∧
      (s' ≠ 0 → (has || c'.2) = true) := by
  rw [ConditionalCountState.updateBy]
  cases v with
  | nan =>
    have hrejects : r.accepts .nan = false := by simp [PartialReducer.accepts, hcond.1]
    simpa [hrejects] using ⟨⟨hcond, hhas, hsum⟩, hf⟩
  | num q =>
    have hacc : r.accepts (.num q) = c.filter.compare (.num q) := by
      simp [PartialReducer.accepts, hcond.1, hcond.2 q]
    rw [hacc]
    by_cases hq : c.filter.compare (.num q)
    · simp [hq, hcond, hsum, KahanSum.incr, hi q rfl, htotal, Exact.toRat]
    · simpa [hq, hcond, hsum] using hhas

theorem feed_tracks (h : Tracks r s agg) (hf : Flagged s has agg) (v : Exact) :
    Tracks r (if r.accepts v then v.toRat ::ₘ s else s) (feed (agg, has) v).1 ∧
    Flagged (if r.accepts v then v.toRat ::ₘ s else s) (feed (agg, has) v).2 (feed (agg, has) v).1 := by
  cases agg with
  | avg a =>
    refine feed_plain h.2.1 h hf rfl fun q hv => ⟨⟨h.1, h.2.1, ?_, ?_⟩, by simp [Flagged]⟩
    · rw [KahanAvg.add, h.2.2.1, Multiset.card_cons]
      dsimp only
      omega
    · rw [KahanAvg.add, h.2.2.2, hv]
      simp [KahanSum.incr, add_comm]
  | count n => exact feed_plain h.2.1 h hf rfl fun q _ => ⟨⟨h.1, h.2.1, by simp [h.2.2]⟩, by simp [Flagged]⟩
  | countAll n =>
    have hacc : r.accepts v = true := by simp [PartialReducer.accepts, h.2.1]
    simp [hacc, feed, Aggregator.update, Tracks, Flagged, h.1, h.2.1, h.2.2]
  | countNan n =>
    have hacc : r.accepts v = isNan v := by simp [PartialReducer.accepts, h.2.1]
    rw [hacc]
    cases v with
    | nan => simp [feed, Aggregator.update, Tracks, Flagged, h.1, h.2.1, h.2.2]
    | num q => simpa [feed, Aggregator.update] using ⟨h, hf⟩
  | countIf c =>
    obtain ⟨hkind, hcond, hhas, hsum⟩ := h
    obtain ⟨hnew, hflag⟩ := feed_conditional (fun _ => 1) (fun s => s.card) hcond
      (fun q s => by simp) hhas hsum hf v (i := ofNat 1) fun q _ => by simp
    exact ⟨⟨hkind, hnew⟩, hflag⟩
  | sumIf c =>
    obtain ⟨hkind, hcond, hhas, hsum⟩ := h
    obtain ⟨hnew, hflag⟩ := feed_conditional (fun q => q) Multiset.sum hcond
      (fun q s => by rw [Multiset.sum_cons, add_comm]) hhas hsum hf v (i := v) fun q hq => hq
    exact ⟨⟨hkind, hnew⟩, hflag⟩
  | sum a =>
    refine feed_plain h.2.1 h hf rfl fun q hv => ⟨⟨h.1, h.2.1, ?_⟩, by simp [Flagged]⟩
    rw [h.2.2, hv]
    simp [KahanSum.incr, add_comm]
  | first w =>
    refine feed_plain h.2.1 h hf rfl fun q hv => ⟨⟨h.1, h.2.1, ?_⟩, by simp [Flagged]⟩
    rw [if_neg (Multiset.cons_ne_zero)]
    by_cases hs : s = 0
    · have hw := h.2.2
      rw [if_pos hs] at hw
      exact ⟨q, Multiset.mem_cons_self q s, by rw [hw, hv]; rfl⟩
    · have hw := h.2.2
      rw [if_neg hs] at hw
      obtain ⟨x, hx, hw⟩ := hw
      exact ⟨x, Multiset.mem_cons_of_mem hx, by rw [hw]; rfl⟩
  | last w =>
    refine feed_plain h.2.1 h hf rfl fun q hv => ⟨⟨h.1, h.2.1, ?_⟩, by simp [Flagged]⟩
    rw [if_neg (Multiset.cons_ne_zero)]
    exact ⟨q, Multiset.mem_cons_self q s, by rw [hv]⟩
  | max w =>
    refine feed_plain h.2.1 h hf rfl fun q hv => ⟨⟨h.1, h.2.1, ?_⟩, by simp [Flagged]⟩
    rw [if_neg (Multiset.cons_ne_zero)]
    have hw := h.2.2
    by_cases hs : s = 0
    · rw [if_pos hs] at hw
      exact ⟨q, hs ▸ Greatest.singleton q, by rw [hw, hv]; rfl⟩
    · rw [if_neg hs] at hw
      obtain ⟨x, hx, hw⟩ := hw
      exact ⟨max x q, hx.cons q, by rw [hw, hv]; rfl⟩
  | min w =>
    refine feed_plain h.2.1 h hf rfl fun q hv => ⟨⟨h.1, h.2.1, ?_⟩, by simp [Flagged]⟩
    rw [if_neg (Multiset.cons_ne_zero)]
    have hw := h.2.2
    by_cases hs : s = 0
    · rw [if_pos hs] at hw
      exact ⟨q, hs ▸ Least.singleton q, by rw [hw, hv]; rfl⟩
    · rw [if_neg hs] at hw
      obtain ⟨x, hx, hw⟩ := hw
      exact ⟨min x q, hx.cons q, by rw [hw, hv]; rfl⟩
  | range a =>
    refine feed_plain h.2.1 h hf rfl fun q hv => ⟨⟨h.1, h.2.1, ?_⟩, by simp [Flagged]⟩
    rw [if_neg (Multiset.cons_ne_zero)]
    have hw := h.2.2
    by_cases hs : s = 0
    · rw [if_pos hs] at hw
      exact ⟨q, q, hs ▸ Least.singleton q, hs ▸ Greatest.singleton q, by rw [hw, hv]; rfl⟩
    · rw [if_neg hs] at hw
      obtain ⟨lo, hi, hlo, hhi, hw⟩ := hw
      exact ⟨min lo q, max hi q, hlo.cons q, hhi.cons q, by rw [hw, hv]; rfl⟩
  | stdP a | stdS a | varP a | varS a =>
    refine feed_plain h.2.1 h hf rfl fun q hv => ⟨⟨h.1, h.2.1, ?_⟩, by simp [Flagged]⟩
    rw [h.2.2, hv, aggStd_add]

theorem foldl_feed_tracks (values : List Exact) (h : Tracks r s agg) (hf : Flagged s has agg) :
    Tracks r (r.accepted values + s) (values.foldl feed (agg, has)).1 ∧
    Flagged (r.accepted values + s) (values.foldl feed (agg, has)).2 (values.foldl feed (agg, has)).1 := by
  induction values generalizing agg has s with
  | nil =>
    rw [show r.accepted [] = 0 from rfl, zero_add]
    exact ⟨h, hf⟩
  | cons v values ih =>
    obtain ⟨h', hf'⟩ := feed_tracks h hf v
    have hstep := ih h' hf'
    rw [PartialReducer.accepted_cons, foldl_cons]
    by_cases hv : r.accepts v
    · rw [if_pos hv] at hstep ⊢
      rwa [Multiset.cons_add, ← Multiset.add_cons]
    · rwa [if_neg hv] at hstep ⊢

/-- The single-node result of an average: the counter stops at its largest value. -/
theorem finalizeGroup_avg {a : KahanAvg Exact} (h : Tracks r s (.avg a)) (hf : Flagged s has (.avg a)) (hs : s ≠ 0) :
    finalizeGroup (.avg a, has) = .num (s.sum / (min s.card (2 ^ 32 - 1) : Nat)) := by
  obtain ⟨_, _, hcount, hsum⟩ := h
  have hpos := Multiset.card_pos.mpr hs
  have hne : a.count ≠ 0 := by omega
  rw [finalizeGroup, if_pos (hf.mpr hs), Aggregator.finalize, Aggregator.current, KahanAvg.value, if_neg hne, hsum,
    hcount]
  simp [KahanSum.value]

theorem finalizeGroup_some {v : Exact} (hhas : has = true) (h : agg.current = some v) : finalizeGroup
    (agg, has) = v := by
  rw [finalizeGroup, if_pos hhas, Aggregator.finalize, h, Option.getD_some]

theorem finalizeGroup_none (h : agg.current = none) (hempty : agg.emptyGroupValue = agg.emptyValue) :
    finalizeGroup (agg, has) = agg.emptyValue := by
  cases has with
  | true => rw [finalizeGroup, if_pos rfl, Aggregator.finalize, h, Option.getD_none]
  | false => exact hempty

theorem finalizeGroup_denotes (h : Tracks r s agg) (hf : Flagged s has agg) (havg : r.kind ≠ .avg) :
    Denotes r.kind s (finalizeGroup (agg, has)) := by
  unfold Denotes
  have hcard : s ≠ 0 → s.card ≠ 0 := fun hs => (Multiset.card_pos.mpr hs).ne'
  cases agg with
  | avg a => exact absurd h.1 havg
  | count n | countAll n | countNan n =>
    obtain ⟨hkind, _, rfl⟩ := h
    rw [hkind]
    by_cases hs : s = 0
    · rw [if_pos hs]
      exact finalizeGroup_none (by simp [Aggregator.current, Aggregator.tally, hs]) rfl
    · rw [if_neg hs]
      exact finalizeGroup_some (hf.mpr hs) (by simp [Aggregator.current, Aggregator.tally, hs])
  | countIf c | sumIf c =>
    obtain ⟨hkind, _, hhas, hsum⟩ := h
    rw [hkind]
    by_cases hs : s = 0
    · have hnone : c.hasSamples = false := by simpa [hs] using hhas
      rw [if_pos hs]
      exact finalizeGroup_none (by simp [Aggregator.current, ConditionalCountState.current, hnone]) rfl
    · rw [if_neg hs]
      refine finalizeGroup_some (hf hs) ?_
      simp [Aggregator.current, ConditionalCountState.current, hhas.mpr hs, hsum, KahanSum.value]
  | sum a =>
    obtain ⟨hkind, _, rfl⟩ := h
    rw [hkind]
    by_cases hs : s = 0
    · have hhas : has = false := by
        cases has with
        | true => exact absurd hs (hf.mp rfl)
        | false => rfl
      rw [if_pos hs, hhas]
      rfl
    · -- a sum of zero looks like no sum, and the empty value is zero
      rw [if_neg hs, finalizeGroup, if_pos (hf.mpr hs)]
      by_cases hzero : s.sum = 0 <;>
        simp [Aggregator.finalize, Aggregator.current, KahanSum.isEmpty, KahanSum.value, Aggregator.emptyValue, hzero]
  | first v | last v | max v | min v =>
    obtain ⟨hkind, _, hv⟩ := h
    rw [hkind]
    by_cases hs : s = 0
    · rw [if_pos hs] at hv ⊢
      exact finalizeGroup_none hv rfl
    · rw [if_neg hs] at hv ⊢
      obtain ⟨q, hq, rfl⟩ := hv
      exact ⟨q, hq, finalizeGroup_some (hf.mpr hs) rfl⟩
  | range a =>
    obtain ⟨hkind, _, hv⟩ := h
    rw [hkind]
    by_cases hs : s = 0
    · rw [if_pos hs] at hv ⊢
      exact finalizeGroup_none (by simp [Aggregator.current, hv]) rfl
    · rw [if_neg hs] at hv ⊢
      obtain ⟨lo, hi, hlo, hhi, rfl⟩ := hv
      exact ⟨lo, hi, hlo, hhi, finalizeGroup_some (hf.mpr hs) rfl⟩
  | stdP a | varP a =>
    obtain ⟨hkind, _, rfl⟩ := h
    rw [hkind]
    by_cases hs : s = 0
    · rw [if_pos hs]
      exact finalizeGroup_none (by simp [Aggregator.current, hs]) rfl
    · rw [if_neg hs]
      exact finalizeGroup_some (hf.mpr hs)
        (by simp [Aggregator.current, hs, Aggregator.populationVariance, variance_eq])
  | stdS a | varS a =>
    obtain ⟨hkind, _, rfl⟩ := h
    rw [hkind]
    by_cases hs : s = 0
    · rw [if_pos hs]
      exact finalizeGroup_none (by simp [Aggregator.current, hs]) rfl
    · rw [if_neg hs]
      refine finalizeGroup_some (hf.mpr hs) ?_
      by_cases hone : s.card = 1
      · simp [Aggregator.current, hone]
      · have hcast : ((s.card - 1 : Nat) : ℚ) = s.card - 1 := by
          rw [Nat.cast_sub (Nat.one_le_iff_ne_zero.mpr (hcard hs)), Nat.cast_one]
        simp [Aggregator.current, hs, hone, Aggregator.sampleVariance, variance_eq, hcast]

end SingleNode

/-! ### Push-down -/

/-- A configuration that can be pushed down has an aggregator, and the two start together. -/
theorem createAggregator_tracks (config : AggregatorConfig Exact) {r : PartialReducer Exact}
    (h : forConfig config = some r) :
    ∃ agg, config.createAggregator = some agg ∧ Tracks r 0 agg.reset ∧ Flagged 0 false agg.reset ∧
    (r.kind = .avg ↔ config.aggregation = .avg) := by
  obtain ⟨aggregation, filter, hsupported⟩ := config
  have hcondition : ∀ q : ℚ, filter.all (·.compare (Exact.num q)) =
      (filter.getD ValueComparisonFilter.default).compare (Exact.num q) := by
    intro q
    cases filter <;> rfl
  cases aggregation <;> cases filter <;> simp only [forConfig, Option.some.injEq, reduceCtorEq] at h <;> subst h <;>
    refine ⟨_, rfl, ?_, ?_, ?_⟩ <;>
    simp_all [Aggregator.reset, Tracks, Flagged, Plain, Conditional, ConditionalCountState.reset,
      ConditionalCountState.new, KahanAvg.new, KahanSum.new, AggStd.new, mean, dispersion, AggregationType.isFiltered,
      AggregationType.hasFilteredVariant]

section PushDown

variable (config : AggregatorConfig Exact) {r : PartialReducer Exact} (hr : forConfig config = some r) (ts : Int)
  (shards : List (List Exact)) (values : List Exact)
include hr

/-- Apart from `avg`, the merged states and the one reducer give the same statistic. -/
theorem merged_eq_reduced (havg : r.kind ≠ .avg)
    (hties : r.kind = .first ∨ r.kind = .last → ∀ x ∈ r.accepted values, ∀ y ∈ r.accepted values, x = y)
    {agg : Aggregator Exact} (htracks : Tracks r 0 agg.reset) (hflag : Flagged 0 false agg.reset)
    (hperm : values.Perm shards.flatten) :
    PartialReducer.finalize r.kind (mergeAll r.kind (shards.map (r.partialState ts))) = reduceGroup agg values := by
  obtain ⟨h, hf⟩ := foldl_feed_tracks values htracks hflag
  rw [add_zero] at h hf
  have hmerged := (mergeAll_summarizes (forConfig_regular hr) ts shards).finalize
  rw [← accepted_perm hperm] at hmerged
  exact hmerged.unique (finalizeGroup_denotes h hf havg) hties

/-- For `avg` they do as long as the counter of 32 bits holds the number of values. -/
theorem merged_eq_reduced_avg_iff (havg : r.kind = .avg) {agg : Aggregator Exact} (htracks : Tracks r 0 agg.reset)
    (hflag : Flagged 0 false agg.reset) (hperm : values.Perm shards.flatten) :
    PartialReducer.finalize r.kind (mergeAll r.kind (shards.map (r.partialState ts))) = reduceGroup agg values ↔
    (r.accepted values).card < 2 ^ 32 ∨ (r.accepted values).sum = 0 := by
  have hmerged := (mergeAll_summarizes (forConfig_regular hr) ts shards).finalize
  rw [← accepted_perm hperm, havg] at hmerged
  obtain ⟨h, hf⟩ := foldl_feed_tracks values htracks hflag
  rw [add_zero] at h hf
  rw [havg, reduceGroup]
  cases hagg : (values.foldl feed (agg.reset, false)).1 with
  | avg a =>
    have hpair : values.foldl feed (agg.reset, false) = (.avg a, (values.foldl feed (agg.reset, false)).2) :=
      Prod.ext hagg rfl
    rw [hagg] at h hf
    rw [hpair]
    unfold Denotes at hmerged
    by_cases hs : r.accepted values = 0
    · have hhas : (values.foldl feed (agg.reset, false)).2 = false := by
        cases hhas : (values.foldl feed (agg.reset, false)).2 with
        | true => exact absurd hs (hf.mp hhas)
        | false => rfl
      rw [if_pos hs] at hmerged
      rw [hmerged, hhas, hs]
      simp [finalizeGroup, Aggregator.emptyGroupValue, emptyResult]
    · rw [if_neg hs] at hmerged
      rw [hmerged, finalizeGroup_avg h hf hs, mean, Exact.num.injEq]
      have hpos := Multiset.card_pos.mpr hs
      have hc : ((r.accepted values).card : ℚ) ≠ 0 := by exact_mod_cast hpos.ne'
      have hm : ((min (r.accepted values).card (2 ^ 32 - 1) : Nat) : ℚ) ≠ 0 := by
        have : min (r.accepted values).card (2 ^ 32 - 1) ≠ 0 := by omega
        exact_mod_cast this
      rw [div_eq_div_iff hc hm, mul_eq_mul_left_iff, Nat.cast_inj]
      refine or_congr_left ?_
      omega
  | _ =>
    rw [hagg] at h
    rw [h.1] at havg
    cases havg

/-- Reducing the values of a group shard by shard and merging the states gives what one reducer gives for
all of them, unless `avg` has to count more than 32 bits can hold. -/
theorem merged_eq_reduced_iff
    (hties : r.kind = .first ∨ r.kind = .last → ∀ x ∈ r.accepted values, ∀ y ∈ r.accepted values, x = y)
    (hperm : values.Perm shards.flatten) :
    ∃ agg, config.createAggregator = some agg ∧
      (PartialReducer.finalize r.kind (mergeAll r.kind (shards.map (r.partialState ts))) = reduceGroup agg values ↔
        (config.aggregation = .avg → (r.accepted values).card < 2 ^ 32 ∨ (r.accepted values).sum = 0)) := by
  obtain ⟨agg, hagg, htracks, hflag, hkind⟩ := createAggregator_tracks config hr
  refine ⟨agg, hagg, ?_⟩
  by_cases havg : r.kind = .avg
  · rw [merged_eq_reduced_avg_iff config hr ts shards values havg htracks hflag hperm]
    exact ⟨fun h _ => h, fun h => h (hkind.mp havg)⟩
  · refine ⟨fun _ h => absurd (hkind.mpr h) havg, fun _ => ?_⟩
    exact merged_eq_reduced config hr ts shards values havg hties htracks hflag hperm

end PushDown

end Exactness

def plainConfig (aggregation : AggregationType) : AggregatorConfig Exact := ⟨aggregation, none, fun h => by cases h⟩

theorem merged_eq_reduced_varP :
    letI : Root := ⟨fun q => q⟩
    PartialReducer.finalize .varP (mergeAll .varP
        ([[.num 3], [.num 1, .nan], [.num 2]].map (PartialReducer.partialState ⟨.varP, none, .reject⟩ 10))) =
      reduceGroup (.varP .new) [Exact.num 1, .num 2, .num 3, .nan] := by
  let root : Root := ⟨fun q => q⟩
  obtain ⟨agg, hagg, hiff⟩ := merged_eq_reduced_iff (plainConfig .varP) rfl 10 [[.num 3], [.num 1, .nan], [.num 2]]
    [.num 1, .num 2, .num 3, .nan] (fun h => by rcases h with h | h <;> cases h) (by decide)
  cases hagg
  exact hiff.mpr fun h => by cases h

theorem accepted_ones [Root] (n : Nat) :
    PartialReducer.accepted ⟨.avg, none, .reject⟩ (List.replicate n (Exact.num 1)) = Multiset.replicate n 1 := by
  unfold PartialReducer.accepted
  rw [filter_replicate_of_pos (by rfl), map_replicate]
  rfl

/-- The average of `2 ^ 32` ones, from two shards: merged it is one, on a single node it is more. -/
theorem merged_ne_reduced_avg :
    letI : Root := ⟨fun q => q⟩
    PartialReducer.finalize .avg (mergeAll .avg
        ([List.replicate (2 ^ 31) (.num 1), List.replicate (2 ^ 31) (.num 1)].map
          (PartialReducer.partialState ⟨.avg, none, .reject⟩ 10))) ≠
      reduceGroup (.avg .new) (List.replicate (2 ^ 32) (Exact.num 1)) := by
  let root : Root := ⟨fun q => q⟩
  intro heq
  have hperm : (List.replicate (2 ^ 32) (Exact.num 1)).Perm
      [List.replicate (2 ^ 31) (.num 1), List.replicate (2 ^ 31) (.num 1)].flatten := by
    rw [flatten_cons, flatten_cons, flatten_nil, append_nil, ← replicate_add,
      show 2 ^ 31 + 2 ^ 31 = 2 ^ 32 from rfl]
  have hr : forConfig (plainConfig .avg) = some (⟨.avg, none, .reject⟩ : PartialReducer Exact) := rfl
  obtain ⟨agg, hagg, htracks, hflag, _⟩ := createAggregator_tracks (plainConfig .avg) hr
  cases hagg
  rcases (merged_eq_reduced_avg_iff (plainConfig .avg) hr 10 _ _ rfl htracks hflag hperm).mp heq with h | h
  · rw [accepted_ones, Multiset.card_replicate] at h
    exact lt_irrefl _ h
  · rw [accepted_ones, Multiset.sum_replicate, nsmul_eq_mul, mul_one] at h
    norm_num at h

end ValkeyTimeSeries.Aggregators
