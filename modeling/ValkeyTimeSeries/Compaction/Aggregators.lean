/-
Compaction/Aggregators.lean

Two handlers of `aggregators/handlers.rs`, and the arithmetic to run rules with.

Design.  The theorems about rules hold for every aggregator; the examples run these two.  `last` rejects NaN
and takes all other values, `countnan` takes NaN and rejects all other values.
-/
import ValkeyTimeSeries.Compaction.Batches
import ValkeyTimeSeries.Series.Run

namespace ValkeyTimeSeries

def F64.nan : F64 := 0x7FF8000000000000

/-- `n as f64` of an integer below `2 ^ 53`. -/
def F64.ofNat (n : Nat) : F64 :=
  if n = 0 then 0 else BitVec.ofNat 64 ((1023 + n.log2) * 2 ^ 52 + n * 2 ^ 52 / 2 ^ n.log2 % 2 ^ 52)

structure LastAggregator where
  current : Option F64
deriving DecidableEq, Repr

instance : Aggregator LastAggregator where
  update a _ value := if value.isNaN then (a, false) else (⟨some value⟩, true)
  reset _ := ⟨none⟩
  current a := a.current
  emptyValue _ := F64.nan

structure CountNanAggregator where
  count : Nat
deriving DecidableEq, Repr

instance : Aggregator CountNanAggregator where
  update a _ value := if value.isNaN then (⟨a.count + 1⟩, true) else (a, false)
  reset _ := ⟨0⟩
  current a := if a.count = 0 then none else some (F64.ofNat a.count)
  emptyValue _ := 0

instance : LawfulAggregator LastAggregator := ⟨fun _ _ _ => rfl, fun _ => rfl⟩

instance : LawfulAggregator CountNanAggregator := ⟨fun _ _ _ => rfl, fun _ => rfl⟩

/-! ### The newest value of a bucket -/

namespace LastAggregator

theorem fresh_eq (a : LastAggregator) {l : List Sample} (h : ∀ x ∈ l, x.value.isNaN = false) :
    fresh a l = (⟨l.getLast?.map (·.value)⟩, !l.isEmpty) := by
  induction l using List.reverseRecOn with
  | nil => rfl
  | append_singleton l x ih =>
    have hx : x.value.isNaN = false := h x (by simp)
    rw [fresh_concat, ih fun y hy => h y (by simp [hy]), CompactionContext.feed]
    simp [Aggregator.update, hx]

theorem numeric (a : LastAggregator) : Numeric F64.Ordinary a := by
  intro l hl v hv
  rw [aggregate, fresh_eq a fun x hx => (hl x hx).1] at hv
  cases hlast : l.getLast? with
  | none =>
    rw [List.getLast?_eq_none_iff.mp hlast] at hv
    cases hv
  | some x =>
    have hmem := List.mem_of_getLast? hlast
    rw [if_pos (by simp [List.ne_nil_of_mem hmem]), hlast] at hv
    obtain rfl := Option.some.inj hv
    exact hl x hmem

theorem accepts (a : LastAggregator) : Accepts F64.Ordinary a := by
  intro l hne hl
  rw [fresh_eq a fun x hx => (hl x hx).1]
  simp [hne]

end LastAggregator

/-- Arithmetic with an exact comparison of values, as far as the examples use it, and
KEEP_LAST as the configured policy. -/
@[reducible] def keepLastEnv : Env where
  add a b := if a = 0 then b else a
  sub a b := if F64.eq a b then 0 else F64.ofNat 1
  min a b := if F64.le a b then a else b
  max a b := if F64.le a b then b else a
  round _ v := v
  duplicatePolicy := .keepLast
  retentionPeriod := 0

theorem TimeSeries.fresh_wf : @WF oneTenth fresh :=
  @wf_of_withOptions oneTenth keepLastEnv fresh smallChunks rfl

theorem keepLastEnv_lawful : @LawfulFloatOps keepLastEnv.toFloatOps := by
  refine @LawfulFloatOps.mk keepLastEnv.toFloatOps fun a b _ _ h => ?_
  by_contra hne
  have hone : @FloatOps.sub keepLastEnv.toFloatOps a b = F64.ofNat 1 := if_neg hne
  rw [hone] at h
  exact absurd h (by decide)

end ValkeyTimeSeries
