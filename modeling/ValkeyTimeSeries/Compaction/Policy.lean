/-
Compaction/Policy.lean

The compaction policies of the configuration, and the rules they give a new series.

Design.  Its rule is stored under the name of the destination, which shows the aggregator, the bucket and the
alignment but not the retention; the set of policies is walked in the order of a hash set.
-/
import ValkeyTimeSeries.Aggregators.Handlers
import ValkeyTimeSeries.Library.HashOrder
import ValkeyTimeSeries.Library.SortedMap

namespace ValkeyTimeSeries

open List Aggregators

def Aggregators.AggregationType.name : AggregationType → String
  | .all => "all" | .any => "any" | .avg => "avg" | .count => "count" | .countAll => "countall" | .countIf => "countif"
  | .countNan => "countnan" | .first => "first" | .increase => "increase" | .iRate => "irate" | .last => "last"
  | .min => "min" | .max => "max" | .none => "none" | .share => "share" | .stdS => "std.s" | .stdP => "std.p"
  | .sum => "sum" | .sumIf => "sumif" | .range => "range" | .rate => "rate" | .varS => "var.s" | .varP => "var.p"

structure CompactionPolicy where
  aggregator : AggregationType
  bucketDurationMs : Nat
  retentionMs : Nat
  bucketAlignment : Int
deriving DecidableEq

/-- A new `CompactionRule`, which has no bucket open. -/
structure NewRule where
  dest : String
  aggregator : AggregationType
  bucketDuration : Nat
  alignTimestamp : Int
deriving DecidableEq

namespace CompactionPolicy

def formatKey (self : CompactionPolicy) (key : String) : String :=
  key ++ "_" ++ self.aggregator.name.toUpper
    ++ (if self.bucketDurationMs > 0 then "_" ++ toString self.bucketDurationMs else "")
    ++ (if self.bucketAlignment > 0 then "_" ++ toString self.bucketAlignment else "")

/-- The rule of a policy for a key, and the retention of its destination. -/
def rule (self : CompactionPolicy) (key : String) : NewRule × Nat :=
  (⟨self.formatKey key, self.aggregator, self.bucketDurationMs, self.bucketAlignment⟩, self.retentionMs)

theorem rule_injective (key : String) : Function.Injective (rule · key) := by
  rintro ⟨aggregator, bucket, retention, alignment⟩ ⟨aggregator', bucket', retention', alignment'⟩ h
  simp only [rule, Prod.mk.injEq, NewRule.mk.injEq] at h
  obtain ⟨⟨-, rfl, rfl, rfl⟩, rfl⟩ := h
  rfl

end CompactionPolicy

class RegexSet where
  isMatch : String → String → Bool

structure PolicyConfig where
  /-- The patterns of the `RegexSet`. -/
  filters : List String
  filteredPolicies : SortedMap String (List CompactionPolicy)
  globalPolicies : List CompactionPolicy
  /-- The set is compiled from the keys of the map. -/
  compiled : ∀ pattern, pattern ∈ filters ↔ ∃ policies, filteredPolicies.get? pattern = some policies

namespace PolicyConfig

section

variable [RegexSet] (self : PolicyConfig) (key : String)

def isEmpty : Bool := self.globalPolicies.isEmpty && self.filteredPolicies.entries.isEmpty

/-- The policies that apply, in the order of their insertion into the set. -/
def matchPolicy : Option (List CompactionPolicy) :=
  if self.isEmpty then none
  else if self.filters = [] then some self.globalPolicies.dedup
  else
    let matched := self.filters.filter fun pattern => RegexSet.isMatch pattern key
    let resultSet :=
      (self.globalPolicies ++ matched.flatMap fun pattern => (self.filteredPolicies.get? pattern).getD []).dedup
    if resultSet = [] then none else some resultSet

/-- The loop of `create_compaction_rules`; a later rule replaces one of the same destination. -/
def insertRules (policies : List CompactionPolicy) : SortedMap String (NewRule × Nat) :=
  (policies.map fun policy => (policy.formatKey key, policy.rule key)).foldl (fun rules e => rules.insert e.1 e.2)
    .empty

def createCompactionRules (order : HashOrder CompactionPolicy) : Option (SortedMap String (NewRule × Nat)) :=
  match self.matchPolicy key with
  | none => none
  | some policies => if policies = [] then none else some (insertRules key (order.order policies))

/-- The policy is global, or its pattern matches the key. -/
def Applies (policy : CompactionPolicy) : Prop :=
  policy ∈ self.globalPolicies ∨ ∃ pattern policies, self.filteredPolicies.get? pattern = some policies ∧
    RegexSet.isMatch pattern key = true ∧ policy ∈ policies

theorem matchPolicy_spec : ∃ applying, applying.Nodup ∧ (∀ policy, policy ∈ applying ↔ self.Applies key policy) ∧
    self.matchPolicy key = if applying = [] then none else some applying := by
  refine ⟨_, nodup_dedup (self.globalPolicies ++ (self.filters.filter fun pattern =>
    RegexSet.isMatch pattern key).flatMap
    fun pattern => (self.filteredPolicies.get? pattern).getD []), fun policy => ?_, ?_⟩
  · simp only [mem_dedup, mem_append, mem_flatMap, mem_filter, Applies]
    refine or_congr_right ⟨?_, ?_⟩
    · rintro ⟨pattern, ⟨hmem, hmatch⟩, hpolicy⟩
      obtain ⟨policies, hget⟩ := (self.compiled pattern).mp hmem
      exact ⟨pattern, policies, hget, hmatch, by simpa [hget] using hpolicy⟩
    · rintro ⟨pattern, policies, hget, hmatch, hpolicy⟩
      exact ⟨pattern, ⟨(self.compiled pattern).mpr ⟨policies, hget⟩, hmatch⟩, by simpa [hget] using hpolicy⟩
  · have hempty : self.filters = [] ↔ self.filteredPolicies.entries = [] := by
      rw [eq_nil_iff_forall_not_mem, eq_nil_iff_forall_not_mem]
      simp only [self.compiled, SortedMap.get?_eq_some_iff, not_exists, Prod.forall]
    rw [matchPolicy]
    by_cases hfilters : self.filters = []
    · rw [if_pos hfilters, hfilters, isEmpty, hempty.mp hfilters]
      cases self.globalPolicies <;> simp
    · rw [if_neg hfilters, isEmpty, isEmpty_eq_false_iff.mpr (mt hempty.mpr hfilters), Bool.and_false]
      rfl

/-! ### The rules -/

/-- In whatever order the policies are walked, each one that applies has its own rule with its own retention
under its destination, and there is no other rule. -/
def Resolves : Prop := ∀ (order : HashOrder CompactionPolicy) (dest : String) (rule : NewRule × Nat),
  (self.createCompactionRules key order).bind (·.get? dest) = some rule ↔
    ∃ policy, self.Applies key policy ∧ policy.formatKey key = dest ∧ policy.rule key = rule

/-- **The rules of a key resolve predictably exactly where no two policies that apply share a destination.** -/
theorem resolves_iff : self.Resolves key ↔
    ∀ p q, self.Applies key p → self.Applies key q → p.formatKey key = q.formatKey key → p = q := by
  constructor
  · intro h p q hp hq hkey
    have hrule := (h .insertion _ _).mpr ⟨p, hp, hkey, rfl⟩
    rw [(h .insertion _ _).mpr ⟨q, hq, rfl, rfl⟩] at hrule
    exact (CompactionPolicy.rule_injective key (Option.some.inj hrule)).symm
  · intro hown order dest rule
    obtain ⟨applying, hnodup, happlying, hmatch⟩ := self.matchPolicy_spec key
    rw [createCompactionRules, hmatch]
    by_cases hnone : applying = []
    · rw [if_pos hnone]
      constructor
      · intro h
        cases h
      · rintro ⟨policy, hpolicy, -⟩
        exact absurd hnone (ne_nil_of_mem ((happlying policy).mpr hpolicy))
    · have hperm := order.perm applying
      rw [if_neg hnone]
      dsimp only
      rw [if_neg hnone, Option.bind_some, insertRules, SortedMap.get?_foldl_insert]
      · simp [hperm.mem_iff, happlying]
      -- no destination comes twice
      · rw [map_map]
        refine (nodup_map_iff_inj_on (hperm.nodup_iff.mpr hnodup)).mpr fun p hp q hq => hown p q ?_ ?_
        · exact (happlying p).mp (hperm.mem_iff.mp hp)
        · exact (happlying q).mp (hperm.mem_iff.mp hq)

end

def minutely (retentionMs : Nat) : CompactionPolicy := ⟨.avg, 60000, retentionMs, 0⟩

def twoRetentions : PolicyConfig where
  filters := []
  filteredPolicies := .empty
  globalPolicies := [minutely 1, minutely 2]
  compiled _ := by simp

/-- The policy that is walked last gives the destination its retention. -/
theorem twoRetentions_follows_order : letI : RegexSet := ⟨fun _ _ => false⟩
    ∃ order order', twoRetentions.createCompactionRules "k" order ≠ twoRetentions.createCompactionRules "k" order' := by
  let _ : RegexSet := ⟨fun _ _ => false⟩
  obtain ⟨order, horder⟩ := HashOrder.exists_order (Perm.swap (minutely 1) (minutely 2) [])
  refine ⟨.insertion, order, fun h => ?_⟩
  have hcreate (order) : twoRetentions.createCompactionRules "k" order
      = some (insertRules "k" (order.order [minutely 1, minutely 2])) := rfl
  rw [hcreate, hcreate, horder, Option.some.injEq] at h
  have hkey : (minutely 2).formatKey "k" = (minutely 1).formatKey "k" := rfl
  have hget := congrArg (SortedMap.get? · ((minutely 1).formatKey "k")) h
  simp only [HashOrder.insertion, insertRules, id, map_cons, map_nil, foldl_cons, foldl_nil, SortedMap.get?_insert,
    hkey, if_true] at hget
  cases hget

end PolicyConfig

end ValkeyTimeSeries
