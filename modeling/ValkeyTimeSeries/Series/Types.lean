/-
Series/Types.lean

Duplicate policies and the outcomes of an add, `series/types.rs`.

Design.  Arithmetic on doubles is a parameter (`FloatOps`); comparing them is not, since it is decided by the
bit patterns.
-/
import ValkeyTimeSeries.Common.Sample
import ValkeyTimeSeries.Library.SortedList

namespace ValkeyTimeSeries

/-! ### Values -/

/-- `value.abs()`: the sign bit is cleared. -/
def F64.abs (x : F64) : F64 := BitVec.ofNat 64 x.magnitude

/-- The arithmetic of `f64` the series code uses. -/
class FloatOps where
  add : F64 → F64 → F64
  sub : F64 → F64 → F64
  min : F64 → F64 → F64
  max : F64 → F64 → F64

/-! ### Samples in time order -/

theorem Increasing.sorted {l : List Sample} (h : Increasing l) : SortedList.Sorted Sample.timestamp l := h

/-! ### Duplicate policies -/

inductive DuplicatePolicy where
  | block
  | keepFirst
  | keepLast
  | min
  | max
  | sum
deriving DecidableEq, Repr

namespace DuplicatePolicy

def blockError : TsdbError := .duplicateSample
  "TSDB: Error at upsert, update is not supported when DUPLICATE_POLICY is set to BLOCK mode"

def nanError : TsdbError := .duplicateSample
  "TSDB: Error at upsert, NaN values are not supported for MAX, MIN, and SUM duplicate policies"

variable [FloatOps]

def duplicateValue (policy : DuplicatePolicy) (old new : F64) : Except TsdbError F64 :=
  let oldNaN := old.isNaN
  let newNaN := new.isNaN
  if oldNaN || newNaN then
    if policy = .block then .error blockError
    else if oldNaN ≠ newNaN ∧ (policy = .max ∨ policy = .min ∨ policy = .sum) then .error nanError
    else if newNaN then .ok old
    else .ok new
  else
    match policy with
    | .block => .error blockError
    | .keepFirst => .ok old
    | .keepLast => .ok new
    | .min => .ok (FloatOps.min old new)
    | .max => .ok (FloatOps.max old new)
    | .sum => .ok (FloatOps.add old new)

variable {policy : DuplicatePolicy}

theorem duplicateValue_error {old new : F64} {e : TsdbError}
    (h : policy.duplicateValue old new = .error e) : ∃ what, e = .duplicateSample what := by
  unfold duplicateValue at h
  dsimp only at h
  split at h
  · split at h
    · exact ⟨_, (Except.error.inj h).symm⟩
    · split at h
      · exact ⟨_, (Except.error.inj h).symm⟩
      · split at h <;> cases h
  · cases policy with
    | block => exact ⟨_, (Except.error.inj h).symm⟩
    | keepFirst => cases h
    | keepLast => cases h
    | min => cases h
    | max => cases h
    | sum => cases h

/-- What the policy makes of a stored sample when `new` arrives at its time. -/
def combine (policy : DuplicatePolicy) (new old : Sample) : Except TsdbError Sample :=
  (fun value => ⟨old.timestamp, value⟩) <$> policy.duplicateValue old.value new.value

theorem combine_timestamp {new old c : Sample} (h : policy.combine new old = .ok c) : c.timestamp = old.timestamp := by
  unfold combine at h
  obtain ⟨v, hv, rfl⟩ := Except.ok_of_map h
  rfl

theorem combine_error {new old : Sample} {e : TsdbError}
    (h : policy.combine new old = .error e) : ∃ what, e = .duplicateSample what := by
  unfold combine at h
  cases hv : policy.duplicateValue old.value new.value with
  | error e' =>
    rw [hv] at h
    obtain rfl := Except.error.inj h
    exact duplicateValue_error hv
  | ok v =>
    rw [hv] at h
    cases h

/-- The sorted list of samples after `sample`, or the policy's refusal. -/
def upsert (policy : DuplicatePolicy) (sample : Sample) (l : List Sample) :
    Except TsdbError (List Sample) :=
  SortedList.insertWith Sample.timestamp (policy.combine sample) sample l

theorem upsert_error {sample : Sample} {l : List Sample} {e : TsdbError}
    (h : policy.upsert sample l = .error e) : ∃ what, e = .duplicateSample what := by
  unfold upsert at h
  induction l with
  | nil => cases h
  | cons b l ih =>
    rw [SortedList.insertWith] at h
    split at h
    · refine ih ?_
      cases hr : SortedList.insertWith Sample.timestamp (policy.combine sample) sample l with
      | ok r =>
        rw [hr] at h
        cases h
      | error e' =>
        rw [hr] at h
        exact congrArg _ (Except.error.inj h)
    · split at h
      · cases hc : policy.combine sample b with
        | ok c =>
          rw [hc] at h
          cases h
        | error e' =>
          rw [hc] at h
          obtain rfl := Except.error.inj h
          exact combine_error hc
      · cases h

end DuplicatePolicy

/-! ### Near duplicates -/

structure SampleDuplicatePolicy where
  policy : Option DuplicatePolicy
  /-- The maximum time difference to consider samples duplicates. -/
  maxTimeDelta : BitVec 64
  /-- The maximum value difference to consider samples duplicates. -/
  maxValueDelta : F64
deriving DecidableEq, Repr

/-! ### Settings -/

inductive RoundingStrategy where
  | significantDigits (digits : BitVec 8)
  | decimalDigits (digits : BitVec 8)
deriving DecidableEq, Repr

/-- A retention period: milliseconds that come from an `i64` that is not
negative, zero for none. -/
abbrev Retention := Fin (2 ^ 63)

instance retention_neZero : NeZero (2 ^ 63) := ⟨by decide⟩

/-- What the series code reads besides the series: arithmetic and rounding, and
the module's configured duplicate policy and retention period. -/
class Env extends FloatOps where
  round : RoundingStrategy → F64 → F64
  duplicatePolicy : DuplicatePolicy
  retentionPeriod : Retention

namespace SampleDuplicatePolicy

variable [Env]

def resolvePolicy (p : SampleDuplicatePolicy) (override : Option DuplicatePolicy) : DuplicatePolicy :=
  (override.or p.policy).getD Env.duplicatePolicy

def isDuplicate (p : SampleDuplicatePolicy) (current last : Sample)
    (override : Option DuplicatePolicy) : Bool :=
  let timeDelta := current.timestamp - last.timestamp
  -- `max_time_delta as i64`
  if timeDelta ≥ 0 ∧ timeDelta ≤ p.maxTimeDelta.toInt then
    if p.resolvePolicy override ≠ .keepLast then false
    -- NaN values are never considered duplicates
    else if current.value.isNaN || last.value.isNaN then false
    else (FloatOps.sub last.value current.value).abs.le p.maxValueDelta
  else false

end SampleDuplicatePolicy

/-! ### Outcomes -/

inductive SampleAddResult where
  | ok (sample : Sample)
  | duplicate
  | ignored (timestamp : Int)
  | tooOld
  | error (message : String)
deriving DecidableEq, Repr

def SampleAddResult.isOk : SampleAddResult → Bool
  | .ok _ => true
  | _ => false

def cannotAddSample : String := "TSDB: could not add sample"

end ValkeyTimeSeries
