/-
Aggregators/Handlers.lean

The aggregators that a group can be reduced with on its shards (`aggregators/handlers.rs`,
`aggregators/filtered.rs`, `aggregators/kahan.rs`), and their configuration.

Design.  The code computes with doubles.  Here the arithmetic is a class; `Exact` are the rationals with NaN.
`increase`, `irate`, `rate` and the conditional aggregators that no group is reduced with are left out.
Counters of 64 bits are natural numbers; the counter of `avg` has 32 bits and saturates.
-/
import ValkeyTimeSeries.Common.Sample

namespace ValkeyTimeSeries.Aggregators

/-! ### Arithmetic -/

/-- What the aggregators use of `f64`. -/
class Arith (α : Type) where
  nan : α
  /-- `n as f64`. -/
  ofNat : Nat → α
  isNan : α → Bool
  isInfinite : α → Bool
  add : α → α → α
  sub : α → α → α
  mul : α → α → α
  div : α → α → α
  min : α → α → α
  max : α → α → α
  abs : α → α
  sqrt : α → α
  /-- `a < b`, false on NaN. -/
  lt : α → α → Bool
  le : α → α → Bool
  /-- `a == b`, false on NaN. -/
  eq : α → α → Bool

open Arith

inductive Exact where
  | nan
  | num (q : ℚ)
deriving DecidableEq

/-- The square root is a function that nothing is assumed of. -/
class Root where
  sqrt : ℚ → ℚ

namespace Exact

def lift₂ (f : ℚ → ℚ → ℚ) : Exact → Exact → Exact
  | num a, num b => num (f a b)
  | _, _ => nan

def compare (p : ℚ → ℚ → Bool) : Exact → Exact → Bool
  | num a, num b => p a b
  | _, _ => false

/-- `f64::min`, which returns the other operand where one is NaN. -/
def pick (f : ℚ → ℚ → ℚ) : Exact → Exact → Exact
  | num a, num b => num (f a b)
  | nan, b => b
  | a, nan => a

instance [Root] : Arith Exact where
  nan := nan
  ofNat n := num n
  isNan | nan => true | num _ => false
  isInfinite _ := false
  add := lift₂ (· + ·)
  sub := lift₂ (· - ·)
  mul := lift₂ (· * ·)
  div := lift₂ (· / ·)
  min := pick Min.min
  max := pick Max.max
  abs | nan => nan | num a => num |a|
  sqrt | nan => nan | num a => num (Root.sqrt a)
  lt := compare fun a b => a < b
  le := compare fun a b => a ≤ b
  eq := compare fun a b => a = b

end Exact

/-! ### Conditions -/

inductive ComparisonOperator where
  | equal | notEqual | greaterThan | greaterThanOrEqual | lessThan | lessThanOrEqual
deriving DecidableEq

variable {α : Type} [Arith α]

def opEq (left right : α) : Bool := if isNan left then isNan right else eq left right

def opNeq (left right : α) : Bool :=
  if isNan left then !isNan right else if isNan right then true else !eq left right

def ComparisonOperator.compare (self : ComparisonOperator) (a b : α) : Bool :=
  match self with
  | equal => opEq a b
  | notEqual => opNeq a b
  | greaterThan => lt b a
  | greaterThanOrEqual => le b a
  | lessThan => lt a b
  | lessThanOrEqual => le a b

structure ValueComparisonFilter (α : Type) where
  operator : ComparisonOperator
  value : α

namespace ValueComparisonFilter

def default : ValueComparisonFilter α := ⟨.notEqual, nan⟩

def compare (self : ValueComparisonFilter α) (sampleValue : α) : Bool := self.operator.compare sampleValue self.value

end ValueComparisonFilter

/-! ### Sums -/

def kahanInc (inc sum c : α) : α × α :=
  let t := add sum inc
  let newC :=
    if isInfinite t then ofNat 0
    else if le (abs inc) (abs sum) then add c (add (sub sum t) inc)
    else add c (add (sub inc t) sum)
  (t, newC)

structure KahanSum (α : Type) where
  sum : α
  compensation : α

namespace KahanSum

def new : KahanSum α := ⟨ofNat 0, ofNat 0⟩

def incr (self : KahanSum α) (inc : α) : KahanSum α :=
  ⟨(kahanInc inc self.sum self.compensation).1, (kahanInc inc self.sum self.compensation).2⟩

def merge (self rhs : KahanSum α) : KahanSum α :=
  ⟨(kahanInc rhs.sum self.sum self.compensation).1,
    add (kahanInc rhs.sum self.sum self.compensation).2 rhs.compensation⟩

def value (self : KahanSum α) : α := add self.sum self.compensation

def isEmpty (self : KahanSum α) : Bool := eq self.sum (ofNat 0) && eq self.compensation (ofNat 0)

end KahanSum

structure KahanAvg (α : Type) where
  /-- A `u32`. -/
  count : Nat
  sum : KahanSum α

namespace KahanAvg

def new : KahanAvg α := ⟨0, .new⟩

/-- `count.saturating_add(1)`. -/
def add (self : KahanAvg α) (inc : α) : KahanAvg α := ⟨min (self.count + 1) (2 ^ 32 - 1), self.sum.incr inc⟩

def value (self : KahanAvg α) : Option α :=
  if self.count = 0 then none else some (div self.sum.value (ofNat self.count))

end KahanAvg

/-! ### Handlers -/

structure RangeAggregatorState (α : Type) where
  min : α
  max : α
  init : Bool

structure AggStd (α : Type) where
  mean : α
  m2 : α
  count : Nat

namespace AggStd

def new : AggStd α := ⟨ofNat 0, ofNat 0, 0⟩

def add (self : AggStd α) (value : α) : AggStd α :=
  let count := self.count + 1
  let delta := sub value self.mean
  let mean := Arith.add self.mean (div delta (ofNat count))
  ⟨mean, Arith.add self.m2 (mul delta (sub value mean)), count⟩

/-- The numerator of the variance. -/
def variance (self : AggStd α) : α := if self.count ≤ 1 then ofNat 0 else self.m2

end AggStd

structure ConditionalCountState (α : Type) where
  hasSamples : Bool
  sum : KahanSum α
  filter : ValueComparisonFilter α

namespace ConditionalCountState

def new (filter : ValueComparisonFilter α) : ConditionalCountState α := ⟨false, .new, filter⟩

/-- `update_sum` and `update_count`: they differ in what a matching value adds. -/
def updateBy (self : ConditionalCountState α) (value inc : α) : ConditionalCountState α × Bool :=
  if isNan value then (self, false)
  else if self.filter.compare value then ({ self with hasSamples := true, sum := self.sum.incr inc }, true)
  else (self, true)

def updateSum (self : ConditionalCountState α) (value : α) : ConditionalCountState α × Bool :=
  self.updateBy value value

def updateCount (self : ConditionalCountState α) (value : α) : ConditionalCountState α × Bool :=
  self.updateBy value (ofNat 1)

def reset (self : ConditionalCountState α) : ConditionalCountState α := new self.filter

def current (self : ConditionalCountState α) : Option α := if self.hasSamples then some self.sum.value else none

end ConditionalCountState

/-- The aggregators that have a mergeable state. -/
inductive Aggregator (α : Type) where
  | avg (state : KahanAvg α)
  | count (n : Nat)
  | countAll (n : Nat)
  | countIf (state : ConditionalCountState α)
  | countNan (n : Nat)
  | first (value : Option α)
  | last (value : Option α)
  | max (value : Option α)
  | min (value : Option α)
  | range (state : RangeAggregatorState α)
  | stdP (state : AggStd α)
  | stdS (state : AggStd α)
  | sum (state : KahanSum α)
  | sumIf (state : ConditionalCountState α)
  | varP (state : AggStd α)
  | varS (state : AggStd α)

namespace Aggregator

/-- A handler that skips NaN and takes every other value. -/
def takeNumber (self : Aggregator α) (next : Aggregator α) (value : α) : Aggregator α × Bool :=
  if isNan value then (self, false) else (next, true)

def update (self : Aggregator α) (value : α) : Aggregator α × Bool :=
  match self with
  | avg a => self.takeNumber (avg (a.add value)) value
  | count n => self.takeNumber (count (n + 1)) value
  | countAll n => (countAll (n + 1), true)
  | countIf s => ((countIf (s.updateCount value).1), (s.updateCount value).2)
  | countNan n => if isNan value then (countNan (n + 1), true) else (self, false)
  | first v => self.takeNumber (first (some (v.getD value))) value
  | last _ => self.takeNumber (last (some value)) value
  | max v => self.takeNumber (max (some (v.elim value (Arith.max · value)))) value
  | min v => self.takeNumber (min (some (v.elim value (Arith.min · value)))) value
  | range s =>
    self.takeNumber (range (if s.init then ⟨Arith.min s.min value, Arith.max s.max value, true⟩
      else ⟨value, value, true⟩)) value
  | stdP s => self.takeNumber (stdP (s.add value)) value
  | stdS s => self.takeNumber (stdS (s.add value)) value
  | sum s => self.takeNumber (sum (s.incr value)) value
  | sumIf s => ((sumIf (s.updateSum value).1), (s.updateSum value).2)
  | varP s => self.takeNumber (varP (s.add value)) value
  | varS s => self.takeNumber (varS (s.add value)) value

def reset (self : Aggregator α) : Aggregator α :=
  match self with
  | avg _ => avg .new
  | count _ => count 0
  | countAll _ => countAll 0
  | countIf s => countIf s.reset
  | countNan _ => countNan 0
  | first _ => first none
  | last _ => last none
  | max _ => max none
  | min _ => min none
  | range _ => range ⟨ofNat 0, ofNat 0, false⟩
  | stdP _ => stdP .new
  | stdS _ => stdS .new
  | sum _ => sum .new
  | sumIf s => sumIf s.reset
  | varP _ => varP .new
  | varS _ => varS .new

def tally (n : Nat) : Option α := if n = 0 then none else some (ofNat n)

def populationVariance (s : AggStd α) : α := div s.variance (ofNat s.count)

def sampleVariance (s : AggStd α) : α := div s.variance (ofNat (s.count - 1))

def current (self : Aggregator α) : Option α :=
  match self with
  | avg a => a.value
  | count n => tally n
  | countAll n => tally n
  | countIf s => s.current
  | countNan n => tally n
  | first v => v
  | last v => v
  | max v => v
  | min v => v
  | range s => if s.init then some (sub s.max s.min) else none
  | stdP s => if s.count = 0 then none else some (sqrt (populationVariance s))
  | stdS s =>
    if s.count = 0 then none else if s.count = 1 then some (ofNat 0) else some (sqrt (sampleVariance s))
  | sum s => if s.isEmpty then none else some s.value
  | sumIf s => s.current
  | varP s => if s.count = 0 then none else some (populationVariance s)
  | varS s => if s.count = 0 then none else if s.count = 1 then some (ofNat 0) else some (sampleVariance s)

def emptyValue (self : Aggregator α) : α :=
  match self with
  | count _ | countAll _ | countIf _ | countNan _ | sum _ | sumIf _ => ofNat 0
  | _ => nan

def finalize (self : Aggregator α) : α := self.current.getD self.emptyValue

/-- `empty_group_value`, with `reduces_empty_to_zero`. -/
def emptyGroupValue (self : Aggregator α) : α :=
  match self with
  | count _ | countAll _ | countIf _ | countNan _ | sumIf _ => ofNat 0
  | _ => nan

end Aggregator

/-! ### Configuration -/

inductive AggregationType where
  | all | any | avg | count | countAll | countIf | countNan | first | increase | iRate | last | max | min | none
  | range | rate | share | stdP | stdS | sum | sumIf | varP | varS
deriving DecidableEq

namespace AggregationType

def isFiltered : AggregationType → Bool
  | all | any | countIf | sumIf | share | none => true
  | _ => false

def hasFilteredVariant : AggregationType → Bool
  | count | sum => true
  | _ => false

end AggregationType

structure AggregatorConfig (α : Type) where
  aggregation : AggregationType
  valueFilter : Option (ValueComparisonFilter α)
  /-- `AggregatorConfig::new` refuses a condition elsewhere. -/
  supported : valueFilter.isSome → aggregation.isFiltered ∨ aggregation.hasFilteredVariant

/-- `create_aggregator`; none for the types that have no mergeable state. -/
def AggregatorConfig.createAggregator (self : AggregatorConfig α) : Option (Aggregator α) :=
  match self.aggregation, self.valueFilter with
  | .count, some filter => some (.countIf (.new filter))
  | .countIf, filter => some (.countIf (.new (filter.getD .default)))
  | .sum, some filter => some (.sumIf (.new filter))
  | .sumIf, filter => some (.sumIf (.new (filter.getD .default)))
  | .avg, _ => some (.avg .new)
  | .count, none => some (.count 0)
  | .countAll, _ => some (.countAll 0)
  | .countNan, _ => some (.countNan 0)
  | .first, _ => some (.first none)
  | .last, _ => some (.last none)
  | .max, _ => some (.max none)
  | .min, _ => some (.min none)
  | .range, _ => some (.range ⟨ofNat 0, ofNat 0, false⟩)
  | .stdP, _ => some (.stdP .new)
  | .stdS, _ => some (.stdS .new)
  | .varP, _ => some (.varP .new)
  | .varS, _ => some (.varS .new)
  | .sum, none => some (.sum .new)
  | .increase, _ | .iRate, _ | .rate, _ | .all, _ | .any, _ | .none, _ | .share, _ => none

/-! ### Reducing a group -/

/-- What `SampleReducer` carries through the samples of one timestamp: the aggregator, and whether it has
taken a value. -/
def feed (state : Aggregator α × Bool) (value : α) : Aggregator α × Bool :=
  ((state.1.update value).1, state.2 || (state.1.update value).2)

def finalizeGroup (state : Aggregator α × Bool) : α := if state.2 then state.1.finalize else state.1.emptyGroupValue

def reduceGroup (aggregator : Aggregator α) (values : List α) : α :=
  finalizeGroup (values.foldl feed (aggregator.reset, false))

end ValkeyTimeSeries.Aggregators
