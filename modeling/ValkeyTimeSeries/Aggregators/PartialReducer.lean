/-
Aggregators/PartialReducer.lean

The mergeable states a shard reduces its members of a group to (`aggregators/partial_reducer.rs`).
-/
import ValkeyTimeSeries.Aggregators.Handlers

namespace ValkeyTimeSeries.Aggregators

open Arith

inductive PartialReducerKind where
  | sum | sumIf | count | countIf | min | max | range | avg | stdP | stdS | varP | varS | first | last
deriving DecidableEq

structure PartialState (α : Type) where
  count : Nat
  acc1 : α
  acc2 : α
  acc1C : α
  ts : Int

inductive NanAcceptance where
  | reject | all | nanOnly
deriving DecidableEq

structure PartialReducer (α : Type) where
  kind : PartialReducerKind
  filter : Option (ValueComparisonFilter α)
  acceptance : NanAcceptance

variable {α : Type} [Arith α]

namespace PartialState

def default : PartialState α := ⟨0, ofNat 0, ofNat 0, ofNat 0, 0⟩

/-- The compensated sum in `acc1` and `acc1_c`. -/
def total (self : PartialState α) : KahanSum α := ⟨self.acc1, self.acc1C⟩

end PartialState

namespace PartialReducer

def forConfig (config : AggregatorConfig α) : Option (PartialReducer α) :=
  let reducer := fun kind acceptance => some ⟨kind, config.valueFilter, acceptance⟩
  match config.aggregation, config.valueFilter with
  | .sum, some _ => reducer .sumIf .reject
  | .count, some _ => reducer .countIf .reject
  | .sum, none => reducer .sum .reject
  | .sumIf, _ => reducer .sumIf .reject
  | .count, none => reducer .count .reject
  | .countIf, _ => reducer .countIf .reject
  | .countAll, _ => reducer .count .all
  | .countNan, _ => reducer .count .nanOnly
  | .min, _ => reducer .min .reject
  | .max, _ => reducer .max .reject
  | .range, _ => reducer .range .reject
  | .avg, _ => reducer .avg .reject
  | .stdP, _ => reducer .stdP .reject
  | .stdS, _ => reducer .stdS .reject
  | .varP, _ => reducer .varP .reject
  | .varS, _ => reducer .varS .reject
  | .first, _ => reducer .first .reject
  | .last, _ => reducer .last .reject
  -- they depend on the order of the values of one timestamp
  | .increase, _ | .iRate, _ => none
  -- the parser refuses them
  | .all, _ | .any, _ | .none, _ | .share, _ | .rate, _ => none

def accepts (self : PartialReducer α) (value : α) : Bool :=
  match self.acceptance with
  | .reject => !isNan value && self.filter.all (·.compare value)
  | .all => true
  | .nanOnly => isNan value

/-- `update`, once the value is accepted and counted. -/
def take (kind : PartialReducerKind) (firstValue : Bool) (s : PartialState α) (ts : Int) (value : α) :
    PartialState α :=
  match kind with
  | .sum | .sumIf | .avg => { s with acc1 := (s.total.incr value).sum, acc1C := (s.total.incr value).compensation }
  | .count | .countIf => s
  | .min => { s with acc1 := if firstValue then value else Arith.min s.acc1 value }
  | .max => { s with acc1 := if firstValue then value else Arith.max s.acc1 value }
  | .range =>
    if firstValue then { s with acc1 := value, acc2 := value }
    else { s with acc1 := Arith.min s.acc1 value, acc2 := Arith.max s.acc2 value }
  | .stdP | .stdS | .varP | .varS =>
    let delta := sub value s.acc1
    let mean := add s.acc1 (div delta (ofNat s.count))
    { s with acc1 := mean, acc2 := add s.acc2 (mul delta (sub value mean)) }
  | .first => if firstValue ∨ ts < s.ts then { s with acc1 := value, ts := ts } else s
  | .last => if firstValue ∨ s.ts ≤ ts then { s with acc1 := value, ts := ts } else s

def update (self : PartialReducer α) (s : PartialState α) (ts : Int) (value : α) : PartialState α :=
  if self.accepts value then take self.kind (s.count = 0) { s with count := s.count + 1 } ts value else s

def merge (kind : PartialReducerKind) (into other : PartialState α) : PartialState α :=
  if other.count = 0 then into
  else if into.count = 0 then other
  else
    let nA : α := ofNat into.count
    let nB : α := ofNat other.count
    let merged := { into with count := into.count + other.count }
    match kind with
    | .sum | .sumIf | .avg =>
      { merged with
        acc1 := (into.total.merge other.total).sum
        acc1C := (into.total.merge other.total).compensation }
    | .count | .countIf => merged
    | .min => { merged with acc1 := Arith.min into.acc1 other.acc1 }
    | .max => { merged with acc1 := Arith.max into.acc1 other.acc1 }
    | .range => { merged with acc1 := Arith.min into.acc1 other.acc1, acc2 := Arith.max into.acc2 other.acc2 }
    | .stdP | .stdS | .varP | .varS =>
      let n := add nA nB
      let delta := sub other.acc1 into.acc1
      { merged with
        acc1 := add into.acc1 (mul delta (div nB n))
        acc2 := add into.acc2 (add other.acc2 (mul (mul delta delta) (div (mul nA nB) n))) }
    | .first => if other.ts < into.ts then { merged with acc1 := other.acc1, ts := other.ts } else merged
    | .last => if into.ts ≤ other.ts then { merged with acc1 := other.acc1, ts := other.ts } else merged

/-- What a state finalizes to that accepted nothing. -/
def emptyResult : PartialReducerKind → α
  | .count | .countIf | .sumIf => ofNat 0
  | _ => nan

def finalize (kind : PartialReducerKind) (state : PartialState α) : α :=
  if state.count = 0 then emptyResult kind
  else
    let n : α := ofNat state.count
    match kind with
    | .sum | .sumIf => state.total.value
    | .min | .max | .first | .last => state.acc1
    | .count | .countIf => n
    | .range => sub state.acc2 state.acc1
    | .avg => div state.total.value n
    | .varP => div state.acc2 n
    | .varS => if state.count = 1 then ofNat 0 else div state.acc2 (sub n (ofNat 1))
    | .stdP => sqrt (div state.acc2 n)
    | .stdS => if state.count = 1 then ofNat 0 else sqrt (div state.acc2 (sub n (ofNat 1)))

def partialState (self : PartialReducer α) (ts : Int) (values : List α) : PartialState α :=
  values.foldl (self.update · ts ·) .default

/-- The states of several shards, merged as they arrive. -/
def mergeAll (kind : PartialReducerKind) (states : List (PartialState α)) : PartialState α :=
  states.foldl (merge kind) .default

end PartialReducer

end ValkeyTimeSeries.Aggregators
