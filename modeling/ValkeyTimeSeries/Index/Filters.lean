/-
Index/Filters.lean

Label filters (`labels/filters.rs`): what a filter asks of the value of one label.

Design.  A compiled regex is its text and the set of texts it matches, which is not opened; the hints that are
checked before it runs (a literal at the start, one at the end, literals that must occur in order) are kept as
the source has them.
-/
import ValkeyTimeSeries.Common.Utf8

namespace ValkeyTimeSeries

namespace Str

def empty : Str := ⟨[], rfl⟩

def isEmpty (s : Str) : Bool := s.bytes.isEmpty

def startsWith (value s : Str) : Bool := s.bytes.isPrefixOf value.bytes

def afterFirst (needle : Bytes) : Bytes → Option Bytes
  | [] => if needle.isEmpty then some [] else none
  | b :: s => if needle.isPrefixOf (b :: s) then some ((b :: s).drop needle.length) else afterFirst needle s

def contains (value needle : Str) : Bool := (afterFirst needle.bytes value.bytes).isSome

end Str

/-! ### Values -/

inductive PredicateValue where
  | empty
  | list (values : List Str)
  | string (value : Str)
deriving DecidableEq

namespace PredicateValue

def «matches» (self : PredicateValue) (value : Str) : Bool :=
  match self with
  | empty => value.isEmpty
  | string s => s = value
  | list values => if value.isEmpty then values.isEmpty else values.contains value

def isEmpty : PredicateValue → Bool
  | list values => values.isEmpty
  | string value => value.isEmpty
  | empty => true

/-- The shape of the four checks below: no value may be empty. -/
def matchesValues (self : PredicateValue) (one : Str → Bool) (many : List Str → Bool) : Bool :=
  match self with
  | empty => false
  | string s => !s.isEmpty && one s
  | list values => !values.isEmpty && values.all (fun needle => !needle.isEmpty) && many values

def matchesContainsAny (self : PredicateValue) (value : Str) : Bool :=
  self.matchesValues value.contains fun values => values.any value.contains

def matchesNotContainsAll (self : PredicateValue) (value : Str) : Bool :=
  self.matchesValues (fun s => !value.contains s) fun values => values.all fun s => !value.contains s

def matchesStartsWithAny (self : PredicateValue) (value : Str) : Bool :=
  self.matchesValues value.startsWith fun values => values.any value.startsWith

def matchesNotStartsWithAll (self : PredicateValue) (value : Str) : Bool :=
  self.matchesValues (fun s => !value.startsWith s) fun values => values.all fun s => !value.startsWith s

def cost : PredicateValue → Nat
  | empty => 0
  | string _ => 1
  | list values => values.length

end PredicateValue

/-! ### Regexes -/

structure Regex where
  /-- `as_str`. -/
  text : String
  isMatch : Str → Bool

structure RegexMatcher where
  regex : Regex
  /-- A literal every match starts with. -/
  literalStart : Option Str
  suffix : Option Str
  requiredLiterals : List Str
  /-- The text of the filter, possibly not anchored. -/
  value : String

def isEmptyRegexMatcher (re : Regex) : Bool :=
  ["", "^", "$", ".*", "^$", "?:", "^.*", ".*$", "^.*$", "^?:$"].contains re.text || re.isMatch Str.empty

namespace RegexMatcher

def matchesRequiredLiterals : List Str → Bytes → Bool
  | [], _ => true
  | literal :: literals, haystack =>
    if literal.isEmpty then matchesRequiredLiterals literals haystack
    else match Str.afterFirst literal.bytes haystack with
      | none => false
      | some rest => matchesRequiredLiterals literals rest

def isMatch (self : RegexMatcher) (other : Str) : Bool :=
  if other.isEmpty then
    if self.literalStart.any (fun start => !start.isEmpty) then false else isEmptyRegexMatcher self.regex
  else if self.literalStart.any (fun start => !other.startsWith start) then false
  else
    let remainder := other.bytes.drop (self.literalStart.elim 0 (·.bytes.length))
    if self.suffix.any (fun suffix => !suffix.bytes.isSuffixOf remainder) then false
    else matchesRequiredLiterals self.requiredLiterals remainder && self.regex.isMatch other

def cost (self : RegexMatcher) : Nat :=
  match self.literalStart.isSome, self.suffix.isSome, self.requiredLiterals.isEmpty with
  | true, true, false => 12
  | true, true, true => 14
  | true, false, false | false, true, false => 16
  | true, false, true | false, true, true => 18
  | false, false, false => 30
  | false, false, true => 50

end RegexMatcher

/-! ### Filters -/

inductive PredicateMatch where
  | equal (value : PredicateValue)
  | notEqual (value : PredicateValue)
  | matchAll
  | matchNone
  | regexEqual (re : RegexMatcher)
  | regexNotEqual (re : RegexMatcher)
  | startsWith (value : PredicateValue)
  | notStartsWith (value : PredicateValue)
  | contains (value : PredicateValue)
  | notContains (value : PredicateValue)

namespace PredicateMatch

def isEmpty : PredicateMatch → Bool
  | equal value | notEqual value | startsWith value | notStartsWith value | contains value | notContains value =>
    value.isEmpty
  | matchAll | matchNone => false
  | regexEqual re | regexNotEqual re => re.regex.text.isEmpty

def «matches» (self : PredicateMatch) (other : Str) : Bool :=
  match self with
  | equal value => value.matches other
  | notEqual value => !value.matches other
  | matchAll => true
  | matchNone => false
  | regexEqual re => re.isMatch other
  | regexNotEqual re => !re.isMatch other
  | startsWith value => value.matchesStartsWithAny other
  | notStartsWith value => value.matchesNotStartsWithAll other
  | contains value => value.matchesContainsAny other
  | notContains value => value.matchesNotContainsAll other

def inverse : PredicateMatch → PredicateMatch
  | equal value => notEqual value
  | notEqual value => equal value
  | matchAll => matchNone
  | matchNone => matchAll
  | regexEqual re => regexNotEqual re
  | regexNotEqual re => regexEqual re
  | startsWith value => notStartsWith value
  | notStartsWith value => startsWith value
  | contains value => notContains value
  | notContains value => contains value

def cost : PredicateMatch → Nat
  | equal value | notEqual value => value.cost
  | matchAll | matchNone => 0
  | regexEqual re => re.cost
  | regexNotEqual re => re.cost + 5
  | startsWith value | notStartsWith value => 10 + value.cost
  | contains value => 20 + value.cost
  | notContains value => 25 + value.cost

end PredicateMatch

structure LabelFilter where
  label : Str
  matcher : PredicateMatch

namespace LabelFilter

def «matches» (self : LabelFilter) (value : Str) : Bool := self.matcher.matches value

def matchesEmpty (self : LabelFilter) : Bool := self.matches Str.empty

def isNegativeMatcher (self : LabelFilter) : Bool :=
  match self.matcher with
  | .notEqual _ | .regexNotEqual _ | .notStartsWith _ | .notContains _ => true
  | _ => false

def inverse (self : LabelFilter) : LabelFilter := { self with matcher := self.matcher.inverse }

def cost (self : LabelFilter) : Nat := self.matcher.cost

end LabelFilter

abbrev FilterList := List LabelFilter

inductive SeriesSelector where
  | or (filters : List FilterList)
  | and (filters : FilterList)

end ValkeyTimeSeries
