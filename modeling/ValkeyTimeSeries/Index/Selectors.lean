/-
Index/Selectors.lean

What the commands and the planner decide from the shape of filters: whether a selector is bounded
(`SeriesSelector::is_bounded`), and in which order the filters of a group are intersected (the comparator of
`postings_for_label_filters`).

Design.  A series matches a filter by the value of its label, which is the empty text where the label is
missing; boundedness is held against that reading.  The planner's sort (`Terms.sortBy`) reads nothing of the
comparator but "less" (`filterLess_eq`).
-/
import ValkeyTimeSeries.Index.Query

namespace ValkeyTimeSeries

/-! ### Bounded selectors -/

/-- The value of a label, empty where the series has no such label. -/
def IndexedSeries.labelValue (series : IndexedSeries) (label : Str) : Str :=
  ((series.labels.find? fun l => l.name = label).map Label.value).getD Str.empty

def LabelFilter.matchesSeries (self : LabelFilter) (series : IndexedSeries) : Bool :=
  self.matches (series.labelValue self.label)

def filterGroupIsBounded (filters : FilterList) : Bool :=
  filters.any fun f => !f.isNegativeMatcher && !f.matchesEmpty

namespace SeriesSelector

/-- Filters of a group are intersected, groups are united; without groups there is no condition. -/
def matchesSeries (self : SeriesSelector) (series : IndexedSeries) : Bool :=
  match self with
  | and filters => filters.all fun f => f.matchesSeries series
  | or groups => groups.isEmpty || groups.any fun filters => filters.all fun f => f.matchesSeries series

def isBounded : SeriesSelector → Bool
  | and filters => filterGroupIsBounded filters
  | or groups => !groups.isEmpty && groups.all filterGroupIsBounded

end SeriesSelector

theorem filterGroupIsBounded_unlabelled {filters : FilterList} (h : filterGroupIsBounded filters)
    {series : IndexedSeries}
    (hlabels : series.labels = []) : (filters.all fun f => f.matchesSeries series) = false := by
  obtain ⟨f, hf, hbounded⟩ := List.any_eq_true.mp h
  have hempty : f.matchesEmpty = false := by
    simp only [Bool.and_eq_true, Bool.not_eq_true'] at hbounded
    exact hbounded.2
  have hvalue : series.labelValue f.label = Str.empty := by
    rw [IndexedSeries.labelValue, hlabels]
    rfl
  rw [List.all_eq_false]
  refine ⟨f, hf, ?_⟩
  rw [LabelFilter.matchesSeries, hvalue, Bool.not_eq_true]
  exact hempty

/-- **A bounded selector matches no series without labels.** -/
theorem isBounded_unlabelled (selector : SeriesSelector) (h : selector.isBounded) (series : IndexedSeries)
    (hlabels : series.labels = []) : selector.matchesSeries series = false := by
  cases selector with
  | and filters => exact filterGroupIsBounded_unlabelled h hlabels
  | or groups =>
    simp only [SeriesSelector.isBounded, Bool.and_eq_true, Bool.not_eq_true', List.all_eq_true] at h
    obtain ⟨hgroups, hbounded⟩ := h
    rw [SeriesSelector.matchesSeries, hgroups, Bool.false_or, List.any_eq_false]
    intro filters hfilters
    rw [filterGroupIsBounded_unlabelled (hbounded filters hfilters) hlabels]
    exact Bool.false_ne_true

/-- One group with one filter `l=v`, with `=` for both texts. -/
theorem isBounded_unlabelled_or :
    (SeriesSelector.or [[⟨IndexKey.equals, .equal (.string IndexKey.equals)⟩]]).matchesSeries ⟨1, []⟩ = false :=
  isBounded_unlabelled _ (by decide) _ rfl

/-! ### The order of the filters -/

namespace Terms

/-- The comparator of the planner: a filter that intersects comes before one that subtracts; the
other way round their costs decide. -/
def compareFilters (i j : LabelFilter) : Ordering :=
  if !isSubtracting i && isSubtracting j then .lt else compare i.cost j.cost

theorem filterLess_eq (i j : LabelFilter) : filterLess i j = (compareFilters i j == .lt) := by
  unfold filterLess compareFilters
  split
  · rfl
  · rw [Bool.eq_iff_iff, decide_eq_true_iff, beq_iff_eq, Nat.compare_eq_lt]

/-- A comparator is a total preorder on these items. -/
structure Consistent {α : Type} (cmp : α → α → Ordering) (items : List α) : Prop where
  antisymm : ∀ i ∈ items, ∀ j ∈ items, cmp j i = (cmp i j).swap
  trans : ∀ i ∈ items, ∀ j ∈ items, ∀ k ∈ items, cmp i j ≠ .gt → cmp j k ≠ .gt → cmp i k ≠ .gt

/-- **The comparator is a total preorder exactly where every filter that intersects is cheaper than
every one that subtracts.** -/
theorem compareFilters_consistent_iff (filters : List LabelFilter) : Consistent compareFilters filters ↔
      ∀ i ∈ filters, ∀ j ∈ filters, isSubtracting i = false → isSubtracting j = true → i.cost < j.cost := by
  constructor
  · intro h i hi j hj hinter hsub
    have hlt : compareFilters i j = .lt := by
      rw [compareFilters, hinter, hsub]
      rfl
    have hgt := h.antisymm i hi j hj
    rw [hlt, compareFilters, hsub] at hgt
    exact Nat.compare_eq_gt.mp hgt
  · intro h
    -- the early return agrees with the costs
    have hcost : ∀ i ∈ filters, ∀ j ∈ filters, compareFilters i j = compare i.cost j.cost := by
      intro i hi j hj
      rw [compareFilters]
      split
      · next hcase =>
          simp only [Bool.and_eq_true, Bool.not_eq_true'] at hcase
          exact (Nat.compare_eq_lt.mpr (h i hi j hj hcase.1 hcase.2)).symm
      · rfl
    refine ⟨fun i hi j hj => ?_, fun i hi j hj k hk hij hjk => ?_⟩
    · rw [hcost j hj i hi, hcost i hi j hj]
      exact (Nat.compare_swap _ _).symm
    · rw [hcost i hi j hj, Nat.compare_ne_gt] at hij
      rw [hcost j hj k hk, Nat.compare_ne_gt] at hjk
      rw [hcost i hi k hk, Nat.compare_ne_gt]
      exact hij.trans hjk

/-- `a=(x,y)`, `b!=y` and `c=z`, with one text for all: each of the first two comes before the other. -/
theorem compareFilters_inconsistent :
    let text := IndexKey.equals
    let oneOf : LabelFilter := ⟨text, .equal (.list [text, text])⟩
    let other : LabelFilter := ⟨text, .notEqual (.string text)⟩
    compareFilters oneOf other = .lt ∧ compareFilters other oneOf = .lt ∧
      ¬ Consistent compareFilters [oneOf, other, ⟨text, .equal (.string text)⟩] := by
  refine ⟨by decide, by decide, fun h => ?_⟩
  have hgt := h.antisymm _ (.head _) _ (.tail _ (.head _))
  revert hgt
  decide

end Terms

end ValkeyTimeSeries
