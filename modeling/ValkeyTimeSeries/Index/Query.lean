/-
Index/Query.lean

Reading the index: term lookups (`terms.rs`), one filter (`predicate.rs`), the planner that puts
filters and selectors together (`planner.rs`).

Design.  A query is handed a view of three parts, the lists, the tombstones and the live ids.  Every
lookup is a scan of the lists followed by a mask, so all that a query can depend on is which ids
are live and which unmasked id is in which list (`Terms.Alike`), and all that it can answer is an
id that is one or the other (`Terms.Seen`).
-/
import ValkeyTimeSeries.Index.Filters
import ValkeyTimeSeries.Index.Postings

namespace ValkeyTimeSeries

open List

namespace IndexKey

/-- The bytes of a key, with the one that ends it. -/
def bytes (self : IndexKey) : Bytes := self.text.bytes ++ [0]

/-- The text from a position on.  The position is behind a label name and its `=`, where no
character is cut, so there is nothing to repair. -/
def subString (self : IndexKey) (start : Nat) : Str := Str.fromUtf8Lossy (self.text.bytes.drop start)

def split (self : IndexKey) : Option (Str × Str) :=
  match self.text.bytes.span (· ≠ 0x3D) with
  | (name, _ :: value) => some (Str.fromUtf8Lossy name, Str.fromUtf8Lossy value)
  | (_, []) => none

/-- No character is cut by `split`: the key is made of the parts, and the name has no `=`. -/
theorem split_spec {self : IndexKey} {name value : Str} (h : self.split = some (name, value)) :
    self = forLabelValue name value ∧ 0x3D ∉ name.bytes := by
  have hfree : 0x3D ∉ self.text.bytes.takeWhile (· ≠ 0x3D) := fun hmem => by
    simpa using mem_takeWhile_imp hmem
  unfold split at h
  rw [span_eq_takeWhile_dropWhile] at h
  generalize htake : self.text.bytes.takeWhile (· ≠ 0x3D) = front at h hfree
  cases hdrop : self.text.bytes.dropWhile (· ≠ 0x3D) with
  | nil => rw [hdrop] at h; cases h
  | cons c back =>
    rw [hdrop] at h
    obtain ⟨rfl, rfl⟩ := Prod.mk.inj (Option.some.inj h)
    have hc : c = 0x3D := by
      have hhead := head?_dropWhile_not (· ≠ 0x3D) self.text.bytes
      rw [hdrop] at hhead
      simpa using hhead
    have hbytes : self.text.bytes = front ++ 0x3D :: back := by
      have hall := takeWhile_append_dropWhile (p := (· ≠ 0x3D)) (l := self.text.bytes)
      rw [htake, hdrop, hc] at hall
      exact hall.symm
    obtain ⟨hfront, hback⟩ := Utf8.validFrom_cut (by simp) (by decide) (hbytes ▸ self.text.valid)
    have hlossy : (Str.fromUtf8Lossy front).bytes = front := Utf8.lossy_of_valid hfront
    have hlossy' : (Str.fromUtf8Lossy back).bytes = back := Utf8.lossy_of_valid hback
    have htext : self.text = ((Str.fromUtf8Lossy front).append equals).append (Str.fromUtf8Lossy back) := by
      apply Str.ext_bytes
      rw [hbytes]
      simp only [Str.append, hlossy, hlossy', equals, append_assoc, singleton_append]
    refine ⟨?_, hlossy.symm ▸ hfree⟩
    cases self
    exact congrArg IndexKey.mk htext

theorem bytes_forLabelValue (name value : Str) :
    (forLabelValue name value).text.bytes = name.bytes ++ 0x3D :: value.bytes := by
  simp only [forLabelValue, Str.append, equals, append_assoc, singleton_append]

end IndexKey

def metricNameLabel : Str := ⟨[0x5F, 0x5F, 0x6E, 0x61, 0x6D, 0x65, 0x5F, 0x5F], by decide⟩

def forPrefix (label : Str) : Bytes := label.bytes ++ IndexKey.equals.bytes

def forLabelValuePrefix (label start : Str) : Bytes := forPrefix label ++ start.bytes

/-! ### Terms -/

structure Terms where
  index : SortedMap IndexKey PostingsBitmap
  stale : StaleSet
  all : PostingsBitmap

def Postings.terms (self : Postings) : Terms := ⟨self.labelIndex, self.staleIds, self.allPostings⟩

namespace Terms

/-- The masked union of the lists whose keys start with `search` and pass `keep`. -/
def scan (self : Terms) (search : Bytes) (keep : IndexKey → Bool) : PostingsBitmap :=
  self.stale.mask <| self.index.entries.foldl
    (fun result entry => if search.isPrefixOf entry.1.bytes && keep entry.1 then result ∪ entry.2 else result) ∅

def postingsForKey (self : Terms) (key : IndexKey) : PostingsBitmap :=
  match self.index.get? key with
  | some bitmap => self.stale.mask bitmap
  | none => ∅

def postingsForLabelValue (self : Terms) (name value : Str) : PostingsBitmap :=
  self.postingsForKey (.forLabelValue name value)

def postingsForAllLabelValues (self : Terms) (name : Str) : PostingsBitmap :=
  self.scan (forPrefix name) fun _ => true

def postingsForLabelValues (self : Terms) (name : Str) (values : List Str) : PostingsBitmap :=
  self.stale.mask <| values.foldl
    (fun result value => result ∪ (self.index.get? (.forLabelValue name value)).getD ∅) ∅

def postingsForLabelMatching (self : Terms) (name : Str) (matchFn : Str → Bool) : PostingsBitmap :=
  self.scan (forPrefix name) fun key => matchFn (key.subString (forPrefix name).length)

def postingsByPrefix (self : Terms) (label start : Str) : PostingsBitmap :=
  self.scan (forLabelValuePrefix label start) fun _ => true

def postingsByPrefixAndPredicate (self : Terms) (label start : Str) (predicate : Str → Bool) : PostingsBitmap :=
  self.scan (forLabelValuePrefix label start) fun key => predicate (key.subString (label.bytes.length + 1))

def postingsWithoutLabel (self : Terms) (label : Str) : PostingsBitmap :=
  let toRemove := self.postingsForAllLabelValues label
  if toRemove = ∅ then self.all else self.all \ toRemove

/-! ### One filter -/

def handleEqualMatch (ix : Terms) (label : Str) (value : PredicateValue) : PostingsBitmap :=
  match value with
  | .string s => if s.isEmpty then ix.postingsWithoutLabel label else ix.postingsForLabelValue label s
  | .list [] => ix.postingsWithoutLabel label
  | .list [s] => if s.isEmpty then ix.postingsWithoutLabel label else ix.postingsForLabelValue label s
  | .list values =>
    let nonEmptyValues := values.filter fun s => !s.isEmpty
    if nonEmptyValues.isEmpty then ix.postingsWithoutLabel label
    else
      let result := ix.postingsForLabelValues label nonEmptyValues
      -- an empty alternative stands for the series without the label
      if values.any Str.isEmpty then result ∪ ix.postingsWithoutLabel label else result
  | .empty => ix.postingsWithoutLabel label

def withLabel (ix : Terms) (label : Str) : PostingsBitmap := ix.postingsForLabelMatching label fun _ => true

def handleNotEqualMatch (ix : Terms) (label : Str) (value : PredicateValue) : PostingsBitmap :=
  match value with
  | .string s => if s.isEmpty then ix.withLabel label else ix.all \ ix.postingsForLabelValue label s
  | .list [] => ix.withLabel label
  | .list values => ix.all \ ix.postingsForLabelValues label values
  | .empty => ix.withLabel label

def handleRegexEqualMatch (ix : Terms) (label : Str) (re : RegexMatcher) : PostingsBitmap :=
  if re.isMatch Str.empty then ix.postingsWithoutLabel label
  else match re.literalStart with
    | some start => ix.postingsByPrefixAndPredicate label start re.isMatch
    | none => ix.postingsForLabelMatching label re.isMatch

def handleRegexNotEqualMatch (ix : Terms) (label : Str) (re : RegexMatcher) : PostingsBitmap :=
  if !re.isMatch Str.empty then ix.withLabel label
  else ix.postingsForLabelMatching label fun value => !re.isMatch value

def postingsByPrefixValue (ix : Terms) (label : Str) (value : PredicateValue) : PostingsBitmap :=
  match value with
  | .empty => ∅
  | .string start => ix.postingsByPrefix label start
  | .list starts => starts.foldl (fun result start => result ∪ ix.postingsByPrefix label start) ∅

def handleContains (ix : Terms) (label : Str) (value : PredicateValue) : PostingsBitmap :=
  ix.postingsForLabelMatching label value.matchesContainsAny

def postingsForFilter (self : Terms) (filter : LabelFilter) : PostingsBitmap :=
  match filter.matcher with
  | .equal value => self.handleEqualMatch filter.label value
  | .notEqual value => self.handleNotEqualMatch filter.label value
  | .matchAll => self.all
  | .matchNone => ∅
  | .regexEqual re => self.handleRegexEqualMatch filter.label re
  | .regexNotEqual re => self.handleRegexNotEqualMatch filter.label re
  | .startsWith start => self.postingsByPrefixValue filter.label start
  | .notStartsWith start => self.all \ self.postingsByPrefixValue filter.label start
  | .contains needle => self.handleContains filter.label needle
  | .notContains needle => self.all \ self.handleContains filter.label needle

def inversePostingsForFilter (self : Terms) (filter : LabelFilter) : PostingsBitmap :=
  let notMatching := self.postingsForLabelMatching filter.label fun value => !filter.matches value
  match filter.matcher with
  | .notEqual value => self.handleEqualMatch filter.label value
  | .equal (.string s) => if s.isEmpty then self.postingsForAllLabelValues filter.label else notMatching
  | .matchAll => ∅
  | .matchNone => self.all
  | .regexEqual re =>
    if re.regex.text = "" ∨ re.regex.text = ".*" then self.postingsForAllLabelValues filter.label
    else notMatching
  | .startsWith start =>
    self.postingsForAllLabelValues filter.label \ self.postingsByPrefixValue filter.label start
  | .notStartsWith start => self.postingsByPrefixValue filter.label start
  | .contains needle => self.postingsForAllLabelValues filter.label \ self.handleContains filter.label needle
  | .notContains needle => self.handleContains filter.label needle
  | _ => notMatching

/-! ### The planner -/

inductive Contribution where
  | skip
  /-- No series can match. -/
  | nothing
  | intersect (postings : PostingsBitmap)
  | subtract (postings : PostingsBitmap)

def missingFilter : String := "TSDB: please provide at least one matcher"

/-- Postings to intersect with, where there are any. -/
def Contribution.ofPostings (postings : PostingsBitmap) : Contribution :=
  if postings = ∅ then .nothing else .intersect postings

def contributionOf (self : Terms) (filter : LabelFilter) : Contribution :=
  if filter.matchesEmpty then .subtract (self.inversePostingsForFilter filter)
  else if filter.isNegativeMatcher then .ofPostings (self.inversePostingsForFilter filter.inverse)
  else .ofPostings (self.postingsForFilter filter)

/-- The body of the planner's loop. -/
def contribution (self : Terms) (filter : LabelFilter) : Except String Contribution :=
  if filter.label.isEmpty && filter.matchesEmpty then .error missingFilter
  else match filter.matcher with
    | .matchAll => .ok .skip
    | .matchNone => .ok .nothing
    | .regexEqual re =>
      if re.value = ".*" then .ok .skip
      else if re.value = ".+" then .ok (.intersect (self.postingsForAllLabelValues filter.label))
      else .ok (self.contributionOf filter)
    | .regexNotEqual re =>
      if re.value = ".*" then .ok .nothing
      else if re.value = ".+" then .ok (.subtract (self.postingsForAllLabelValues filter.label))
      else .ok (self.contributionOf filter)
    | .notEqual value =>
      if value.isEmpty then .ok (.ofPostings (self.postingsForAllLabelValues filter.label))
      else .ok (self.contributionOf filter)
    | _ => .ok (self.contributionOf filter)

/-- The planner's loop: the sets to intersect and to subtract, `none` where it returns early with
no series. -/
def gather (self : Terms) :
    List LabelFilter → List PostingsBitmap → List PostingsBitmap →
      Except String (Option (List PostingsBitmap × List PostingsBitmap))
  | [], its, notIts => .ok (some (its, notIts))
  | filter :: filters, its, notIts => do
      match ← self.contribution filter with
      | .skip => self.gather filters its notIts
      | .nothing => .ok none
      | .intersect postings => self.gather filters (its ++ [postings]) notIts
      | .subtract postings => self.gather filters its (notIts ++ [postings])

def isSubtracting (filter : LabelFilter) : Bool := filter.matchesEmpty || filter.isNegativeMatcher

/-- The order of the filters.  It is no order where a filter that subtracts meets one that does
not and is cheaper. -/
def filterLess (i j : LabelFilter) : Bool :=
  if !isSubtracting i && isSubtracting j then true else i.cost < j.cost

/-- Insert into a list that is kept last element first, as an insertion sort shifts. -/
def insertBack {α : Type} (less : α → α → Bool) (x : α) : List α → List α
  | [] => [x]
  | y :: ys => if less x y then y :: insertBack less x ys else x :: y :: ys

def sortBy {α : Type} (less : α → α → Bool) (l : List α) : List α :=
  (l.foldl (fun sorted x => insertBack less x sorted) []).reverse

/-- Intersect, with a way out where a set is empty. -/
def intersectFrom (result : PostingsBitmap) : List PostingsBitmap → PostingsBitmap
  | [] => result
  | it :: its => if it = ∅ then ∅ else intersectFrom (result ∩ it) its

def intersection : List PostingsBitmap → PostingsBitmap
  | [] => ∅
  | it :: its => intersectFrom it its

def assemble (self : Terms) (its notIts : List PostingsBitmap) : PostingsBitmap :=
  let result :=
    if its.isEmpty then self.all
    else intersection (sortBy (fun a b => a.card < b.card) its)
  notIts.foldl (fun result it => result \ it) result

/-- The answer without a plan, for no filter and for a single one. -/
def shortcut (self : Terms) : List LabelFilter → Option PostingsBitmap
  | [] => some self.all
  | [filter] =>
    if filter.label.isEmpty && filter.matcher.isEmpty then some self.all
    else if !filter.isNegativeMatcher && !filter.matchesEmpty then some (self.postingsForFilter filter)
    else none
  | _ => none

def postingsForLabelFilters (self : Terms) (filters : List LabelFilter) : Except String PostingsBitmap :=
  match self.shortcut filters with
  | some postings => .ok postings
  | none => do
      -- with nothing to subtract from, subtract from everything
      let its := if filters.all isSubtracting then [self.all] else []
      match ← self.gather (sortBy filterLess filters) its [] with
      | none => .ok ∅
      | some (its, notIts) => .ok (self.assemble its notIts)

def processOrMatchers (self : Terms) (filters : List FilterList) : Except String PostingsBitmap :=
  match filters with
  | [] => .ok self.all
  | [filters] => self.postingsForLabelFilters filters
  | _ => filters.foldlM (fun result matchers => do
      let postings ← self.postingsForLabelFilters matchers
      pure (result ∪ postings)) ∅

def postingsForSelector (self : Terms) : SeriesSelector → Except String PostingsBitmap
  | .and filters => self.postingsForLabelFilters filters
  | .or filters => self.processOrMatchers filters

def intersectSelectors (self : Terms) (result : PostingsBitmap) :
    List SeriesSelector → Except String PostingsBitmap
  | [] => .ok result
  | selector :: selectors => do
      let bitmap ← self.postingsForSelector selector
      self.intersectSelectors (result ∩ bitmap) selectors

def postingsForSelectors (self : Terms) : List SeriesSelector → Except String PostingsBitmap
  | [] => .ok ∅
  | selector :: selectors => do
      let first ← self.postingsForSelector selector
      let result ← self.intersectSelectors first selectors
      .ok (self.stale.mask result)

/-! ### What a lookup reads -/

def At (self : Terms) (key : IndexKey) (id : SeriesRef) : Prop :=
  id ∈ (self.index.get? key).getD ∅ ∧ id ∉ self.stale.ids

def Seen (self : Terms) (id : SeriesRef) : Prop := id ∈ self.all ∨ ∃ key, self.At key id

/-- Views that differ at most in what is masked. -/
structure Alike (t t' : Terms) : Prop where
  all : t.all = t'.all
  at_iff : ∀ key id, t.At key id ↔ t'.At key id

section Lookups

variable {t t' : Terms} {id : SeriesRef}

theorem mem_scan {search : Bytes} {keep : IndexKey → Bool} : id ∈ t.scan search keep ↔
    ∃ key, t.At key id ∧ search.isPrefixOf key.bytes = true ∧ keep key = true := by
  have hfold : ∀ (entries : List (IndexKey × PostingsBitmap)) (result : PostingsBitmap),
      id ∈ entries.foldl (fun result entry =>
          if search.isPrefixOf entry.1.bytes && keep entry.1 then result ∪ entry.2 else result) result ↔
        id ∈ result ∨ ∃ entry ∈ entries, id ∈ entry.2 ∧ search.isPrefixOf entry.1.bytes = true ∧
          keep entry.1 = true := by
    intro entries
    induction entries with
    | nil => simp
    | cons entry entries ih =>
      intro result
      rw [foldl_cons, ih]
      simp only [mem_cons, exists_eq_or_imp]
      split
      · next h =>
          rw [Bool.and_eq_true] at h
          simp [h, or_assoc]
      · next h =>
          rw [Bool.and_eq_true] at h
          tauto
  rw [scan, StaleSet.mem_mask, hfold]
  simp only [Finset.notMem_empty, false_or, Prod.exists]
  constructor
  · rintro ⟨⟨key, bitmap, hentry, hid, hkeep⟩, hstale⟩
    refine ⟨key, ⟨?_, hstale⟩, hkeep⟩
    rw [SortedMap.get?_eq_some_iff.mpr hentry]
    exact hid
  · rintro ⟨key, ⟨hid, hstale⟩, hkeep⟩
    cases hget : t.index.get? key with
    | none => simp [hget] at hid
    | some bitmap =>
      rw [hget] at hid
      exact ⟨⟨key, bitmap, SortedMap.get?_eq_some_iff.mp hget, hid, hkeep⟩, hstale⟩

theorem mem_postingsForKey {key : IndexKey} : id ∈ t.postingsForKey key ↔ t.At key id := by
  rw [postingsForKey, At]
  cases t.index.get? key <;> simp

theorem mem_postingsForLabelValues {name : Str} {values : List Str} :
    id ∈ t.postingsForLabelValues name values ↔ ∃ value ∈ values, t.At (.forLabelValue name value) id := by
  have hfold : ∀ result : PostingsBitmap, id ∈ values.foldl
      (fun result value => result ∪ (t.index.get? (.forLabelValue name value)).getD ∅) result ↔
        id ∈ result ∨ ∃ value ∈ values, id ∈ (t.index.get? (.forLabelValue name value)).getD ∅ := by
    induction values with
    | nil => simp
    | cons value values ih =>
      intro result
      rw [foldl_cons, ih]
      simp [or_assoc]
  rw [postingsForLabelValues, StaleSet.mem_mask, hfold]
  simp only [Finset.notMem_empty, false_or]
  exact ⟨fun ⟨⟨v, hv, hid⟩, hs⟩ => ⟨v, hv, hid, hs⟩, fun ⟨v, hv, hid, hs⟩ => ⟨⟨v, hv, hid⟩, hs⟩⟩

namespace Alike

variable (h : Alike t t')
include h

theorem scan (search : Bytes) (keep : IndexKey → Bool) : t.scan search keep = t'.scan search keep := by
  ext id
  simp only [mem_scan, h.at_iff]

theorem postingsForKey (key : IndexKey) : t.postingsForKey key = t'.postingsForKey key := by
  ext id
  simp only [mem_postingsForKey, h.at_iff]

theorem postingsForLabelValues (name : Str) (values : List Str) :
    t.postingsForLabelValues name values = t'.postingsForLabelValues name values := by
  ext id
  simp only [mem_postingsForLabelValues, h.at_iff]

theorem postingsWithoutLabel (label : Str) : t.postingsWithoutLabel label = t'.postingsWithoutLabel label := by
  have hvalues : t.postingsForAllLabelValues label = t'.postingsForAllLabelValues label := h.scan ..
  rw [Terms.postingsWithoutLabel, Terms.postingsWithoutLabel, hvalues, h.all]

theorem postingsByPrefixValue (label : Str) (value : PredicateValue) :
    t.postingsByPrefixValue label value = t'.postingsByPrefixValue label value := by
  cases value <;> simp only [Terms.postingsByPrefixValue, postingsByPrefix, h.scan]

theorem handleEqualMatch (label : Str) (value : PredicateValue) :
    t.handleEqualMatch label value = t'.handleEqualMatch label value := by
  unfold Terms.handleEqualMatch
  simp only [h.postingsWithoutLabel, postingsForLabelValue, h.postingsForKey, h.postingsForLabelValues]

variable (filter : LabelFilter)

theorem postingsForFilter : t.postingsForFilter filter = t'.postingsForFilter filter := by
  unfold Terms.postingsForFilter handleNotEqualMatch handleRegexEqualMatch handleRegexNotEqualMatch handleContains
    withLabel postingsByPrefixAndPredicate postingsForLabelMatching
  simp only [h.handleEqualMatch, h.postingsWithoutLabel, postingsForLabelValue, h.postingsForKey,
    h.postingsForLabelValues, h.postingsByPrefixValue, h.scan, h.all]

theorem inversePostingsForFilter :
    t.inversePostingsForFilter filter = t'.inversePostingsForFilter filter := by
  unfold Terms.inversePostingsForFilter handleContains postingsForAllLabelValues postingsForLabelMatching
  simp only [h.handleEqualMatch, h.postingsByPrefixValue, h.scan, h.all]

theorem contribution : t.contribution filter = t'.contribution filter := by
  unfold Terms.contribution contributionOf postingsForAllLabelValues
  simp only [h.postingsForFilter, h.inversePostingsForFilter, h.scan]

theorem gather (filters : List LabelFilter) (its notIts : List PostingsBitmap) :
    t.gather filters its notIts = t'.gather filters its notIts := by
  induction filters generalizing its notIts with
  | nil => rfl
  | cons filter filters ih => simp only [Terms.gather, h.contribution, ih]

theorem postingsForLabelFilters (filters : List LabelFilter) :
    t.postingsForLabelFilters filters = t'.postingsForLabelFilters filters := by
  have hshort : t.shortcut filters = t'.shortcut filters := by
    unfold shortcut
    simp only [h.postingsForFilter, h.all]
  unfold Terms.postingsForLabelFilters assemble
  simp only [hshort, h.gather, h.all]

theorem postingsForSelector (selector : SeriesSelector) :
    t.postingsForSelector selector = t'.postingsForSelector selector := by
  cases selector <;>
    simp only [Terms.postingsForSelector, processOrMatchers, h.postingsForLabelFilters, h.all]

end Alike

/-! ### What a query can answer -/

private theorem scan_seen {search : Bytes} {keep : IndexKey → Bool} (h : id ∈ t.scan search keep) : t.Seen id := by
  obtain ⟨key, hat, _⟩ := mem_scan.mp h
  exact Or.inr ⟨key, hat⟩

private theorem postingsForLabelValue_seen {name value : Str} (h : id ∈ t.postingsForLabelValue name value) :
    t.Seen id :=
  Or.inr ⟨_, mem_postingsForKey.mp h⟩

private theorem postingsForLabelValues_seen {name : Str} {values : List Str}
    (h : id ∈ t.postingsForLabelValues name values) : t.Seen id := by
  obtain ⟨value, _, hat⟩ := mem_postingsForLabelValues.mp h
  exact Or.inr ⟨_, hat⟩

variable {label : Str}

private theorem postingsWithoutLabel_seen (h : id ∈ t.postingsWithoutLabel label) : t.Seen id := by
  rw [postingsWithoutLabel] at h
  split at h
  · exact Or.inl h
  · exact Or.inl (Finset.mem_sdiff.mp h).1

variable {value : PredicateValue}

private theorem handleEqualMatch_seen (h : id ∈ t.handleEqualMatch label value) : t.Seen id := by
  unfold handleEqualMatch at h
  split at h
  · split at h
    · exact postingsWithoutLabel_seen h
    · exact postingsForLabelValue_seen h
  · exact postingsWithoutLabel_seen h
  · split at h
    · exact postingsWithoutLabel_seen h
    · exact postingsForLabelValue_seen h
  · dsimp only at h
    split at h
    · exact postingsWithoutLabel_seen h
    · split at h
      · rcases Finset.mem_union.mp h with h | h
        · exact postingsForLabelValues_seen h
        · exact postingsWithoutLabel_seen h
      · exact postingsForLabelValues_seen h
  · exact postingsWithoutLabel_seen h

private theorem postingsByPrefixValue_seen (h : id ∈ t.postingsByPrefixValue label value) : t.Seen id := by
  have hfold : ∀ (starts : List Str) (result : PostingsBitmap), (id ∈ result → t.Seen id) →
      id ∈ starts.foldl (fun result start => result ∪ t.postingsByPrefix label start) result → t.Seen id := by
    intro starts
    induction starts with
    | nil => exact fun _ hresult h => hresult h
    | cons start starts ih =>
      intro result hresult
      exact ih _ fun h => (Finset.mem_union.mp h).elim hresult scan_seen
  cases value with
  | empty => exact absurd h (Finset.notMem_empty _)
  | string start => exact scan_seen h
  | list starts => exact hfold starts ∅ (fun h => absurd h (Finset.notMem_empty _)) h

private theorem sdiff_all_seen {s : PostingsBitmap} (h : id ∈ t.all \ s) : t.Seen id :=
  Or.inl (Finset.mem_sdiff.mp h).1

private theorem handleNotEqualMatch_seen (h : id ∈ t.handleNotEqualMatch label value) : t.Seen id := by
  unfold handleNotEqualMatch at h
  split at h
  · split at h
    · exact scan_seen h
    · exact sdiff_all_seen h
  · exact scan_seen h
  · exact sdiff_all_seen h
  · exact scan_seen h

private theorem handleRegexEqualMatch_seen {re : RegexMatcher}
    (h : id ∈ t.handleRegexEqualMatch label re) : t.Seen id := by
  unfold handleRegexEqualMatch at h
  split at h
  · exact postingsWithoutLabel_seen h
  · split at h <;> exact scan_seen h

private theorem handleRegexNotEqualMatch_seen {re : RegexMatcher}
    (h : id ∈ t.handleRegexNotEqualMatch label re) : t.Seen id := by
  unfold handleRegexNotEqualMatch at h
  split at h <;> exact scan_seen h

variable {filter : LabelFilter}

theorem postingsForFilter_seen (h : id ∈ t.postingsForFilter filter) : t.Seen id := by
  unfold postingsForFilter at h
  split at h
  · exact handleEqualMatch_seen h
  · exact handleNotEqualMatch_seen h
  · exact Or.inl h
  · exact absurd h (Finset.notMem_empty _)
  · exact handleRegexEqualMatch_seen h
  · exact handleRegexNotEqualMatch_seen h
  · exact postingsByPrefixValue_seen h
  · exact sdiff_all_seen h
  · exact scan_seen h
  · exact sdiff_all_seen h

theorem inversePostingsForFilter_seen (h : id ∈ t.inversePostingsForFilter filter) : t.Seen id := by
  unfold inversePostingsForFilter at h
  split at h
  · exact handleEqualMatch_seen h
  · split at h <;> exact scan_seen h
  · exact absurd h (Finset.notMem_empty _)
  · exact Or.inl h
  · split at h <;> exact scan_seen h
  · exact scan_seen (Finset.mem_sdiff.mp h).1
  · exact postingsByPrefixValue_seen h
  · exact scan_seen (Finset.mem_sdiff.mp h).1
  · exact scan_seen h
  · exact scan_seen h

variable {postings : PostingsBitmap}

private theorem ofPostings_eq {s : PostingsBitmap} (h : Contribution.ofPostings s = .intersect postings) :
    postings = s := by
  rw [Contribution.ofPostings] at h
  split at h
  · cases h
  · exact (Contribution.intersect.inj h).symm

theorem contributionOf_seen (h : t.contributionOf filter = .intersect postings) (hid : id ∈ postings) : t.Seen id := by
  unfold contributionOf at h
  split at h
  · cases h
  · split at h
    · exact inversePostingsForFilter_seen (ofPostings_eq h ▸ hid)
    · exact postingsForFilter_seen (ofPostings_eq h ▸ hid)

theorem contribution_seen (h : t.contribution filter = .ok (.intersect postings)) (hid : id ∈ postings) :
    t.Seen id := by
  unfold contribution at h
  split at h
  · cases h
  · split at h
    · cases h
    · cases h
    · split at h
      · cases h
      · split at h
        · cases h
          exact scan_seen hid
        · exact contributionOf_seen (Except.ok.inj h) hid
    · split at h
      · cases h
      · split at h
        · cases h
        · exact contributionOf_seen (Except.ok.inj h) hid
    · split at h
      · exact scan_seen (ofPostings_eq (Except.ok.inj h) ▸ hid)
      · exact contributionOf_seen (Except.ok.inj h) hid
    · exact contributionOf_seen (Except.ok.inj h) hid

variable {its : List PostingsBitmap}

theorem gather_seen {filters : List LabelFilter} {notIts its' notIts' : List PostingsBitmap}
    (h : t.gather filters its notIts = .ok (some (its', notIts')))
    (hits : ∀ it ∈ its, ∀ id ∈ it, t.Seen id) : ∀ it ∈ its', ∀ id ∈ it, t.Seen id := by
  induction filters generalizing its notIts with
  | nil =>
    cases h
    exact hits
  | cons filter filters ih =>
    rw [gather] at h
    obtain ⟨c, hc, h⟩ := Except.ok_of_bind h
    cases c with
    | skip => exact ih h hits
    | nothing => cases h
    | intersect postings =>
      refine ih h fun it hit id hid => ?_
      rcases mem_append.mp hit with hit | hit
      · exact hits it hit id hid
      · rw [mem_singleton.mp hit] at hid
        exact contribution_seen hc hid
    | subtract postings => exact ih h hits

theorem mem_insertBack {α : Type} {less : α → α → Bool} {x y : α} {l : List α} :
    y ∈ insertBack less x l ↔ y = x ∨ y ∈ l := by
  induction l with
  | nil => simp [insertBack]
  | cons z l ih =>
    rw [insertBack]
    split
    · simp only [mem_cons]
      tauto
    · simp

theorem mem_sortBy {α : Type} {less : α → α → Bool} {y : α} {l : List α} : y ∈ sortBy less l ↔ y ∈ l := by
  have hfold : ∀ sorted : List α,
      y ∈ l.foldl (fun sorted x => insertBack less x sorted) sorted ↔ y ∈ sorted ∨ y ∈ l := by
    induction l with
    | nil => simp
    | cons x l ih =>
      intro sorted
      rw [foldl_cons, ih, mem_insertBack, mem_cons]
      tauto
  rw [sortBy, mem_reverse, hfold]
  simp

theorem mem_intersectFrom {result : PostingsBitmap} :
    id ∈ intersectFrom result its ↔ id ∈ result ∧ ∀ it ∈ its, id ∈ it := by
  induction its generalizing result with
  | nil => simp [intersectFrom]
  | cons it its ih =>
    rw [intersectFrom]
    split
    · next h => simp [h]
    · rw [ih]
      simp [and_assoc]

theorem mem_intersection : id ∈ intersection its ↔ its ≠ [] ∧ ∀ it ∈ its, id ∈ it := by
  cases its with
  | nil => simp [intersection]
  | cons it its => simp [intersection, mem_intersectFrom]

theorem mem_assemble {notIts : List PostingsBitmap} : id ∈ t.assemble its notIts ↔
    (if its = [] then id ∈ t.all else ∀ it ∈ its, id ∈ it) ∧ ∀ it ∈ notIts, id ∉ it := by
  have hfold : ∀ result : PostingsBitmap,
      id ∈ notIts.foldl (fun result it => result \ it) result ↔ id ∈ result ∧ ∀ it ∈ notIts, id ∉ it := by
    induction notIts with
    | nil => simp
    | cons it notIts ih =>
      intro result
      rw [foldl_cons, ih]
      simp [and_assoc]
  rw [assemble, hfold]
  refine and_congr_left fun _ => ?_
  cases its with
  | nil => simp
  | cons it its =>
    rw [if_neg (by simp), if_neg (by simp), mem_intersection]
    simp only [mem_sortBy]
    refine and_iff_right fun hnil => ?_
    have : it ∈ sortBy (fun a b => decide (a.card < b.card)) (it :: its) := mem_sortBy.mpr mem_cons_self
    rw [hnil] at this
    cases this

theorem postingsForLabelFilters_seen {filters : List LabelFilter}
    (h : t.postingsForLabelFilters filters = .ok postings) (hid : id ∈ postings) : t.Seen id := by
  unfold postingsForLabelFilters at h
  split at h
  · next hshort =>
      cases h
      unfold shortcut at hshort
      split at hshort
      · cases hshort
        exact Or.inl hid
      · split at hshort
        · cases hshort
          exact Or.inl hid
        · split at hshort
          · cases hshort
            exact postingsForFilter_seen hid
          · cases hshort
      · cases hshort
  · dsimp only at h
    obtain ⟨plan, hg, h⟩ := Except.ok_of_bind h
    cases plan with
    | none =>
      cases h
      exact absurd hid (Finset.notMem_empty _)
    | some plan =>
      obtain ⟨its, notIts⟩ := plan
      cases h
      have hits := gather_seen hg (by
        intro it hit id hid
        split at hit
        · rw [mem_singleton.mp hit] at hid
          exact Or.inl hid
        · cases hit)
      have hmem := (mem_assemble.mp hid).1
      cases its with
      | nil => exact Or.inl (by simpa using hmem)
      | cons it its =>
        exact hits it mem_cons_self id (hmem it mem_cons_self)

theorem postingsForSelector_seen {selector : SeriesSelector}
    (h : t.postingsForSelector selector = .ok postings) (hid : id ∈ postings) : t.Seen id := by
  cases selector with
  | and filters => exact postingsForLabelFilters_seen h hid
  | or groups =>
    have hfold : ∀ (groups : List FilterList) (result : PostingsBitmap), (id ∈ result → t.Seen id) →
        groups.foldlM (fun result matchers => do
          let postings ← t.postingsForLabelFilters matchers
          pure (result ∪ postings)) result = .ok postings → t.Seen id := by
      intro groups
      induction groups with
      | nil =>
        intro result hresult h
        cases h
        exact hresult hid
      | cons group groups ih =>
        intro result hresult h
        rw [foldlM_cons] at h
        cases hgroup : t.postingsForLabelFilters group with
        | error e =>
          rw [hgroup] at h
          cases h
        | ok more =>
          rw [hgroup] at h
          exact ih _ (fun h => (Finset.mem_union.mp h).elim hresult (postingsForLabelFilters_seen hgroup)) h
    change t.processOrMatchers groups = .ok postings at h
    unfold processOrMatchers at h
    split at h
    · cases h
      exact Or.inl hid
    · exact postingsForLabelFilters_seen h hid
    · exact hfold _ ∅ (fun h => absurd h (Finset.notMem_empty _)) h

end Lookups

end Terms

namespace Postings

def postingsForLabelFilters (self : Postings) (filters : List LabelFilter) : Except String PostingsBitmap :=
  (self.terms.postingsForLabelFilters filters).map self.staleIds.mask

def postingsForSelectors (self : Postings) (selectors : List SeriesSelector) : Except String PostingsBitmap :=
  self.terms.postingsForSelectors selectors

private theorem intersectSelectors_subset {t : Terms} {selectors : List SeriesSelector}
    {first result : PostingsBitmap} (h : t.intersectSelectors first selectors = .ok result) : result ⊆ first := by
  induction selectors generalizing first with
  | nil =>
    cases h
    exact Finset.Subset.refl _
  | cons selector selectors ih =>
    rw [Terms.intersectSelectors] at h
    obtain ⟨bitmap, hs, h⟩ := Except.ok_of_bind h
    exact (ih h).trans Finset.inter_subset_left

theorem mask_eq_self {self : Postings} (hdisjoint : Disjoint self.staleIds.ids self.allPostings)
    {postings : PostingsBitmap} (hseen : ∀ id ∈ postings, self.terms.Seen id) :
    self.staleIds.mask postings = postings := by
  ext id
  rw [StaleSet.mem_mask, and_iff_left_iff_imp]
  intro hid hstale
  rcases hseen id hid with hall | ⟨_, hat⟩
  · exact Finset.disjoint_left.mp hdisjoint hstale hall
  · exact hat.2 hstale

theorem postingsForSelectors_seen {self : Postings} {selectors : List SeriesSelector} {postings : PostingsBitmap}
    {id : SeriesRef} (h : self.postingsForSelectors selectors = .ok postings) (hid : id ∈ postings) :
    self.terms.Seen id ∧ id ∉ self.staleIds.ids := by
  rw [postingsForSelectors] at h
  cases selectors with
  | nil =>
    cases h
    exact absurd hid (Finset.notMem_empty _)
  | cons selector selectors =>
    rw [Terms.postingsForSelectors] at h
    obtain ⟨first, hfirst, h⟩ := Except.ok_of_bind h
    change (self.terms.intersectSelectors first selectors >>= _) = _ at h
    obtain ⟨result, hrest, h⟩ := Except.ok_of_bind h
    cases h
    obtain ⟨hmem, hstale⟩ := StaleSet.mem_mask.mp hid
    exact ⟨Terms.postingsForSelector_seen hfirst (intersectSelectors_subset hrest hmem), hstale⟩

/-! ### Indexes that answer alike -/

section Alike

variable {p q : Postings} (h : p.terms.Alike q.terms) (hp : Disjoint p.staleIds.ids p.allPostings)
  (hq : Disjoint q.staleIds.ids q.allPostings)
include h hp hq

theorem postingsForLabelFilters_alike (filters : List LabelFilter) :
    p.postingsForLabelFilters filters = q.postingsForLabelFilters filters := by
  rw [postingsForLabelFilters, postingsForLabelFilters, h.postingsForLabelFilters]
  cases hanswer : q.terms.postingsForLabelFilters filters with
  | error e => rfl
  | ok postings =>
    have hanswer' := hanswer
    rw [← h.postingsForLabelFilters] at hanswer'
    rw [Except.map, Except.map, mask_eq_self hp fun _ => Terms.postingsForLabelFilters_seen hanswer',
      mask_eq_self hq fun _ => Terms.postingsForLabelFilters_seen hanswer]

omit hp hq in
private theorem intersectSelectors_alike (first : PostingsBitmap) (selectors : List SeriesSelector) :
    p.terms.intersectSelectors first selectors = q.terms.intersectSelectors first selectors := by
  induction selectors generalizing first with
  | nil => rfl
  | cons selector selectors ih => simp only [Terms.intersectSelectors, h.postingsForSelector, ih]

theorem postingsForSelectors_alike (selectors : List SeriesSelector) :
    p.postingsForSelectors selectors = q.postingsForSelectors selectors := by
  cases selectors with
  | nil => rfl
  | cons selector selectors =>
    rw [postingsForSelectors, postingsForSelectors, Terms.postingsForSelectors, Terms.postingsForSelectors,
      h.postingsForSelector]
    cases hfirst : q.terms.postingsForSelector selector with
    | error e => rfl
    | ok first =>
      change (p.terms.intersectSelectors first selectors >>= _) = (q.terms.intersectSelectors first selectors >>= _)
      rw [intersectSelectors_alike h]
      cases hrest : q.terms.intersectSelectors first selectors with
      | error e => rfl
      | ok result =>
        have hfirst' := hfirst
        rw [← h.postingsForSelector] at hfirst'
        have hsub := intersectSelectors_subset hrest
        change Except.ok (p.staleIds.mask result) = Except.ok (q.staleIds.mask result)
        rw [mask_eq_self hp fun _ hid => Terms.postingsForSelector_seen hfirst' (hsub hid),
          mask_eq_self hq fun _ hid => Terms.postingsForSelector_seen hfirst (hsub hid)]

end Alike

end Postings

end ValkeyTimeSeries
