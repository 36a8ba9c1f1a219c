/-
Index/LabelStats.lean

The statistics of `TS.LABELSTATS`, on one node and over a cluster: the bounded heap of `posting_stats.rs`,
`collect_stats` of `timeseries_index.rs`, and the fanout command of `ts_labelstats_fanout_command.rs`.

Design.  The four lists of the reply differ only in the entries they are made of, so they are one function of
`StatList`.  A heap keeps a `TopK.IsTop` of what is pushed; a shard sends the top of its entries, the
coordinator adds them up and takes the top again.
-/
import ValkeyTimeSeries.Index.Query
import ValkeyTimeSeries.Library.HashOrder
import ValkeyTimeSeries.Library.TopK

namespace ValkeyTimeSeries

open List

structure PostingStat where
  name : Str
  count : Nat
deriving DecidableEq

/-! ### The bounded heap -/

structure StatsMaxHeap where
  maxLength : Nat
  /-- The smallest count, `none` for the `usize::MAX` of an empty heap. -/
  minValue : Option Nat
  minIndex : Nat
  items : List PostingStat
deriving DecidableEq

namespace StatsMaxHeap

def new (length : Nat) : StatsMaxHeap := { maxLength := length, minValue := none, minIndex := 0, items := [] }

def below (count : Nat) : Option Nat → Bool
  | none => true
  | some min => count < min

/-- The smallest count and its place, searched from place `i` on. -/
def rescan : Nat → Nat × Nat → List PostingStat → Nat × Nat
  | _, best, [] => best
  | i, best, stat :: items => rescan (i + 1) (if stat.count < best.1 then (stat.count, i) else best) items

def push (self : StatsMaxHeap) (item : PostingStat) : StatsMaxHeap :=
  if self.items.length < self.maxLength then
    if below item.count self.minValue then
      { self with minValue := some item.count, minIndex := self.items.length, items := self.items ++ [item] }
    else { self with items := self.items ++ [item] }
  else if below item.count self.minValue then self
  else
    let items := self.items.set self.minIndex item
    let best := rescan 0 (item.count, self.minIndex) items
    { self with items, minValue := some best.1, minIndex := best.2 }

def intoVec (self : StatsMaxHeap) : List PostingStat := self.items

end StatsMaxHeap

def collectTop (limit : Nat) (stats : List PostingStat) : List PostingStat :=
  (stats.foldl StatsMaxHeap.push (.new limit)).intoVec

/-! ### Statistics of one index -/

/-- A list of counts, as a map of counts by name; one more entry of a name is added to its count. -/
def addCount (stat : PostingStat) : List PostingStat → List PostingStat
  | [] => [stat]
  | s :: stats => if s.name = stat.name then { s with count := s.count + stat.count } :: stats
      else s :: addCount stat stats

/-- A label of the index and the number of the series counted that carry it. -/
structure LabelCount where
  name : Str
  value : Str
  count : Nat
deriving DecidableEq

def LabelCount.key (self : LabelCount) : IndexKey := .forLabelValue self.name self.value

inductive StatList where
  | metricName
  | labelName
  | labelValuePair
  | focusLabelValue
deriving DecidableEq, Repr

/-- The entries that a list is selected from. -/
def StatList.entries (focusLabel : Str) (labels : List LabelCount) : StatList → List PostingStat
  | .metricName => (labels.filter (·.name = metricNameLabel)).map fun label => ⟨label.value, label.count⟩
  | .labelName => labels.foldl (fun counts label => addCount ⟨label.name, label.count⟩ counts) []
  | .labelValuePair => labels.map fun label => ⟨label.key.text, label.count⟩
  | .focusLabelValue => (labels.filter (·.name = focusLabel)).map fun label => ⟨label.value, label.count⟩

structure PostingsStats where
  /-- The selected entries of each list. -/
  top : StatList → List PostingStat
  totalLabelValuePairs : Nat
  labelCount : Nat
  seriesCount : Nat

namespace Postings

/-- The entries behind a cursor, from `range` on with the cursor itself skipped. -/
def behind (self : Postings) (cursor : Option IndexKey) : List (IndexKey × PostingsBitmap) :=
  (self.labelIndex.ahead cursor).filter fun entry => cursor ≠ some entry.1

def walk (self : Postings) (batchSize : Nat) : Nat → Option IndexKey → List (IndexKey × PostingsBitmap)
  | 0, _ => []
  | fuel + 1, cursor =>
    let batch := (self.behind cursor).take batchSize
    match batch.getLast? with
    | none => []
    | some last => batch ++ self.walk batchSize fuel (some last.1)

def batchSize : Nat := 512

def cardinality (self : Postings) (matching : Option PostingsBitmap) (bitmap : PostingsBitmap) : Nat :=
  match matching with
  | some matching => (bitmap ∩ matching).card
  | none => if self.staleIds.isEmpty then bitmap.card else bitmap.card - (self.staleIds.ids ∩ bitmap).card

def labelCount (self : Postings) (matching : Option PostingsBitmap) (entry : IndexKey × PostingsBitmap) :
    Option LabelCount :=
  let count := self.cardinality matching entry.2
  if 0 < count then entry.1.split.map fun (name, value) => ⟨name, value, count⟩ else none

def labelCounts (self : Postings) (matching : Option PostingsBitmap) : List LabelCount :=
  (self.walk batchSize (self.labelIndex.length + 1) none).filterMap (self.labelCount matching)

def matchingPostings (self : Postings) (selectors : List SeriesSelector) : Except String (Option PostingsBitmap) :=
  match selectors with
  | [] => .ok none
  | _ => (self.postingsForSelectors selectors).map some

/-- `collect_stats`; the hash map of the label names is walked in `order`. -/
def collectStats (order : HashOrder PostingStat) (self : Postings) (matching : Option PostingsBitmap) (label : Str)
    (limit : Nat) : PostingsStats :=
  let focusLabel := if label.bytes = [] then metricNameLabel else label
  let labels := self.labelCounts matching
  { top := fun list =>
      let entries := list.entries focusLabel labels
      collectTop limit (if list = .labelName then order.order entries else entries)
    totalLabelValuePairs := labels.length
    labelCount := (StatList.labelName.entries focusLabel labels).length
    seriesCount := match matching with
      | some matching => matching.card
      | none => self.count }

def statsRestricted (order : HashOrder PostingStat) (self : Postings) (matching : Option PostingsBitmap) (label : Str)
    (limit : Nat) : PostingsStats :=
  if matching = some ∅ then { top := fun _ => [], totalLabelValuePairs := 0, labelCount := 0, seriesCount := 0 }
  else self.collectStats order matching label limit

end Postings

/-! ### The fanout command -/

def defaultStatsResultsLimit : Nat := 10

def maxStatsResultsLimit : Nat := 1000

structure LabelStatsOptions where
  label : Option Str
  limit : Nat
  filters : List SeriesSelector
  /-- `parse_limit_value` lets nothing larger through. -/
  limit_le : limit ≤ maxStatsResultsLimit

namespace LabelStatsOptions

def fanoutLimit (options : LabelStatsOptions) : Nat :=
  if options.limit = 0 then defaultStatsResultsLimit else options.limit

end LabelStatsOptions

structure StatsRequest where
  limit : Nat
  selectedLabel : Option Str
  filters : List SeriesSelector

def LabelStatsOptions.generateRequest (options : LabelStatsOptions) : StatsRequest :=
  { limit := options.fanoutLimit % 2 ^ 32, selectedLabel := options.label, filters := options.filters }

abbrev Fingerprints := Finset (BitVec 64)

structure StatsResponse where
  top : StatList → List PostingStat
  seriesCount : Nat
  labelsBitmap : Fingerprints
  labelValuePairsBitmap : Fingerprints

/-- The hashes of a label name and of an index key. -/
structure Hasher where
  name : Str → BitVec 64
  key : IndexKey → BitVec 64

structure StatsNode where
  index : Postings
  order : HashOrder PostingStat

def Postings.labelBitmapsRestricted (hasher : Hasher) (self : Postings) (matching : Option PostingsBitmap) :
    Fingerprints × Fingerprints :=
  if matching = some ∅ then (∅, ∅)
  else
    let labels := self.labelCounts matching
    ((labels.map fun label => hasher.name label.name).toFinset,
      (labels.map fun label => hasher.key label.key).toFinset)

def StatsNode.getLocalResponse (hasher : Hasher) (node : StatsNode) (req : StatsRequest) :
    Except String StatsResponse := do
  let matching ← node.index.matchingPostings req.filters
  let stats := node.index.statsRestricted node.order matching (req.selectedLabel.getD .empty) req.limit
  let bitmaps := node.index.labelBitmapsRestricted hasher matching
  return { top := stats.top, seriesCount := stats.seriesCount, labelsBitmap := bitmaps.1,
           labelValuePairsBitmap := bitmaps.2 }

structure StatsResults where
  seriesCount : Nat
  counts : StatList → List PostingStat
  labelsBitmap : Fingerprints
  labelValuePairsBitmap : Fingerprints

def StatsResults.default : StatsResults :=
  { seriesCount := 0, counts := fun _ => [], labelsBitmap := ∅, labelValuePairsBitmap := ∅ }

def collateStatsValues (map values : List PostingStat) : List PostingStat :=
  values.foldl (fun map stat => addCount stat map) map

def StatsResults.onResponse (self : StatsResults) (resp : StatsResponse) : StatsResults :=
  { seriesCount := self.seriesCount + resp.seriesCount
    counts := fun list => collateStatsValues (self.counts list) (resp.top list)
    labelsBitmap := self.labelsBitmap ∪ resp.labelsBitmap
    labelValuePairsBitmap := self.labelValuePairsBitmap ∪ resp.labelValuePairsBitmap }

structure LabelStatsReply where
  totalSeries : Nat
  totalLabels : Nat
  totalLabelValuePairs : Nat
  top : StatList → List PostingStat
  hasFocus : Bool

def StatsResults.reply (orders : StatList → HashOrder PostingStat) (options : LabelStatsOptions)
    (state : StatsResults) : LabelStatsReply :=
  { totalSeries := state.seriesCount
    totalLabels := state.labelsBitmap.card
    totalLabelValuePairs := state.labelValuePairsBitmap.card
    top := fun list => collectTop options.fanoutLimit ((orders list).order (state.counts list))
    hasFocus := options.label.isSome }

/-- The command on a cluster, with the answers of the nodes taken in as they are listed. -/
def labelStatsFanout (hasher : Hasher) (orders : StatList → HashOrder PostingStat) (options : LabelStatsOptions)
    (nodes : List StatsNode) : Except String LabelStatsReply := do
  let responses ← nodes.mapM fun node => node.getLocalResponse hasher options.generateRequest
  return (responses.foldl StatsResults.onResponse .default).reply orders options

def labelStatsStandalone (options : LabelStatsOptions) (node : StatsNode) : Except String LabelStatsReply := do
  let matching ← node.index.matchingPostings options.filters
  let stats := node.index.statsRestricted node.order matching (options.label.getD .empty) options.limit
  return { totalSeries := stats.seriesCount, totalLabels := stats.labelCount,
           totalLabelValuePairs := stats.totalLabelValuePairs, top := stats.top, hasFocus := options.label.isSome }

/-! ### What a heap keeps -/

namespace StatsMaxHeap

theorem rescan_spec (i : Nat) (best : Nat × Nat) (items : List PostingStat) :
    (rescan i best items).1 ≤ best.1 ∧ (∀ e ∈ items, (rescan i best items).1 ≤ e.count) ∧
    (rescan i best items = best ∨ ∃ j e, items[j]? = some e ∧ rescan i best items = (e.count, i + j)) := by
  induction items generalizing i best with
  | nil => exact ⟨le_rfl, by simp, .inl rfl⟩
  | cons stat items ih =>
    rw [rescan]
    obtain ⟨hbest, hitems, hplace⟩ := ih (i + 1) (if stat.count < best.1 then (stat.count, i) else best)
    have hle : (if stat.count < best.1 then (stat.count, i) else best).1 ≤ best.1 ∧
        (if stat.count < best.1 then (stat.count, i) else best).1 ≤ stat.count := by
      split_ifs with hlt
      · exact ⟨hlt.le, le_rfl⟩
      · exact ⟨le_rfl, not_lt.mp hlt⟩
    refine ⟨hbest.trans hle.1, fun e he => ?_, ?_⟩
    · rcases mem_cons.mp he with rfl | he
      · exact hbest.trans hle.2
      · exact hitems e he
    · rcases hplace with hsame | ⟨j, e, hj, heq⟩
      · rw [hsame]
        split_ifs
        · exact .inr ⟨0, stat, rfl, rfl⟩
        · exact .inl rfl
      · exact .inr ⟨j + 1, e, hj, by rw [heq]; congr 1; omega⟩

structure Of (k : Nat) (pushed : List PostingStat) (heap : StatsMaxHeap) : Prop where
  maxLength : heap.maxLength = k
  top : TopK.IsTop PostingStat.count k heap.items pushed
  none : heap.minValue = none → heap.items = []
  some : ∀ m, heap.minValue = some m → (∃ e, heap.items[heap.minIndex]? = some e ∧ e.count = m) ∧
    ∀ e ∈ heap.items, m ≤ e.count

theorem of_new (k : Nat) : Of k [] (new k) where
  maxLength := rfl
  top := ⟨[], .refl _, by simp, Nat.zero_le _, .inl rfl⟩
  none _ := rfl
  some m h := by cases h

variable {pushed : List PostingStat}

theorem Of.push_room {k : Nat} {heap : StatsMaxHeap} (h : Of k pushed heap)
    (item : PostingStat) (hroom : heap.items.length < k) : Of k (pushed ++ [item]) (heap.push item) := by
  obtain ⟨dropped, hperm, -, -, hfull⟩ := h.top
  obtain rfl : dropped = [] := hfull.resolve_right hroom.ne
  rw [append_nil] at hperm
  have htop : TopK.IsTop PostingStat.count k (heap.items ++ [item]) (pushed ++ [item]) := by
    refine ⟨[], ?_, by simp, ?_, .inl rfl⟩
    · rw [append_nil]
      exact hperm.append_right _
    · rw [length_append, length_singleton]
      exact hroom
  have hlast : (heap.items ++ [item])[heap.items.length]? = Option.some item := by simp
  rw [push, if_pos (h.maxLength ▸ hroom)]
  split_ifs with hbelow
  · refine ⟨h.maxLength, htop, nofun, fun m hm => ?_⟩
    obtain rfl := Option.some.inj hm
    refine ⟨⟨item, hlast, rfl⟩, fun e he => ?_⟩
    rcases mem_append.mp he with he | he
    · cases hmin : heap.minValue with
      | none => rw [h.none hmin] at he; cases he
      | some m =>
        rw [hmin, below, decide_eq_true_eq] at hbelow
        exact hbelow.le.trans ((h.some m hmin).2 e he)
    · rw [mem_singleton.mp he]
  · refine ⟨h.maxLength, htop, fun hnone => ?_, fun m hm => ?_⟩
    · rw [show heap.minValue = Option.none from hnone] at hbelow
      exact absurd rfl hbelow
    · obtain ⟨⟨e, he, hem⟩, hle⟩ := h.some m hm
      rw [show heap.minValue = Option.some m from hm, below, decide_eq_true_eq, not_lt] at hbelow
      refine ⟨⟨e, ?_, hem⟩, fun e' he' => ?_⟩
      · obtain ⟨hlt, -⟩ := List.getElem?_eq_some_iff.mp he
        rw [List.getElem?_append_left hlt]
        exact he
      · rcases mem_append.mp he' with he' | he'
        · exact hle e' he'
        · exact mem_singleton.mp he' ▸ hbelow

theorem perm_set {items : List PostingStat} {i : Nat} {least : PostingStat} (item : PostingStat)
    (hleast : items[i]? = some least) : (items.set i item ++ [least]).Perm (items ++ [item]) := by
  obtain ⟨hidx, hget⟩ := List.getElem?_eq_some_iff.mp hleast
  have hsplit : items = items.take i ++ least :: items.drop (i + 1) := by
    rw [← hget, List.getElem_cons_drop, List.take_append_drop]
  rw [set_eq_take_append_cons_drop, if_pos hidx]
  conv_rhs => rw [hsplit]
  simp only [append_assoc]
  refine List.Perm.append_left _ ?_
  exact ((perm_append_singleton least _).cons item).trans ((List.Perm.swap _ _ _).trans
    ((perm_append_singleton item _).symm.cons least))

theorem Of.push_full {k : Nat} {heap : StatsMaxHeap} (h : Of k pushed heap)
    (item : PostingStat) (hfull : ¬ heap.items.length < k) : Of k (pushed ++ [item]) (heap.push item) := by
  obtain ⟨dropped, hperm, hle, hlen, -⟩ := h.top
  have hk : heap.items.length = k := le_antisymm hlen (not_lt.mp hfull)
  rw [push, if_neg (h.maxLength ▸ hfull)]
  cases hmin : heap.minValue with
  | none =>
    -- a heap without room keeps nothing
    have hitems := h.none hmin
    rw [below, if_pos rfl]
    refine ⟨h.maxLength, ⟨dropped ++ [item], ?_, ?_, hlen, .inr hk⟩, h.none, h.some⟩
    · rw [← append_assoc]
      exact hperm.append_right _
    · rw [hitems]
      simp
  | some m =>
    obtain ⟨⟨least, hleast, hm⟩, hmle⟩ := h.some m hmin
    rw [below]
    split_ifs with hlt
    · rw [decide_eq_true_eq] at hlt
      refine ⟨h.maxLength, ⟨dropped ++ [item], ?_, fun d hd e he => ?_, hlen, .inr hk⟩, h.none, h.some⟩
      · rw [← append_assoc]
        exact hperm.append_right _
      · rcases mem_append.mp hd with hd | hd
        · exact hle d hd e he
        · exact mem_singleton.mp hd ▸ hlt.le.trans (hmle e he)
    · rw [decide_eq_true_eq, not_lt] at hlt
      obtain ⟨hidx, -⟩ := List.getElem?_eq_some_iff.mp hleast
      have hset := perm_set item hleast
      obtain ⟨hbest, hall, hplace⟩ := rescan_spec 0 (item.count, heap.minIndex) (heap.items.set heap.minIndex item)
      refine ⟨h.maxLength, ⟨least :: dropped, ?_, fun d hd e he => ?_, ?_, .inr ?_⟩, nofun, fun m' hm' => ?_⟩
      · rw [append_cons]
        refine (hset.append_right dropped).trans ?_
        rw [append_assoc]
        refine (perm_append_comm.append_left _).trans ?_
        rw [← append_assoc]
        exact hperm.append_right _
      · have hd' : d.count ≤ m := by
          rcases mem_cons.mp hd with rfl | hd
          · exact hm.le
          · exact hm ▸ hle d hd least (mem_of_getElem? hleast)
        refine hd'.trans ?_
        rcases mem_or_eq_of_mem_set he with he | rfl
        · exact hmle e he
        · exact hlt
      · rw [length_set]
        exact hlen
      · rw [length_set]
        exact hk
      · obtain rfl := Option.some.inj hm'
        refine ⟨?_, hall⟩
        dsimp only
        rcases hplace with hsame | ⟨j, e, hj, heq⟩
        · rw [hsame]
          exact ⟨item, getElem?_set_self hidx, rfl⟩
        · rw [heq]
          exact ⟨e, (Nat.zero_add j).symm ▸ hj, rfl⟩

theorem Of.push {k : Nat} {heap : StatsMaxHeap} (h : Of k pushed heap)
    (item : PostingStat) : Of k (pushed ++ [item]) (heap.push item) := by
  by_cases hroom : heap.items.length < k
  · exact h.push_room item hroom
  · exact h.push_full item hroom

end StatsMaxHeap

theorem isTop_collectTop (limit : Nat) (stats : List PostingStat) :
    TopK.IsTop PostingStat.count limit (collectTop limit stats) stats := by
  have hof : StatsMaxHeap.Of limit stats (stats.foldl StatsMaxHeap.push (.new limit)) := by
    induction stats using List.reverseRecOn with
    | nil => exact StatsMaxHeap.of_new limit
    | append_singleton stats stat ih =>
      rw [foldl_append]
      exact ih.push stat
  exact hof.top

/-! ### Counts by name -/

theorem names_addCount (stat : PostingStat) (stats : List PostingStat) :
    (addCount stat stats).map (·.name) = if stat.name ∈ stats.map (·.name) then stats.map (·.name)
    else stats.map (·.name) ++ [stat.name] := by
  induction stats with
  | nil => rfl
  | cons s stats ih =>
    unfold addCount
    by_cases hname : s.name = stat.name
    · simp [hname]
    · rw [if_neg hname, map_cons, ih, map_cons]
      simp only [mem_cons, Ne.symm hname, false_or]
      split_ifs <;> rfl

theorem tally_addCount (stat : PostingStat) (stats : List PostingStat) (n : Str) :
    TopK.tally PostingStat.name PostingStat.count (addCount stat stats) n =
    TopK.tally PostingStat.name PostingStat.count stats n + if stat.name = n then stat.count else 0 := by
  induction stats with
  | nil => simp [addCount]
  | cons s stats ih =>
    unfold addCount
    by_cases hname : s.name = stat.name
    · simp only [hname, if_true, TopK.tally_cons]
      split_ifs <;> omega
    · rw [if_neg hname, TopK.tally_cons, ih, TopK.tally_cons, Nat.add_assoc]

theorem collate_spec (map values : List PostingStat) (hnodup : (map.map (·.name)).Nodup) :
    ((collateStatsValues map values).map (·.name)).Nodup ∧
    (∀ n, n ∈ (collateStatsValues map values).map (·.name) ↔ n ∈ map.map (·.name) ∨ n ∈ values.map (·.name)) ∧
    ∀ n, TopK.tally PostingStat.name PostingStat.count (collateStatsValues map values) n =
    TopK.tally PostingStat.name PostingStat.count map n
    + TopK.tally PostingStat.name PostingStat.count values n := by
  unfold collateStatsValues
  induction values generalizing map with
  | nil => exact ⟨hnodup, by simp, by simp⟩
  | cons stat values ih =>
    have hnodup' : ((addCount stat map).map (·.name)).Nodup := by
      rw [names_addCount]
      split_ifs with hmem
      · exact hnodup
      · exact concat_eq_append ▸ List.Nodup.concat hmem hnodup
    have hnames : ∀ n, n ∈ (addCount stat map).map (·.name) ↔ n ∈ map.map (·.name) ∨ n = stat.name := by
      intro n
      rw [names_addCount]
      split_ifs with hmem
      · exact ⟨.inl, fun h => h.elim id fun h => h ▸ hmem⟩
      · rw [mem_append, mem_singleton]
    obtain ⟨h1, h2, h3⟩ := ih (addCount stat map) hnodup'
    refine ⟨h1, fun n => ?_, fun n => ?_⟩
    · rw [foldl_cons, h2, hnames, map_cons, mem_cons, or_assoc]
    · rw [foldl_cons, h3, tally_addCount, TopK.tally_cons, Nat.add_assoc]

/-- The coordinator's map of a list merges what the shards sent. -/
theorem merges_onResponse (responses : List StatsResponse) (list : StatList) :
    TopK.Merges PostingStat.name PostingStat.count (responses.map (·.top list))
    ((responses.foldl StatsResults.onResponse .default).counts list) := by
  induction responses using List.reverseRecOn with
  | nil => exact ⟨nodup_nil, by simp [StatsResults.default], by simp [StatsResults.default]⟩
  | append_singleton responses response ih =>
    rw [foldl_append, foldl_cons, foldl_nil, map_append]
    obtain ⟨h1, h2, h3⟩ := collate_spec _ (response.top list) ih.nodup
    refine ⟨h1, fun n => (h2 n).trans ?_, fun n => (h3 n).trans ?_⟩
    · rw [ih.names]
      simp
    · rw [ih.tally]
      simp

/-! ### Walking in batches -/

namespace Postings

variable {self : Postings}

theorem behind_eq {front rest : List (IndexKey × PostingsBitmap)} (hsplit : self.labelIndex.entries = front ++ rest) :
    self.behind (front.getLast?.map Prod.fst) = rest := by
  have hsorted : SortedList.Sorted Prod.fst self.labelIndex.entries := self.labelIndex.sorted
  rw [hsplit] at hsorted
  obtain ⟨hfront, hrest, hlt⟩ := pairwise_append.mp hsorted
  unfold behind SortedMap.ahead
  rw [hsplit]
  rcases eq_nil_or_concat front with rfl | ⟨before, last, rfl⟩
  · simp
  · rw [concat_eq_append] at hfront hlt ⊢
    simp only [getLast?_append, getLast?_singleton, Option.some_or, Option.map_some, Option.all_some, filter_filter]
    rw [filter_append]
    have hleft : (before ++ [last]).filter
        (fun e => decide (some last.1 ≠ some e.1) && decide (last.1 ≤ e.1)) = [] := by
      refine filter_eq_nil_iff.mpr fun e he => ?_
      rcases mem_append.mp he with he | he
      · have := (pairwise_append.mp hfront).2.2 e he last (mem_singleton_self _)
        simp [not_le.mpr this]
      · simp [mem_singleton.mp he]
    have hright : rest.filter (fun e => decide (some last.1 ≠ some e.1) && decide (last.1 ≤ e.1)) = rest := by
      refine filter_eq_self.mpr fun e he => ?_
      have := hlt last (by simp) e he
      simp [this.le, this.ne]
    rw [hleft, hright, nil_append]

theorem walk_eq {size fuel : Nat} (hsize : 0 < size) {front rest : List (IndexKey × PostingsBitmap)}
    (hsplit : self.labelIndex.entries = front ++ rest) (hfuel : rest.length < fuel) :
    self.walk size fuel (front.getLast?.map Prod.fst) = rest := by
  induction fuel generalizing front rest with
  | zero => omega
  | succ fuel ih =>
    rw [walk, behind_eq hsplit]
    cases hlast : (rest.take size).getLast? with
    | none =>
      rcases take_eq_nil_iff.mp (getLast?_eq_none_iff.mp hlast) with rfl | rfl
      · omega
      · rfl
    | some last =>
      have hne : rest ≠ [] := by
        rintro rfl
        simp at hlast
      have hpos : 0 < rest.length := length_pos_iff.mpr hne
      have hlen : (rest.drop size).length < fuel := by
        rw [length_drop]
        omega
      have hsplit' : self.labelIndex.entries = (front ++ rest.take size) ++ rest.drop size := by
        rw [append_assoc, List.take_append_drop, hsplit]
      have hnext := ih hsplit' hlen
      rw [getLast?_append, hlast, Option.some_or, Option.map_some] at hnext
      dsimp only
      rw [hnext, List.take_append_drop]

variable (self : Postings)

theorem labelCounts_eq (matching : Option PostingsBitmap) :
    self.labelCounts matching = self.labelIndex.entries.filterMap (self.labelCount matching) := by
  have hwalk : self.walk batchSize (self.labelIndex.length + 1)
      (([] : List (IndexKey × PostingsBitmap)).getLast?.map Prod.fst) = self.labelIndex.entries :=
    walk_eq (by decide) (nil_append _).symm (Nat.lt_succ_self _)
  exact congrArg (List.filterMap (self.labelCount matching)) hwalk

theorem nodup_labelCounts (matching : Option PostingsBitmap) :
    ((self.labelCounts matching).map LabelCount.key).Nodup := by
  have hkey : ∀ entry label, self.labelCount matching entry = some label → label.key = entry.1 := by
    intro entry label hlabel
    unfold labelCount at hlabel
    dsimp only at hlabel
    split_ifs at hlabel
    obtain ⟨⟨name, value⟩, hsplit, rfl⟩ := Option.map_eq_some_iff.mp hlabel
    exact (IndexKey.split_spec hsplit).1.symm
  rw [labelCounts_eq]
  have hkeys := self.labelIndex.keys_nodup
  unfold SortedMap.keys at hkeys
  generalize self.labelIndex.entries = entries at hkeys ⊢
  induction entries with
  | nil => exact nodup_nil
  | cons entry entries ih =>
    rw [map_cons, nodup_cons] at hkeys
    rw [filterMap_cons]
    split
    · exact ih hkeys.2
    next label hlabel =>
      refine nodup_cons.mpr ⟨fun hmem => hkeys.1 ?_, ih hkeys.2⟩
      obtain ⟨label', hlabel', heq⟩ := mem_map.mp hmem
      obtain ⟨entry', hentry', hsome⟩ := mem_filterMap.mp hlabel'
      rw [← hkey entry label hlabel, ← heq, hkey entry' label' hsome]
      exact mem_map_of_mem hentry'

theorem labelCounts_empty : self.labelCounts (some ∅) = [] := by
  rw [labelCounts_eq, filterMap_eq_nil_iff]
  intro entry _
  simp [labelCount, cardinality]

end Postings

/-! ### The lists of a reply -/

theorem nodup_values {labels : List LabelCount} (h : (labels.map LabelCount.key).Nodup) (name : Str) :
    (((labels.filter (·.name = name)).map fun label => (⟨label.value, label.count⟩ : PostingStat)).map
    (·.name)).Nodup := by
  have hkeys : ((labels.filter (·.name = name)).map LabelCount.key).Nodup :=
    h.sublist (filter_sublist.map _)
  rw [map_map]
  have heq : (labels.filter (·.name = name)).map LabelCount.key =
      ((labels.filter (·.name = name)).map LabelCount.value).map (IndexKey.forLabelValue name) := by
    rw [map_map]
    refine map_congr_left fun label hlabel => ?_
    have hname : label.name = name := of_decide_eq_true (mem_filter.mp hlabel).2
    rw [LabelCount.key, hname]
    rfl
  rw [heq] at hkeys
  exact hkeys.of_map

theorem StatList.entries_labelName (focusLabel : Str) (labels : List LabelCount) :
    StatList.labelName.entries focusLabel labels =
    collateStatsValues [] (labels.map fun label => ⟨label.name, label.count⟩) := by
  rw [StatList.entries, collateStatsValues, foldl_map]

theorem StatList.nodup_entries (focusLabel : Str) {labels : List LabelCount}
    (h : (labels.map LabelCount.key).Nodup) (list : StatList) :
    ((list.entries focusLabel labels).map (·.name)).Nodup := by
  cases list with
  | metricName => exact nodup_values h metricNameLabel
  | focusLabelValue => exact nodup_values h focusLabel
  | labelValuePair =>
    have htext : Function.Injective IndexKey.text := fun a b hab => by
      cases a
      cases b
      exact congrArg IndexKey.mk hab
    have hmap := h.map htext
    rw [map_map] at hmap
    rw [StatList.entries, map_map]
    exact hmap
  | labelName =>
    rw [StatList.entries_labelName]
    exact (collate_spec [] _ nodup_nil).1

def LabelStatsOptions.focusLabel (options : LabelStatsOptions) : Str :=
  if (options.label.getD .empty).bytes = [] then metricNameLabel else options.label.getD .empty

namespace StatsNode

def matching (filters : List SeriesSelector) (node : StatsNode) : Option PostingsBitmap :=
  match node.index.matchingPostings filters with
  | .ok matching => matching
  | .error _ => some ∅

def entries (options : LabelStatsOptions) (list : StatList) (node : StatsNode) : List PostingStat :=
  list.entries options.focusLabel (node.index.labelCounts (node.matching options.filters))

theorem nodup_entries (options : LabelStatsOptions) (list : StatList) (node : StatsNode) :
    ((node.entries options list).map (·.name)).Nodup :=
  StatList.nodup_entries _ (node.index.nodup_labelCounts _) list

def sent (options : LabelStatsOptions) (list : StatList) (node : StatsNode) : List PostingStat :=
  (node.index.statsRestricted node.order (node.matching options.filters) (options.label.getD .empty)
    options.fanoutLimit).top list

def response (hasher : Hasher) (options : LabelStatsOptions) (node : StatsNode) : StatsResponse :=
  let matching := node.matching options.filters
  let stats := node.index.statsRestricted node.order matching (options.label.getD .empty) options.fanoutLimit
  let bitmaps := node.index.labelBitmapsRestricted hasher matching
  { top := fun list => node.sent options list, seriesCount := stats.seriesCount, labelsBitmap := bitmaps.1,
    labelValuePairsBitmap := bitmaps.2 }

end StatsNode

variable (options : LabelStatsOptions)

theorem LabelStatsOptions.fanoutLimit_mod :
    options.fanoutLimit % 2 ^ 32 = options.fanoutLimit := by
  have hle := options.limit_le
  unfold fanoutLimit defaultStatsResultsLimit
  unfold maxStatsResultsLimit at hle
  split_ifs <;> omega

theorem StatsNode.getLocalResponse_eq {hasher : Hasher} {options : LabelStatsOptions} {node : StatsNode}
    {response : StatsResponse} (h : node.getLocalResponse hasher options.generateRequest = .ok response) :
    response = node.response hasher options := by
  unfold getLocalResponse LabelStatsOptions.generateRequest at h
  unfold StatsNode.response StatsNode.sent StatsNode.matching
  cases hmatching : node.index.matchingPostings options.filters with
  | error e =>
    simp only [hmatching] at h
    cases h
  | ok matching =>
    simp only [hmatching, options.fanoutLimit_mod] at h
    exact (Except.ok.inj h).symm

theorem StatsNode.isTop_sent (list : StatList) (node : StatsNode) :
    TopK.IsTop PostingStat.count options.fanoutLimit (node.sent options list) (node.entries options list) := by
  unfold StatsNode.sent StatsNode.entries Postings.statsRestricted
  generalize hmatching : node.matching options.filters = matching
  by_cases hnone : matching = some ∅
  · have hentries : list.entries options.focusLabel [] = [] := by cases list <;> rfl
    simp only [hnone, Postings.labelCounts_empty, hentries]
    exact ⟨[], .refl _, by simp, Nat.zero_le _, .inl rfl⟩
  · simp only [hnone]
    refine (isTop_collectTop options.fanoutLimit _).of_perm ?_
    by_cases hlist : list = .labelName
    · rw [if_pos hlist]
      exact node.order.perm _
    · rw [if_neg hlist]
      exact .refl _

theorem Postings.labelCounts_pos {self : Postings} {matching : Option PostingsBitmap} {label : LabelCount}
    (h : label ∈ self.labelCounts matching) : 0 < label.count := by
  obtain ⟨entry, -, hlabel⟩ := mem_filterMap.mp h
  unfold labelCount at hlabel
  dsimp only at hlabel
  split_ifs at hlabel with hpos
  obtain ⟨⟨name, value⟩, -, rfl⟩ := Option.map_eq_some_iff.mp hlabel
  exact hpos

theorem addCount_pos {stat : PostingStat} {stats : List PostingStat} (hstat : 0 < stat.count)
    (h : ∀ s ∈ stats, 0 < s.count) : ∀ s ∈ addCount stat stats, 0 < s.count := by
  induction stats with
  | nil => simpa [addCount] using hstat
  | cons s stats ih =>
    unfold addCount
    intro t ht
    split_ifs at ht
    · rcases mem_cons.mp ht with rfl | ht
      · exact Nat.add_pos_right _ hstat
      · exact h t (mem_cons_of_mem _ ht)
    · rcases mem_cons.mp ht with rfl | ht
      · exact h t mem_cons_self
      · exact ih (fun s hs => h s (mem_cons_of_mem _ hs)) t ht

theorem StatsNode.entries_pos (list : StatList) (node : StatsNode) :
    ∀ stat ∈ node.entries options list, 0 < stat.count := by
  have hlabels : ∀ label ∈ node.index.labelCounts (node.matching options.filters), 0 < label.count :=
    fun label => Postings.labelCounts_pos
  unfold StatsNode.entries
  generalize node.index.labelCounts (node.matching options.filters) = labels at hlabels
  cases list with
  | labelName =>
    rw [StatList.entries]
    induction labels using List.reverseRecOn with
    | nil => simp
    | append_singleton labels label ih =>
      rw [foldl_append]
      exact addCount_pos (hlabels label (by simp)) (ih fun l hl => hlabels l (mem_append_left _ hl))
  | metricName | focusLabelValue =>
    intro stat hstat
    obtain ⟨label, hlabel, rfl⟩ := mem_map.mp hstat
    exact hlabels label (mem_filter.mp hlabel).1
  | labelValuePair =>
    intro stat hstat
    obtain ⟨label, hlabel, rfl⟩ := mem_map.mp hstat
    exact hlabels label hlabel

/-! ### The whole reply -/

theorem mapM_ok_eq_map {α β ε : Type} {f : α → Except ε β} {g : α → β} (hg : ∀ a b, f a = .ok b → b = g a) {l : List α}
    {bs : List β} (h : l.mapM f = .ok bs) : bs = l.map g := by
  induction l generalizing bs with
  | nil => exact (Except.ok.inj h).symm
  | cons a l ih =>
    rw [mapM_cons] at h
    obtain ⟨b, ha, h⟩ := Except.ok_of_bind h
    obtain ⟨rest, hl, h⟩ := Except.ok_of_bind h
    rw [← Except.ok.inj h, hg a b ha, ih hl]
    rfl

/-! ### What a reply should say -/

/-- The name under which a label counts in a list, if it does. -/
def StatList.nameOf (focusLabel : Str) (list : StatList) (label : Str × Str) : Option Str :=
  match list with
  | .metricName => if label.1 = metricNameLabel then some label.2 else none
  | .labelName => some label.1
  | .labelValuePair => some (IndexKey.forLabelValue label.1 label.2).text
  | .focusLabelValue => if label.1 = focusLabel then some label.2 else none

namespace StatsNode

/-- The live series with a label: those the filters select, and without filters those that are not stale. -/
def carriers (node : StatsNode) (key : IndexKey) : Finset SeriesRef :=
  match node.matching options.filters with
  | some matching => node.index.list key ∩ matching
  | none => node.index.list key \ node.index.staleIds.ids

/-- How many live series of a node count under a name of a list. -/
def liveCount (list : StatList) (node : StatsNode) (name : Str) : Nat :=
  (node.index.labelIndex.keys.map fun key =>
    if key.split.bind (list.nameOf options.focusLabel) = some name then (node.carriers options key).card else 0).sum

/-- The labels of a node that a live series has. -/
def heldKeys (node : StatsNode) : List IndexKey :=
  node.index.labelIndex.keys.filter fun key => key.split.isSome ∧ node.carriers options key ≠ ∅

def seriesCount (node : StatsNode) : Nat :=
  match node.matching options.filters with
  | some matching => matching.card
  | none => node.index.count

end StatsNode

def heldKeys (nodes : List StatsNode) : Finset IndexKey :=
  (nodes.flatMap (·.heldKeys options)).toFinset

def heldNames (nodes : List StatsNode) : Finset Str :=
  ((nodes.flatMap (·.heldKeys options)).filterMap fun key => key.split.map Prod.fst).toFinset

/-- The live series of all nodes that count under a name of a list. -/
def liveTotal (nodes : List StatsNode) (list : StatList) : Str → Nat :=
  TopK.sumAt nodes (StatsNode.liveCount options list)

/-- The reply that one node would give that had the series of all. -/
structure TrueStats (nodes : List StatsNode) (reply : LabelStatsReply) : Prop where
  series : reply.totalSeries = (nodes.map (·.seriesCount options)).sum
  labels : reply.totalLabels = (heldNames options nodes).card
  pairs : reply.totalLabelValuePairs = (heldKeys options nodes).card
  lists : ∀ list, TopK.Exact PostingStat.name PostingStat.count (liveTotal options nodes list) options.fanoutLimit
    (reply.top list)

/-- No two label names and no two labels of the nodes have one fingerprint. -/
def Hasher.CollisionFree (hasher : Hasher) (options : LabelStatsOptions) (nodes : List StatsNode) : Prop :=
  Set.InjOn hasher.name (heldNames options nodes) ∧ Set.InjOn hasher.key (heldKeys options nodes)

/-- In every list, whichever names a node keeps where counts are equal: a name that some node counts
and that is not among its largest is no larger in total than as many names as the limit that are
among the largest of every node which counts them. -/
def CutNamesOutnumbered (nodes : List StatsNode) : Prop :=
  ∀ list, TopK.AlwaysOutnumbered options.fanoutLimit nodes (StatsNode.liveCount options list)

/-- No node has names with equal counts at the limit of a list. -/
def NoTieIsCut (nodes : List StatsNode) : Prop :=
  ∀ list, TopK.Decided options.fanoutLimit nodes (StatsNode.liveCount options list)

/-! ### The counts of a shard -/

theorem Postings.list_of_mem {self : Postings} {entry : IndexKey × PostingsBitmap}
    (h : entry ∈ self.labelIndex.entries) : self.list entry.1 = entry.2 := by
  rw [Postings.list, SortedMap.get?_eq_some_iff.mpr h]
  rfl

namespace StatsNode

variable (node : StatsNode)

/-- `cardinality` counts the live series of a posting list. -/
theorem cardinality_eq (key : IndexKey) :
    node.index.cardinality (node.matching options.filters) (node.index.list key) =
    (node.carriers options key).card := by
  unfold Postings.cardinality carriers
  cases node.matching options.filters with
  | some matching => rfl
  | none =>
    dsimp only
    split_ifs with hstale
    · rw [show node.index.staleIds.ids = ∅ by simpa [StaleSet.isEmpty] using hstale, Finset.sdiff_empty]
    · rw [Finset.card_sdiff]

/-- The entry that `collect_stats` makes of a label. -/
def counted (key : IndexKey) : Option LabelCount :=
  if node.carriers options key = ∅ then none
  else key.split.map fun label => ⟨label.1, label.2, (node.carriers options key).card⟩

theorem labelCounts_eq_counted : node.index.labelCounts (node.matching options.filters) =
    node.index.labelIndex.keys.filterMap (node.counted options) := by
  rw [Postings.labelCounts_eq, SortedMap.keys, filterMap_map]
  refine filterMap_congr fun entry hentry => ?_
  rw [Function.comp_apply, Postings.labelCount, counted, ← Postings.list_of_mem hentry,
    node.cardinality_eq options entry.1]
  by_cases hempty : node.carriers options entry.1 = ∅
  · simp [hempty]
  · rw [if_neg hempty, if_pos (Finset.card_pos.mpr (Finset.nonempty_iff_ne_empty.mpr hempty))]

/-- The labels counted are those that a live series has. -/
theorem keys_labelCounts :
    (node.index.labelCounts (node.matching options.filters)).map LabelCount.key = node.heldKeys options := by
  rw [labelCounts_eq_counted, heldKeys]
  induction node.index.labelIndex.keys with
  | nil => rfl
  | cons key keys ih =>
    rw [filterMap_cons, filter_cons]
    by_cases hempty : node.carriers options key = ∅
    · simp [counted, hempty, ih]
    · cases hsplit : key.split with
      | none => simp [counted, hempty, hsplit, ih]
      | some label =>
        have hkey : IndexKey.forLabelValue label.1 label.2 = key := (IndexKey.split_spec hsplit).1.symm
        simp [counted, hempty, hsplit, ih, LabelCount.key, hkey]

theorem names_labelCounts : (node.index.labelCounts (node.matching options.filters)).map LabelCount.name =
    (node.heldKeys options).filterMap fun key => key.split.map Prod.fst := by
  rw [labelCounts_eq_counted, heldKeys]
  induction node.index.labelIndex.keys with
  | nil => rfl
  | cons key keys ih =>
    rw [filterMap_cons, filter_cons]
    by_cases hempty : node.carriers options key = ∅
    · simp [counted, hempty, ih]
    · cases hsplit : key.split with
      | none => simp [counted, hempty, hsplit, ih]
      | some label => simp [counted, hempty, hsplit, ih]

end StatsNode

/-- What a name adds up to in the entries of a list is what its labels do. -/
theorem StatList.tally_entries (focusLabel : Str) (list : StatList) (labels : List LabelCount) (n : Str) :
    TopK.tally PostingStat.name PostingStat.count (list.entries focusLabel labels) n =
    (labels.map fun label => if list.nameOf focusLabel (label.name, label.value) = some n then label.count else 0).sum
    := by
  have hvalues : ∀ name : Str, TopK.tally PostingStat.name PostingStat.count
      ((labels.filter (·.name = name)).map fun label => ⟨label.value, label.count⟩) n =
      (labels.map fun label => if (if label.name = name then some label.value else none) = some n
        then label.count else 0).sum := by
    intro name
    induction labels with
    | nil => rfl
    | cons label labels ih =>
      rw [map_cons, sum_cons, ← ih, filter_cons]
      by_cases hname : label.name = name
      · simp [hname]
      · simp [hname]
  cases list with
  | metricName => exact hvalues metricNameLabel
  | focusLabelValue => exact hvalues focusLabel
  | labelValuePair =>
    rw [StatList.entries, TopK.tally, map_map]
    simp only [StatList.nameOf, Option.some.injEq]
    rfl
  | labelName =>
    rw [StatList.entries_labelName, (collate_spec [] _ nodup_nil).2.2, TopK.tally_nil, Nat.zero_add, TopK.tally,
      map_map]
    simp only [StatList.nameOf, Option.some.injEq]
    rfl

/-- The entries of a node count its live series. -/
theorem StatsNode.tally_entries (list : StatList) (node : StatsNode) :
    TopK.tally PostingStat.name PostingStat.count (node.entries options list) = node.liveCount options list := by
  funext n
  rw [StatsNode.entries, StatList.tally_entries, labelCounts_eq_counted, liveCount]
  induction node.index.labelIndex.keys with
  | nil => rfl
  | cons key keys ih =>
    rw [map_cons, sum_cons, ← ih, filterMap_cons]
    by_cases hempty : node.carriers options key = ∅
    · simp [counted, hempty]
    · cases hsplit : key.split with
      | none => simp [counted, hempty, hsplit]
      | some label => simp [counted, hempty, hsplit]

def parts (nodes : List StatsNode) (list : StatList) :
    List (List PostingStat × List PostingStat) :=
  nodes.map fun node => (node.sent options list, node.entries options list)

theorem seriesCount_response (hasher : Hasher) (options : LabelStatsOptions) (node : StatsNode) :
    (node.response hasher options).seriesCount = node.seriesCount options := by
  unfold StatsNode.response StatsNode.seriesCount Postings.statsRestricted
  cases node.matching options.filters with
  | none => rfl
  | some matching =>
    by_cases hnone : matching = ∅
    · simp [hnone]
    · simp [hnone, Postings.collectStats]

theorem held_singleton (node : StatsNode) :
    heldNames options [node] =
      ((node.index.labelCounts (node.matching options.filters)).map LabelCount.name).toFinset ∧
    heldKeys options [node] =
      ((node.index.labelCounts (node.matching options.filters)).map LabelCount.key).toFinset := by
  constructor
  · rw [heldNames, flatMap_singleton, node.names_labelCounts]
  · rw [heldKeys, flatMap_singleton, node.keys_labelCounts]

theorem bitmaps_response (hasher : Hasher) (options : LabelStatsOptions) (node : StatsNode) :
    (node.response hasher options).labelsBitmap = (heldNames options [node]).image hasher.name ∧
    (node.response hasher options).labelValuePairsBitmap = (heldKeys options [node]).image hasher.key := by
  obtain ⟨hnames, hkeys⟩ := held_singleton options node
  rw [hnames, hkeys]
  unfold StatsNode.response Postings.labelBitmapsRestricted
  by_cases hnone : node.matching options.filters = some ∅
  · simp [hnone, Postings.labelCounts_empty]
  · constructor
    · ext x
      simp [hnone]
    · ext x
      simp [hnone]

theorem held_append (nodes nodes' : List StatsNode) :
    heldNames options (nodes ++ nodes') = heldNames options nodes ∪ heldNames options nodes' ∧
    heldKeys options (nodes ++ nodes') = heldKeys options nodes ∪ heldKeys options nodes' := by
  simp only [heldNames, heldKeys, flatMap_append, filterMap_append, toFinset_append, and_self]

theorem state_onResponse (hasher : Hasher) (options : LabelStatsOptions) (nodes : List StatsNode) :
    ((nodes.map (·.response hasher options)).foldl StatsResults.onResponse .default).seriesCount =
    (nodes.map (·.seriesCount options)).sum ∧
    ((nodes.map (·.response hasher options)).foldl StatsResults.onResponse .default).labelsBitmap =
    (heldNames options nodes).image hasher.name ∧
    ((nodes.map (·.response hasher options)).foldl StatsResults.onResponse .default).labelValuePairsBitmap =
    (heldKeys options nodes).image hasher.key := by
  induction nodes using List.reverseRecOn with
  | nil => exact ⟨rfl, rfl, rfl⟩
  | append_singleton nodes node ih =>
    obtain ⟨hseries, hlabels, hpairs⟩ := ih
    obtain ⟨hbitmap, hbitmap'⟩ := bitmaps_response hasher options node
    obtain ⟨hnames, hkeys⟩ := held_append options nodes [node]
    rw [map_append, foldl_append, map_cons, map_nil, foldl_cons, foldl_nil]
    refine ⟨?_, ?_, ?_⟩
    · simp only [StatsResults.onResponse, hseries, seriesCount_response, map_append, sum_append,
        map_cons, map_nil, sum_singleton]
    · rw [hnames, Finset.image_union, ← hlabels, ← hbitmap]
      rfl
    · rw [hkeys, Finset.image_union, ← hpairs, ← hbitmap']
      rfl

/-- The counts of a list, as the shards send and as they have them. -/
theorem exact_reply_iff (hasher : Hasher) (order : HashOrder PostingStat) (options : LabelStatsOptions)
    (nodes : List StatsNode) (list : StatList) :
    TopK.Exact PostingStat.name PostingStat.count (liveTotal options nodes list) options.fanoutLimit
    (collectTop options.fanoutLimit (order.order
    (((nodes.map (·.response hasher options)).foldl StatsResults.onResponse .default).counts list))) ↔
    TopK.Outnumbered PostingStat.name PostingStat.count options.fanoutLimit (parts options nodes list) := by
  have htotal : liveTotal options nodes list =
      TopK.total PostingStat.name PostingStat.count (parts options nodes list) := by
    funext n
    rw [parts, TopK.total_parts, liveTotal]
    simp only [StatsNode.tally_entries]
  have hmerge := merges_onResponse (nodes.map (·.response hasher options)) list
  have hlists : (nodes.map (·.response hasher options)).map (·.top list) = (parts options nodes list).map Prod.fst := by
    rw [parts, map_map, map_map]
    rfl
  rw [hlists] at hmerge
  rw [htotal]
  exact TopK.exact_iff_outnumbered (forall_mem_map.mpr fun node _ => node.isTop_sent options list)
    (forall_mem_map.mpr fun node _ => node.nodup_entries options list) hmerge
    ((isTop_collectTop _ _).of_perm (order.perm _)) (forall_mem_map.mpr fun node _ => node.entries_pos options list)

/-- What the counts of live series say of the names that the shards cut. -/
theorem outnumbered_parts (nodes : List StatsNode) (list : StatList) :
    (TopK.AlwaysOutnumbered options.fanoutLimit nodes (StatsNode.liveCount options list) →
      TopK.Outnumbered PostingStat.name PostingStat.count options.fanoutLimit (parts options nodes list)) ∧
    (TopK.Decided options.fanoutLimit nodes (StatsNode.liveCount options list) →
      TopK.Outnumbered PostingStat.name PostingStat.count options.fanoutLimit (parts options nodes list) →
      TopK.AlwaysOutnumbered options.fanoutLimit nodes (StatsNode.liveCount options list)) := by
  have hcounts : StatsNode.liveCount options list =
      fun node => TopK.tally PostingStat.name PostingStat.count (node.entries options list) :=
    funext fun node => (node.tally_entries options list).symm
  have htop : ∀ node ∈ nodes, TopK.IsTop PostingStat.count options.fanoutLimit (node.sent options list)
      (node.entries options list) := fun node _ => node.isTop_sent options list
  have hnodup : ∀ node ∈ nodes, ((node.entries options list).map PostingStat.name).Nodup :=
    fun node _ => node.nodup_entries options list
  have hpos : ∀ node ∈ nodes, ∀ stat ∈ node.entries options list, 0 < stat.count :=
    fun node _ => node.entries_pos options list
  rw [hcounts]
  exact ⟨TopK.outnumbered_of_always htop hnodup hpos, TopK.always_of_outnumbered htop hnodup hpos⟩

/-- The reply of the cluster is the true one if the names that a node may have to cut are outnumbered, and
only then unless a node has to cut between equal counts. -/
theorem labelStatsFanout_true_iff (hasher : Hasher) (orders : StatList → HashOrder PostingStat)
    (options : LabelStatsOptions) (nodes : List StatsNode) (reply : LabelStatsReply)
    (hreply : labelStatsFanout hasher orders options nodes = .ok reply) (hhash : hasher.CollisionFree options nodes) :
    (CutNamesOutnumbered options nodes → TrueStats options nodes reply) ∧
    (NoTieIsCut options nodes → TrueStats options nodes reply → CutNamesOutnumbered options nodes) := by
  unfold labelStatsFanout at hreply
  obtain ⟨responses, hresponses, rfl⟩ := Except.ok_of_map hreply
  obtain rfl := mapM_ok_eq_map (fun node response => StatsNode.getLocalResponse_eq) hresponses
  obtain ⟨hseries, hlabels, hpairs⟩ := state_onResponse hasher options nodes
  constructor
  · intro hout
    refine ⟨hseries, ?_, ?_, fun list => (exact_reply_iff hasher (orders list) options nodes list).mpr
      ((outnumbered_parts options nodes list).1 (hout list))⟩
    · exact (congrArg Finset.card hlabels).trans (Finset.card_image_of_injOn hhash.1)
    · exact (congrArg Finset.card hpairs).trans (Finset.card_image_of_injOn hhash.2)
  · exact fun hties htrue list => (outnumbered_parts options nodes list).2 (hties list)
      ((exact_reply_iff hasher (orders list) options nodes list).mp (htrue.lists list))

theorem names_labelNameEntries (focusLabel : Str) (labels : List LabelCount) :
    ((StatList.labelName.entries focusLabel labels).map PostingStat.name).toFinset =
    (labels.map LabelCount.name).toFinset := by
  ext n
  rw [mem_toFinset, mem_toFinset, StatList.entries_labelName, (collate_spec [] _ nodup_nil).2.1, map_map]
  simp only [map_nil, not_mem_nil, false_or]
  rfl

/-- The reply of a node on its own is the true one for its series. -/
theorem labelStatsStandalone_true (node : StatsNode) (reply : LabelStatsReply)
    (hlimit : options.limit ≠ 0) (hreply : labelStatsStandalone options node = .ok reply) :
    TrueStats options [node] reply := by
  have hfanout : options.fanoutLimit = options.limit := if_neg hlimit
  unfold labelStatsStandalone at hreply
  obtain ⟨matching, hok, rfl⟩ := Except.ok_of_map hreply
  have hmatching : node.matching options.filters = matching := by
    rw [StatsNode.matching, hok]
  obtain ⟨hnames, hkeys⟩ := held_singleton options node
  rw [hmatching] at hnames hkeys
  refine ⟨?_, ?_, ?_, fun list => ?_⟩
  · have hseries := seriesCount_response ⟨fun _ => 0, fun _ => 0⟩ options node
    rw [map_singleton, sum_singleton, ← hseries, StatsNode.response, hmatching, hfanout]
  · rw [hnames, ← names_labelNameEntries options.focusLabel, toFinset_card_of_nodup
      (StatList.nodup_entries _ (node.index.nodup_labelCounts _) .labelName), length_map]
    by_cases hnone : matching = some ∅
    · simp [hnone, Postings.statsRestricted, Postings.labelCounts_empty, StatList.entries]
    · rw [Postings.statsRestricted, if_neg hnone]
      rfl
  · rw [hkeys, toFinset_card_of_nodup (node.index.nodup_labelCounts _), length_map]
    by_cases hnone : matching = some ∅
    · simp [hnone, Postings.statsRestricted, Postings.labelCounts_empty]
    · rw [Postings.statsRestricted, if_neg hnone]
      rfl
  · have htop := node.isTop_sent options list
    rw [StatsNode.sent, hmatching, hfanout] at htop
    have hexact := htop.exact (node.nodup_entries options list) (node.entries_pos options list)
    have htotal : liveTotal options [node] list = node.liveCount options list := by
      funext n
      exact sum_singleton
    rw [htotal, hfanout, ← node.tally_entries]
    exact hexact

section

/-- The index of series that have nothing but a metric name. -/
def metricIndex (metrics : List Label) : Postings :=
  metrics.zipIdx.foldl (fun index metric => index.indexTimeseries
    ⟨Fin.ofNat _ (metric.2 + 1), [metric.1]⟩ [0x6B]) .default

def metricNode (metrics : List Label) : StatsNode := ⟨metricIndex metrics, .insertion⟩

def metricA : Label := ⟨metricNameLabel, Str.fromUtf8Lossy [0x61], by decide⟩

def metricB : Label := ⟨metricNameLabel, Str.fromUtf8Lossy [0x62], by decide⟩

def limitOne : LabelStatsOptions := { label := none, limit := 1, filters := [], limit_le := by decide }

/-- Three series of `a` and one of `b`, which the limit cuts. -/
def nodeAAAB : StatsNode := metricNode [metricA, metricA, metricA, metricB]

def nodeAA : StatsNode := metricNode [metricA, metricA]

/-- With limit 1 a name that leads on every node outnumbers all others. -/
theorem alwaysOutnumbered_of_leader {ι κ : Type*} {parts : List ι} {counts : ι → κ → Nat} (leader : κ)
    (h : ∀ i ∈ parts, ∀ n, n ≠ leader → counts i n < counts i leader) :
    TopK.AlwaysOutnumbered 1 parts counts := by
  intro kept hkept n _
  have hleader : ¬ TopK.CutAt parts counts kept leader := by
    rintro ⟨i, hi, hcount, hnot⟩
    obtain ⟨hlen, hle⟩ := (hkept i hi).rest leader hcount hnot
    obtain ⟨m, hm⟩ := length_eq_one_iff.mp hlen
    rw [hm] at hnot hle
    have hlt := h i hi m (Ne.symm (by simpa using hnot))
    exact absurd (hle m (mem_singleton_self m)) (not_le.mpr hlt)
  refine ⟨[leader], nodup_singleton _, rfl, fun m hm => ?_⟩
  rw [mem_singleton.mp hm]
  refine ⟨hleader, sum_le_sum fun i hi => ?_⟩
  by_cases hn : n = leader
  · rw [hn]
  · exact (h i hi n hn).le

theorem liveCount_of_table {node : StatsNode} (table : List (Option (Str × Str) × Nat))
    (h : node.index.labelIndex.keys.map (fun key => (key.split, (node.carriers limitOne key).card)) = table)
    (list : StatList) (n : Str) :
    node.liveCount limitOne list n =
    (table.map fun e => if e.1.bind (list.nameOf metricNameLabel) = some n then e.2 else 0).sum := by
  rw [← h, map_map]
  rfl

theorem liveCount_nodeAAAB (list : StatList) (n : Str) : nodeAAAB.liveCount limitOne list n =
    (if list.nameOf metricNameLabel (metricNameLabel, metricA.value) = some n then 3 else 0)
    + if list.nameOf metricNameLabel (metricNameLabel, metricB.value) = some n then 1 else 0 :=
  liveCount_of_table [(some (metricNameLabel, metricA.value), 3), (some (metricNameLabel, metricB.value), 1)]
    (by decide +kernel) list n

theorem liveCount_nodeAA (list : StatList) (n : Str) : nodeAA.liveCount limitOne list n =
    if list.nameOf metricNameLabel (metricNameLabel, metricA.value) = some n then 2 else 0 :=
  liveCount_of_table [(some (metricNameLabel, metricA.value), 2)] (by decide +kernel) list n

theorem cutNamesOutnumbered_twoNodes : CutNamesOutnumbered limitOne [nodeAAAB, nodeAA] := by
  intro list
  obtain ⟨leader, hleader⟩ : ∃ leader, list.nameOf metricNameLabel (metricNameLabel, metricA.value) = some leader := by
    cases list <;> exact ⟨_, rfl⟩
  refine alwaysOutnumbered_of_leader leader fun node hnode n hn => ?_
  have hne : leader ≠ n := Ne.symm hn
  rcases mem_cons.mp hnode with rfl | hnode
  · simp only [liveCount_nodeAAAB, hleader, Option.some.injEq, hne, if_false, if_true]
    split_ifs <;> omega
  · rw [mem_singleton.mp hnode]
    simp only [liveCount_nodeAA, hleader, Option.some.injEq, hne, if_false, if_true]
    omega

/-- Fingerprints that tell the labels of the two nodes apart. -/
def twoHashes : Hasher := ⟨fun _ => 0, fun key => if key = .forLabelValue metricA.name metricA.value then 0 else 1⟩

theorem labelStatsFanout_true_iff_two_nodes :
    0 < nodeAAAB.liveCount limitOne .metricName metricB.value ∧
    metricB.value ∉ (nodeAAAB.sent limitOne .metricName).map PostingStat.name ∧
    ∃ reply, labelStatsFanout twoHashes (fun _ => .insertion) limitOne [nodeAAAB, nodeAA] = .ok reply ∧
      TrueStats limitOne [nodeAAAB, nodeAA] reply := by
  obtain ⟨reply, hreply⟩ : ∃ reply, labelStatsFanout twoHashes (fun _ => .insertion) limitOne [nodeAAAB, nodeAA] =
      .ok reply := ⟨_, rfl⟩
  have hnames : heldNames limitOne [nodeAAAB, nodeAA] = {metricNameLabel} := by decide +kernel
  have hkeys : heldKeys limitOne [nodeAAAB, nodeAA] = {.forLabelValue metricA.name metricA.value,
      .forLabelValue metricB.name metricB.value} := by decide +kernel
  have hhash : twoHashes.CollisionFree limitOne [nodeAAAB, nodeAA] := by
    refine ⟨?_, ?_⟩
    · rw [hnames]
      simp
    · rw [hkeys]
      have hne : twoHashes.key (.forLabelValue metricA.name metricA.value) ≠
          twoHashes.key (.forLabelValue metricB.name metricB.value) := by decide
      simp [Set.injOn_pair, hne]
  exact ⟨by decide +kernel, by decide +kernel, reply, hreply, (labelStatsFanout_true_iff twoHashes _ limitOne _ reply
    hreply hhash).1 cutNamesOutnumbered_twoNodes⟩

/-- Two series of `a` and one of `b` on one node, three of `b` on the other: with limit 1 the first node
sends only `a`, and the reply counts three series of `b` where there are four. -/
theorem labelStatsFanout_loses_count : ((labelStatsFanout ⟨fun _ => 0, fun _ => 0⟩ (fun _ => .insertion) limitOne
        [metricNode [metricA, metricA, metricB], metricNode [metricB, metricB, metricB]]).toOption.map fun reply =>
          reply.top .metricName) = some [⟨metricB.value, 3⟩] ∧
      liveTotal limitOne [metricNode [metricA, metricA, metricB], metricNode [metricB, metricB, metricB]] .metricName
        metricB.value = 4 := by
  decide +kernel

end

end ValkeyTimeSeries
