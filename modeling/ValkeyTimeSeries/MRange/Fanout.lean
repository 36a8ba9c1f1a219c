/-
MRange/Fanout.lean

A multi-series range query over shards (`commands/ts_mrange_fanout_command.rs`, `series/mrange.rs`).

Every shard answers for the series it holds, with the rows of each series or, where the reducer of GROUPBY has
a mergeable state, with the partial states of each group.  Under COUNT push-down a shard keeps the first rows
of an answer, or the last ones for a reverse query, since it always streams ascending.

The push-down does not change the reply as long as no answer loses a row that comes before one it keeps
(`CutsLate`, `reply_pushdown_count`).  A LATEST row is appended to the stored rows whatever its timestamp is, and
a stream that goes back in time loses the wrong rows (`reply_pushdown_count_latest`).
-/
import ValkeyTimeSeries.Library.SortedMap
import ValkeyTimeSeries.MRange.Iterators

namespace ValkeyTimeSeries.MRange

open List Truncation Aggregators SortedMap

variable {K L α ν σ τ : Type} [LinearOrder L]

/-! ### The query -/

structure Partials (ν σ : Type) where
  reduction : Reduction ν σ σ
  default : σ
  merge : σ → σ → σ
  finalize : σ → ν

def samplePartials [Arith α] (reducer : PartialReducer α) : Partials α (PartialState α) where
  reduction := partialSampleReducer reducer
  default := .default
  merge := PartialReducer.merge reducer.kind
  finalize := PartialReducer.finalize reducer.kind

/-- One state per aggregation column. -/
def Partials.columns (p : Partials ν σ) (columns : Nat) : Partials (List ν) (List σ) where
  reduction := p.reduction.columns columns
  default := List.replicate columns p.default
  merge := List.zipWith p.merge
  finalize states := states.map p.finalize

structure Grouping (ν σ τ : Type) where
  /-- `PartialReducer::for_config` of the reducer. -/
  partials : Option (Partials ν σ)
  reducer : Reduction ν τ ν

/-- GROUPBY over single samples. -/
def sampleGrouping [Arith α] (config : AggregatorConfig α) (aggregator : Aggregator α) :
    Grouping α (PartialState α) (Aggregator α × Bool) where
  partials := (PartialReducer.forConfig config).map samplePartials
  reducer := sampleReducer aggregator

def Grouping.columns (grouping : Grouping ν σ τ) (columns : Nat) : Grouping (List ν) (List σ) (List τ) where
  partials := grouping.partials.map (·.columns columns)
  reducer := grouping.reducer.columns columns

structure MRangeOptions (K α ν σ τ : Type) where
  isReverse : Bool
  count : Option Nat
  excludeEmpty : Bool
  isMulti : Bool
  /-- The rows of one series: its samples, or their buckets under AGGREGATION, which EMPTY fills from what
  the series holds. -/
  pipeline : K → List (Int × α) → List (Int × ν)
  grouping : Option (Grouping ν σ τ)
  /-- The parser refuses EXCLUDEEMPTY together with GROUPBY. -/
  excludeEmpty_ungrouped : excludeEmpty = true → grouping = none

structure MRangeSeriesMeta (K L α : Type) where
  sourceKey : K
  groupLabelValue : Option L
  /-- The stored samples that the range and the filters select. -/
  stored : List (Int × α)
  /-- The open bucket of a compaction, under LATEST. -/
  latest : Option (Int × α)

def createRangeIterator (options : MRangeOptions K α ν σ τ) (series : MRangeSeriesMeta K L α) : List (Int × ν) :=
  options.pipeline series.sourceKey (series.stored ++ series.latest.toList)

/-! ### A shard's answer -/

structure SeriesRangeResponse (K L ν : Type) where
  key : K
  groupLabelValue : Option L
  data : List (Int × ν)

structure GroupPartialsResult (L σ : Type) where
  groupLabelValue : L
  rows : List (Int × σ)

structure MultiRangeResponse (K L ν σ : Type) where
  series : List (SeriesRangeResponse K L ν)
  groupPartials : List (GroupPartialsResult L σ)

/-- The limit a shard applies to what it streams. -/
def pushedLimit (options : MRangeOptions K α ν σ τ) (applyCount : Bool) : Option SampleLimit :=
  if applyCount then options.count.map fun n => if options.isReverse then .tail n else .head n else none

def applyLimit {ι : Type} (limit : Option SampleLimit) (items : List ι) : List ι :=
  match limit with
  | some limit => limit.apply items
  | none => items

def groupSeriesByLabel (metas : List (MRangeSeriesMeta K L α)) : SortedMap L (List (MRangeSeriesMeta K L α)) :=
  .collect MRangeSeriesMeta.groupLabelValue [] (fun series m => series ++ [m]) .empty metas

def processMrangeGroupPartials (options : MRangeOptions K α ν σ τ) (p : Partials ν σ) (limit : Option SampleLimit)
    (metas : List (MRangeSeriesMeta K L α)) : List (GroupPartialsResult L σ) :=
  (groupSeriesByLabel metas).entries.map fun group =>
    ⟨group.1, applyLimit limit (reduceRows p.reduction (multiSeriesIter (group.2.map (createRangeIterator options))))⟩

def processMrange (options : MRangeOptions K α ν σ τ) (limit : Option SampleLimit)
    (metas : List (MRangeSeriesMeta K L α)) : List (SeriesRangeResponse K L ν) :=
  let items := metas.map fun m => ⟨m.sourceKey, m.groupLabelValue, applyLimit limit (createRangeIterator options m)⟩
  if options.excludeEmpty then items.filter (!·.data.isEmpty) else items

def getLocalResponse (options : MRangeOptions K α ν σ τ) (applyCount : Bool) (metas : List (MRangeSeriesMeta K L α)) :
    MultiRangeResponse K L ν σ :=
  let limit := pushedLimit options applyCount
  match options.grouping.bind Grouping.partials with
  | some p => ⟨[], processMrangeGroupPartials options p limit metas⟩
  | none => ⟨processMrange options limit metas, []⟩

/-! ### The coordinator -/

inductive ResultKey (K L : Type) where
  | series (key : K)
  | group (label : L)

structure MRangeSeriesResult (K L ν : Type) where
  key : ResultKey K L
  data : List (Int × ν)

def takeCount {ι : Type} (count : Option Nat) (items : List ι) : List ι :=
  match count with
  | some count => items.take count
  | none => items

def processSeriesList (options : MRangeOptions K α ν σ τ) (series : List (List (Int × ν))) : List (Int × ν) :=
  let merged :=
    if options.isReverse then sortReverse series.flatten
    else match series with
      | [rows] => rows
      | _ => multiSeriesIter series
  match options.grouping with
  | some grouping => takeCount options.count (reduceRows grouping.reducer merged)
  | none => takeCount options.count merged

def processSeriesSamples (options : MRangeOptions K α ν σ τ) (series : SeriesRangeResponse K L ν) :
    MRangeSeriesResult K L ν where
  key := .series series.key
  data :=
    if options.isMulti then collectRows series.data options.isReverse options.count
    else processSeriesList options [series.data]

def handleBasic (options : MRangeOptions K α ν σ τ) (series : List (SeriesRangeResponse K L ν)) :
    List (MRangeSeriesResult K L ν) := series.map (processSeriesSamples options)

def constructGroupMap (series : List (SeriesRangeResponse K L ν)) : SortedMap L (List (SeriesRangeResponse K L ν)) :=
  .collect SeriesRangeResponse.groupLabelValue [] (fun group s => group ++ [s]) .empty series

def processGroup (options : MRangeOptions K α ν σ τ) (reducer : Reduction ν τ ν) (series : List (List (Int × ν))) :
    List (Int × ν) :=
  if options.isMulti then collectRows (reduceRows reducer (multiSeriesIter series)) options.isReverse options.count
  else processSeriesList options series

def handleGrouping (options : MRangeOptions K α ν σ τ) (reducer : Reduction ν τ ν)
    (series : List (SeriesRangeResponse K L ν)) : List (MRangeSeriesResult K L ν) :=
  (constructGroupMap series).entries.map fun group =>
    ⟨.group group.1, processGroup options reducer (group.2.map SeriesRangeResponse.data)⟩

/-- Merge the rows of one shard's answer into the buckets of its group. -/
def mergeInto (p : Partials ν σ) (buckets : SortedMap Int σ) (rows : List (Int × σ)) : SortedMap Int σ :=
  .collect (fun row => some row.1) p.default (fun merged row => p.merge merged row.2) buckets rows

def finalizeBuckets (options : MRangeOptions K α ν σ τ) (p : Partials ν σ) (buckets : SortedMap Int σ) :
    List (Int × ν) :=
  let rows := buckets.entries.map fun bucket => (bucket.1, p.finalize bucket.2)
  if options.isMulti then collectRows rows options.isReverse options.count
  else takeCount options.count (if options.isReverse then rows.reverse else rows)

def handleGroupPartials (options : MRangeOptions K α ν σ τ) (p : Partials ν σ)
    (partials : List (GroupPartialsResult L σ)) : List (MRangeSeriesResult K L ν) :=
  let groups : SortedMap L (SortedMap Int σ) :=
    .collect (fun part => some part.groupLabelValue) .empty (fun buckets part => mergeInto p buckets part.rows) .empty
      partials
  groups.entries.map fun group => ⟨.group group.1, finalizeBuckets options p group.2⟩

def processResponses (options : MRangeOptions K α ν σ τ) (responses : List (MultiRangeResponse K L ν σ)) :
    List (MRangeSeriesResult K L ν) :=
  match options.grouping with
  | some grouping =>
    match grouping.partials with
    | some p => handleGroupPartials options p (responses.flatMap MultiRangeResponse.groupPartials)
    | none => handleGrouping options grouping.reducer (responses.flatMap MultiRangeResponse.series)
  | none =>
    let results := handleBasic options (responses.flatMap MultiRangeResponse.series)
    if options.excludeEmpty then results.filter (!·.data.isEmpty) else results

def sortMrangeResults [LinearOrder K] (results : List (MRangeSeriesResult K L ν)) : List (MRangeSeriesResult K L ν) :=
  results.mergeSort fun a b =>
    match a.key, b.key with
    | .series k, .series k' => k ≤ k'
    | .group l, .group l' => l ≤ l'
    | _, _ => true

/-- The reply, from the shards' answers in the order of their arrival. -/
def reply [LinearOrder K] (options : MRangeOptions K α ν σ τ) (responses : List (MultiRangeResponse K L ν σ)) :
    List (MRangeSeriesResult K L ν) := sortMrangeResults (processResponses options responses)

/-! ### The requested order -/

/-- The order in which a reply lists timestamps. -/
def Precedes : Bool → Int → Int → Prop
  | false, a, b => a < b
  | true, a, b => b < a

instance (isReverse : Bool) : Std.Asymm (Precedes isReverse) where
  asymm a b h h' := by cases isReverse <;> exact absurd h (not_lt_of_gt h')

def inOrder {ι : Type} (isReverse : Bool) (items : List ι) : List ι := if isReverse then items.reverse else items

theorem collectRows_eq {ι : Type} (items : List ι) (isReverse : Bool) (count : Option Nat) :
    collectRows items isReverse count = takeCount count (inOrder isReverse items) := by
  cases isReverse <;> cases count <;> simp [collectRows, takeCount, inOrder, reverse_tailIter]

theorem inOrder_limited {ι : Type} (isReverse : Bool) (n : Nat) (items : List ι) :
    inOrder isReverse ((if isReverse then SampleLimit.tail n else .head n).apply items) =
    (inOrder isReverse items).take n := by
  cases isReverse
  · rfl
  · exact reverse_tailIter n items

theorem SampleLimit.apply_sublist {ι : Type} (limit : SampleLimit) (items : List ι) :
    (limit.apply items).Sublist items := by
  cases limit with
  | head n => exact take_sublist n items
  | tail n =>
    rw [SampleLimit.apply, tailIter_eq]
    exact drop_sublist _ _

variable {rows : List (Int × ν)}

theorem Tabulates.inOrder {f : Int → List ν → σ} {table : List (Int × σ)}
    (h : Tabulates (· < ·) f rows table) (isReverse : Bool) :
    Tabulates (Precedes isReverse) f rows (inOrder isReverse table) := by
  cases isReverse
  · exact h
  · exact h.reverse

/-! ### The coordinator's tables -/

section Coordinator

variable {options : MRangeOptions K α ν σ τ}

def limited {ι : Type} (options : MRangeOptions K α ν σ τ) (items : List ι) : List ι :=
  applyLimit (pushedLimit options true) items

/-- What the limit takes off. -/
def cutOff {ι : Type} (options : MRangeOptions K α ν σ τ) (items : List ι) : List ι :=
  match options.count with
  | some n => if options.isReverse then items.take (items.length - n) else items.drop n
  | none => []

/-- The rows that are cut off come after all those that are kept, in the requested order. -/
def CutsLate (options : MRangeOptions K α ν σ τ) {ρ : Type} (rows : List (Int × ρ)) : Prop :=
  ∀ kept ∈ limited options rows, ∀ row ∈ cutOff options rows, Precedes options.isReverse kept.1 row.1

/-- Such rows, where no two that are kept have the same timestamp. -/
def CutsClean (options : MRangeOptions K α ν σ τ) {ρ : Type} (rows : List (Int × ρ)) : Prop :=
  cutOff options rows = [] ∨ ((limited options rows).map Prod.fst).Nodup ∧ CutsLate options rows

theorem limited_cutOff {ι : Type} (options : MRangeOptions K α ν σ τ) (items : List ι) :
    items = limited options items ++ cutOff options items ∨ items = cutOff options items ++ limited options items := by
  unfold limited pushedLimit cutOff
  cases options.count with
  | none => exact .inl (append_nil _).symm
  | some n =>
    cases options.isReverse with
    | false => exact .inl (take_append_drop n items).symm
    | true =>
      right
      change items = items.take (items.length - n) ++ tailIter n items
      rw [tailIter_eq, take_append_drop]

theorem length_limited {ι : Type} {items : List ι} {n : Nat} (hcount : options.count = some n)
    (hcut : cutOff options items ≠ []) : (limited options items).length = n := by
  unfold cutOff at hcut
  unfold limited pushedLimit
  rw [hcount] at hcut ⊢
  revert hcut
  cases options.isReverse with
  | false =>
    intro hcut
    change (items.take n).length = n
    have : items.drop n ≠ [] := hcut
    rw [ne_eq, drop_eq_nil_iff] at this
    rw [length_take]
    omega
  | true =>
    intro hcut
    change (tailIter n items).length = n
    have : items.take (items.length - n) ≠ [] := hcut
    rw [ne_eq, take_eq_nil_iff] at this
    rw [tailIter_eq, length_drop]
    omega

theorem limited_eq_self {ι : Type} {items : List ι} (hcut : cutOff options items = []) : limited options items =
    items := by
  rcases limited_cutOff options items with hsplit | hsplit
  · rwa [hcut, append_nil, eq_comm] at hsplit
  · rwa [hcut, nil_append, eq_comm] at hsplit

theorem CutsClean.cleanCut {ρ : Type} {rows : List (Int × ρ)} (h : CutsClean options rows) {n : Nat}
    (hcount : options.count = some n) :
    CleanCut (Precedes options.isReverse) n rows (limited options rows) := by
  refine ⟨cutOff options rows, limited_cutOff options rows, ?_⟩
  by_cases hcut : cutOff options rows = []
  · exact .inl hcut
  · obtain ⟨hnodup, hlate⟩ := h.resolve_left hcut
    exact .inr ⟨hnodup, length_limited hcount hcut, hlate⟩

/-- Ascending rows may be cut. -/
theorem cutsClean_of_ascending {ρ : Type} {rows : List (Int × ρ)} (h : Ascending (· < ·) rows) :
    CutsClean options rows := by
  refine .inr ⟨?_, fun kept hkept row hrow => ?_⟩
  · refine pairwise_map.mpr ((h.sublist ?_).imp fun hlt => ne_of_lt hlt)
    rcases limited_cutOff options rows with hsplit | hsplit
    · nth_rewrite 2 [hsplit]
      exact sublist_append_left _ _
    · nth_rewrite 2 [hsplit]
      exact sublist_append_right _ _
  · have horder := h
    unfold limited pushedLimit at hkept
    unfold cutOff at hrow
    cases hcount : options.count with
    | none =>
      rw [hcount] at hrow
      cases hrow
    | some n =>
      rw [hcount] at hkept hrow
      cases hrev : options.isReverse with
      | false =>
        rw [hrev] at hkept hrow
        rw [← take_append_drop n rows] at horder
        exact (pairwise_append.mp horder).2.2 kept hkept row hrow
      | true =>
        rw [hrev] at hkept hrow
        change kept ∈ tailIter n rows at hkept
        rw [tailIter_eq] at hkept
        rw [← take_append_drop (rows.length - n) rows] at horder
        exact (pairwise_append.mp horder).2.2 row hrow kept hkept

theorem takeCount_inOrder_limited {ι : Type} (items : List ι) :
    takeCount options.count (inOrder options.isReverse (limited options items)) =
    takeCount options.count (inOrder options.isReverse items) := by
  unfold limited pushedLimit
  cases options.count with
  | none => rfl
  | some n =>
    refine (congrArg (List.take n) (inOrder_limited options.isReverse n items)).trans ?_
    rw [take_take, Nat.min_self]
    rfl

/-- A result that is the start of a table does not change under the limit. -/
theorem takeCount_table_limited (options : MRangeOptions K α ν σ τ) {ρ ω : Type} {f : Int → List ρ → ω}
    {ls : List (List (Int × ρ))} (hls : ∀ l ∈ ls, CutsClean options l) {n : Nat} (hcount : options.count = some n)
    {rows rows' : List (Int × ω)} (h : Tabulates (Precedes options.isReverse) f ls.flatten rows)
    (h' : Tabulates (Precedes options.isReverse) f (ls.map (limited options)).flatten rows') :
    takeCount options.count rows' = takeCount options.count rows := by
  rw [hcount]
  exact Tabulates.take_eq (fun l hl => (hls l hl).cleanCut hcount) h h'

theorem ascending_limited (h : Ascending (· < ·) rows) : Ascending (· < ·) (limited options rows) := by
  unfold limited pushedLimit
  cases options.count with
  | none => exact h
  | some n => exact h.sublist (SampleLimit.apply_sublist _ rows)

/-- Sorting leaves rows that come before all others in front. -/
theorem take_sortReverse_append (kept dropped : List (Int × ν))
    (h : ∀ row ∈ kept, ∀ late ∈ dropped, late.1 < row.1) :
    (sortReverse (dropped ++ kept)).take kept.length = sortReverse kept := by
  have htrans : ∀ a b c : Int × ν, decide (b.1 ≤ a.1) = true → decide (c.1 ≤ b.1) = true →
      decide (c.1 ≤ a.1) = true := by
    simp only [decide_eq_true_eq]
    omega
  have htotal : ∀ a b : Int × ν, (decide (b.1 ≤ a.1) || decide (a.1 ≤ b.1)) = true := by
    simp only [Bool.or_eq_true, decide_eq_true_eq]
    omega
  induction dropped with
  | nil => exact take_of_length_le (length_mergeSort kept).le
  | cons d dropped ih =>
    have ih := ih fun row hrow late hlate => h row hrow late (mem_cons_of_mem _ hlate)
    obtain ⟨l₁, l₂, hsort, hrest, -⟩ := mergeSort_cons htrans htotal d (dropped ++ kept)
    have hsorted : (l₁ ++ d :: l₂).Pairwise fun a b => decide (b.1 ≤ a.1) = true :=
      hsort ▸ pairwise_mergeSort htrans htotal (d :: (dropped ++ kept))
    -- the row that is added comes after all that are kept
    have hlen : kept.length ≤ l₁.length := by
      by_contra hshort
      have hlong : kept.length ≤ (l₁ ++ l₂).length := by
        rw [← hrest, length_mergeSort, length_append]
        omega
      rw [length_append] at hlong
      cases l₂ with
      | nil => exact hshort (by simpa using hlong)
      | cons e l₂ =>
        have hmem : e ∈ sortReverse kept := by
          rw [← ih, sortReverse, hrest, take_append]
          refine mem_append_right _ ?_
          obtain ⟨m, hm⟩ : ∃ m, kept.length - l₁.length = m + 1 := ⟨kept.length - l₁.length - 1, by omega⟩
          rw [hm]
          exact mem_cons_self
        have hlt := h e ((mergeSort_perm kept _).mem_iff.mp hmem) d mem_cons_self
        have hle := (pairwise_cons.mp (pairwise_append.mp hsorted).2.1).1 e mem_cons_self
        rw [decide_eq_true_eq] at hle
        exact absurd hlt (not_lt.mpr hle)
    rw [cons_append, sortReverse, hsort, take_append_of_le_length hlen, ← ih, sortReverse, hrest,
      take_append_of_le_length hlen]

theorem processSeriesList_single (hgrp : options.grouping = none) (rows : List (Int × ν)) :
    processSeriesList options [rows] = takeCount options.count (if options.isReverse then sortReverse rows else rows)
    := by
  unfold processSeriesList
  rw [hgrp, flatten_cons, flatten_nil, append_nil]

/-- The only place without grouping where a row that comes late can be lost to an earlier one: sorted samples. -/
def SortsSamples (options : MRangeOptions K α ν σ τ) : Prop := options.isReverse = true ∧ options.isMulti = false

omit [LinearOrder L] in
theorem processSeriesSamples_limited (hgrp : options.grouping = none) {series : SeriesRangeResponse K L ν}
    (h : SortsSamples options → CutsLate options series.data) :
    processSeriesSamples options { series with data := limited options series.data } =
    processSeriesSamples options series := by
  have hrows : SortsSamples options → takeCount options.count (sortReverse (limited options series.data)) =
      takeCount options.count (sortReverse series.data) := by
    intro hsorts
    have hlate := h hsorts
    cases hcount : options.count with
    | none =>
      unfold limited pushedLimit
      rw [hcount]
      rfl
    | some n =>
      by_cases hcut : cutOff options series.data = []
      · rw [limited_eq_self hcut]
      · have hlen := length_limited hcount hcut
        have hsplit : series.data = cutOff options series.data ++ limited options series.data := by
          unfold limited pushedLimit cutOff
          rw [hcount, hsorts.1]
          change _ = _ ++ tailIter n _
          rw [tailIter_eq]
          exact (take_append_drop _ _).symm
        have htake := take_sortReverse_append (limited options series.data) (cutOff options series.data)
          fun row hrow late hlater => by
            have hprecedes := hlate row hrow late hlater
            rw [hsorts.1] at hprecedes
            exact hprecedes
        rw [← hsplit, hlen] at htake
        change (sortReverse _).take n = (sortReverse _).take n
        rw [htake]
        exact take_of_length_le ((length_mergeSort _).le.trans hlen.le)
  unfold processSeriesSamples
  rw [processSeriesList_single hgrp, processSeriesList_single hgrp, collectRows_eq, collectRows_eq,
    takeCount_inOrder_limited]
  cases hmulti : options.isMulti with
  | true => rfl
  | false =>
    cases hrev : options.isReverse with
    | true => exact congrArg (MRangeSeriesResult.mk _) (hrows ⟨hrev, hmulti⟩)
    | false =>
      have hforward : takeCount options.count (inOrder options.isReverse (limited options series.data)) = _ :=
        takeCount_inOrder_limited series.data
      rw [hrev] at hforward
      exact congrArg (MRangeSeriesResult.mk _) hforward

/-- The reply of a group is the start of the table of its members' rows. -/
theorem processGroup_table {grouping : Grouping ν σ τ} (hgrp : options.grouping = some grouping)
    {series : List (List (Int × ν))} (h : ∀ rows ∈ series, Ascending (· < ·) rows) :
    ∃ table, Tabulates (Precedes options.isReverse) grouping.reducer.run series.flatten table ∧
    processGroup options grouping.reducer series = takeCount options.count table := by
  have hmerged := (reduceRows_tabulates grouping.reducer (multiSeriesIter_ordered h)).congr fun ts =>
    (valuesAt_multiSeriesIter h ts).symm
  unfold processGroup processSeriesList
  rw [hgrp]
  split
  · exact ⟨_, Tabulates.inOrder hmerged _, collectRows_eq _ _ _⟩
  · refine ⟨_, ?_, rfl⟩
    cases hrev : options.isReverse with
    | true =>
      exact (reduceRows_tabulates grouping.reducer (sortReverse_ordered series.flatten)).congr fun ts =>
        (valuesAt_sortReverse ts _).symm
    | false =>
      rw [if_neg Bool.false_ne_true]
      split
      · next rows =>
          have hrows : Ordered (· < ·) rows := (h rows mem_cons_self).imp Or.inr
          rw [flatten_cons, flatten_nil, append_nil]
          exact reduceRows_tabulates grouping.reducer hrows
      · exact hmerged

/-- The streams of a group can be cut where all are ascending, where none loses a row, and where their rows are
sorted and the cuts are clean. -/
def GroupCuts (options : MRangeOptions K α ν σ τ) (series : List (List (Int × ν))) : Prop :=
  (∀ rows ∈ series, Ascending (· < ·) rows) ∨ (∀ rows ∈ series, cutOff options rows = []) ∨
    SortsSamples options ∧ ∀ rows ∈ series, CutsClean options rows

theorem processGroup_limited {grouping : Grouping ν σ τ} (hgrp : options.grouping = some grouping) {n : Nat}
    (hcount : options.count = some n) {series : List (List (Int × ν))} (h : GroupCuts options series) :
    processGroup options grouping.reducer (series.map (limited options)) =
    processGroup options grouping.reducer series := by
  rcases h with h | h | ⟨hsorts, h⟩
  · have hlimited : ∀ rows ∈ series.map (limited options), Ascending (· < ·) rows := by
      intro rows hrows
      obtain ⟨rows, hmem, rfl⟩ := mem_map.mp hrows
      exact ascending_limited (h rows hmem)
    obtain ⟨table, htable, heq⟩ := processGroup_table hgrp h
    obtain ⟨table', htable', heq'⟩ := processGroup_table hgrp hlimited
    rw [heq, heq']
    exact takeCount_table_limited options (fun rows hrows => cutsClean_of_ascending (h rows hrows)) hcount htable
      htable'
  · rw [map_congr_left fun rows hrows => limited_eq_self (h rows hrows), map_id']
  · have htable (series : List (List (Int × ν))) : Tabulates (Precedes options.isReverse) grouping.reducer.run
        series.flatten (reduceRows grouping.reducer (sortReverse series.flatten)) := by
      rw [hsorts.1]
      exact (reduceRows_tabulates grouping.reducer (sortReverse_ordered series.flatten)).congr fun ts =>
        (valuesAt_sortReverse ts _).symm
    have heq (series : List (List (Int × ν))) : processGroup options grouping.reducer series =
        takeCount options.count (reduceRows grouping.reducer (sortReverse series.flatten)) := by
      unfold processGroup processSeriesList
      rw [hgrp, hsorts.1, hsorts.2]
      rfl
    rw [heq, heq]
    exact takeCount_table_limited options h hcount (htable series) (htable _)

/-- The buckets of a group are the table of the shards' partial rows. -/
theorem mergeInto_tabulates (p : Partials ν σ) (rows : List (Int × σ)) :
    Tabulates (· < ·) (fun _ states => states.foldl p.merge p.default) rows (mergeInto p .empty rows).entries := by
  have hget : ∀ ts, (mergeInto p .empty rows).get? ts =
      if valuesAt ts rows = [] then none else some ((valuesAt ts rows).foldl p.merge p.default) := by
    intro ts
    unfold mergeInto valuesAt
    rw [get?_collect_empty, foldl_map]
    simp only [Option.some.injEq, map_eq_nil_iff]
  refine ⟨(mergeInto p .empty rows).sorted, fun ts => ?_, fun bucket hbucket => ?_⟩
  · have hkeys := mem_keys_iff (m := mergeInto p .empty rows) (k := ts)
    refine hkeys.trans ?_
    rw [hget, ← not_iff_not, ← valuesAt_eq_nil_iff]
    split <;> simp [*]
  · have hsome := get?_eq_some_iff.mpr hbucket
    rw [hget] at hsome
    split at hsome
    · cases hsome
    · exact (Option.some.inj hsome).symm

theorem finalizeBuckets_table (options : MRangeOptions K α ν σ τ) (p : Partials ν σ) (rows : List (Int × σ)) :
    ∃ table, Tabulates (Precedes options.isReverse) (fun _ states => p.finalize (states.foldl p.merge p.default)) rows
    table ∧ finalizeBuckets options p (mergeInto p .empty rows) = takeCount options.count table := by
  refine ⟨_, Tabulates.inOrder ((mergeInto_tabulates p rows).map p.finalize) _, ?_⟩
  unfold finalizeBuckets
  split
  · exact collectRows_eq _ _ _
  · rfl

omit [LinearOrder L] in
theorem foldl_mergeInto (p : Partials ν σ) (parts : List (GroupPartialsResult L σ)) (buckets : SortedMap Int σ) :
    parts.foldl (fun buckets part => mergeInto p buckets part.rows) buckets =
    mergeInto p buckets (parts.map GroupPartialsResult.rows).flatten := by
  induction parts generalizing buckets with
  | nil => rfl
  | cons part parts ih =>
    rw [foldl_cons, ih, map_cons, flatten_cons]
    exact (collect_append _ _ _).symm

end Coordinator

/-! ### Push-down -/

section Pushdown

variable {options : MRangeOptions K α ν σ τ}

private theorem foldl_snoc {ι : Type} (items acc : List ι) : items.foldl (fun l x => l ++ [x]) acc = acc ++ items := by
  induction items generalizing acc with
  | nil => rw [foldl_nil, append_nil]
  | cons x items ih => rw [foldl_cons, ih, append_assoc, singleton_append]

def seriesAnswer (options : MRangeOptions K α ν σ τ) (series : MRangeSeriesMeta K L α) : SeriesRangeResponse K L ν :=
  ⟨series.sourceKey, series.groupLabelValue, createRangeIterator options series⟩

def SeriesRangeResponse.limited (options : MRangeOptions K α ν σ τ) (series : SeriesRangeResponse K L ν) :
    SeriesRangeResponse K L ν := { series with data := MRange.limited options series.data }

def GroupPartialsResult.limited (options : MRangeOptions K α ν σ τ) (part : GroupPartialsResult L σ) :
    GroupPartialsResult L σ := { part with rows := MRange.limited options part.rows }

omit [LinearOrder L] in
/-- The coordinator drops what a shard may have dropped before. -/
theorem handleBasic_excludeEmpty (series : List (SeriesRangeResponse K L ν)) (hgrp : options.grouping = none) :
    (handleBasic options (series.filter (!·.data.isEmpty))).filter (!·.data.isEmpty) =
    (handleBasic options series).filter (!·.data.isEmpty) := by
  have hempty : ∀ s : SeriesRangeResponse K L ν, s.data = [] → (processSeriesSamples options s).data = [] := by
    intro s hs
    unfold processSeriesSamples
    rw [hs, processSeriesList_single hgrp, collectRows_eq]
    unfold inOrder takeCount sortReverse
    cases options.isReverse <;> cases options.count <;> simp
  induction series with
  | nil => rfl
  | cons s series ih =>
    by_cases hs : s.data = []
    · rw [filter_cons_of_neg (by simp [hs]), ih]
      unfold handleBasic
      rw [map_cons, filter_cons_of_neg (by simp [hempty s hs])]
    · rw [filter_cons_of_pos (by simpa using hs)]
      unfold handleBasic at ih ⊢
      rw [map_cons, map_cons, filter_cons, filter_cons, ih]

omit [LinearOrder L] in
theorem handleBasic_limited (hgrp : options.grouping = none) (series : List (SeriesRangeResponse K L ν))
    (h : ∀ s ∈ series, SortsSamples options → CutsLate options s.data) :
    handleBasic options (series.map (SeriesRangeResponse.limited options)) = handleBasic options series := by
  unfold handleBasic
  rw [map_map]
  exact map_congr_left fun s hs => processSeriesSamples_limited hgrp (h s hs)

theorem handleGrouping_limited {grouping : Grouping ν σ τ} (hgrp : options.grouping = some grouping) {n : Nat}
    (hcount : options.count = some n) {series : List (SeriesRangeResponse K L ν)}
    (h : ∀ label, GroupCuts options
      ((series.filter fun s => s.groupLabelValue = some label).map SeriesRangeResponse.data)) :
    handleGrouping options grouping.reducer (series.map (SeriesRangeResponse.limited options)) =
    handleGrouping options grouping.reducer series := by
  refine map_entries_collect (fun label (group : List (SeriesRangeResponse K L ν)) => (⟨.group label,
    processGroup options grouping.reducer (group.map SeriesRangeResponse.data)⟩ : MRangeSeriesResult K L ν))
    (SeriesRangeResponse.limited options) (fun _ => rfl) series fun label => congrArg (MRangeSeriesResult.mk _) ?_
  rw [foldl_snoc, foldl_snoc, nil_append, nil_append, map_map]
  have hgroup := processGroup_limited hgrp hcount (h label)
  rwa [map_map] at hgroup

theorem handleGroupPartials_limited (p : Partials ν σ) {n : Nat} (hcount : options.count = some n)
    {parts : List (GroupPartialsResult L σ)} (h : ∀ part ∈ parts, CutsClean options part.rows) :
    (handleGroupPartials options p (parts.map (GroupPartialsResult.limited options)) :
    List (MRangeSeriesResult K L ν)) = handleGroupPartials options p parts := by
  refine map_entries_collect (fun label buckets => (⟨.group label, finalizeBuckets options p buckets⟩ :
    MRangeSeriesResult K L ν)) (GroupPartialsResult.limited options) (fun _ => rfl) parts
    fun label => congrArg (MRangeSeriesResult.mk _) ?_
  rw [foldl_mergeInto, foldl_mergeInto, map_map]
  let streams := (parts.filter fun part => some part.groupLabelValue = some label).map GroupPartialsResult.rows
  have hstreams : ∀ rows ∈ streams, CutsClean options rows := by
    intro rows hrows
    obtain ⟨part, hpart, rfl⟩ := mem_map.mp hrows
    exact h part (mem_of_mem_filter hpart)
  obtain ⟨table, htable, heq⟩ := finalizeBuckets_table options p streams.flatten
  obtain ⟨table', htable', heq'⟩ := finalizeBuckets_table options p (streams.map (limited options)).flatten
  have hlimited := takeCount_table_limited options hstreams hcount htable htable'
  rw [← heq, ← heq', map_map] at hlimited
  exact hlimited

omit [LinearOrder L] in
theorem flatMap_processMrange (limit : Option SampleLimit) (shards : List (List (MRangeSeriesMeta K L α))) :
    shards.flatMap (processMrange options limit) = if options.excludeEmpty then
    ((shards.flatten.map (seriesAnswer options)).map fun s => { s with data := applyLimit limit s.data }).filter
    (!·.data.isEmpty)
    else (shards.flatten.map (seriesAnswer options)).map fun s => { s with data := applyLimit limit s.data } := by
  induction shards with
  | nil => simp
  | cons metas shards ih =>
    rw [flatMap_cons, ih]
    unfold processMrange
    split <;> simp [seriesAnswer, Function.comp_def]

theorem processMrangeGroupPartials_ascending (p : Partials ν σ) {metas : List (MRangeSeriesMeta K L α)}
    (h : ∀ m ∈ metas, m.groupLabelValue ≠ none → Ascending (· < ·) (createRangeIterator options m)) :
    ∀ part ∈ processMrangeGroupPartials options p none metas, Ascending (· < ·) part.rows := by
  intro part hpart
  obtain ⟨group, hgroup, rfl⟩ := mem_map.mp hpart
  refine (reduceRows_tabulates p.reduction (multiSeriesIter_ordered fun rows hrows => ?_)).ascending
  obtain ⟨m, hm, rfl⟩ := mem_map.mp hrows
  have hget := get?_eq_some_iff.mpr hgroup
  rw [groupSeriesByLabel, get?_collect_empty, foldl_snoc] at hget
  split at hget
  · cases hget
  · rw [← Option.some.inj hget, nil_append] at hm
    obtain ⟨hmem, hlabel⟩ := mem_filter.mp hm
    refine h m hmem ?_
    rw [of_decide_eq_true hlabel]
    exact Option.some_ne_none _

theorem series_answers (hnone : options.grouping.bind Grouping.partials = none) (applyCount : Bool)
    (shards : List (List (MRangeSeriesMeta K L α))) :
    (shards.map (getLocalResponse options applyCount)).flatMap MultiRangeResponse.series =
    shards.flatMap (processMrange options (pushedLimit options applyCount)) := by
  rw [flatMap_map]
  refine flatMap_congr fun metas _ => ?_
  unfold getLocalResponse
  rw [hnone]

theorem partial_answers {p : Partials ν σ} (hsome : options.grouping.bind Grouping.partials = some p)
    (applyCount : Bool) (shards : List (List (MRangeSeriesMeta K L α))) :
    (shards.map (getLocalResponse options applyCount)).flatMap MultiRangeResponse.groupPartials =
    shards.flatMap (processMrangeGroupPartials options p (pushedLimit options applyCount)) := by
  rw [flatMap_map]
  refine flatMap_congr fun metas _ => ?_
  unfold getLocalResponse
  rw [hsome]

theorem processMrangeGroupPartials_limited (p : Partials ν σ) (metas : List (MRangeSeriesMeta K L α)) :
    processMrangeGroupPartials options p (pushedLimit options true) metas =
    (processMrangeGroupPartials options p none metas).map (GroupPartialsResult.limited options) := by
  unfold processMrangeGroupPartials
  rw [map_map]
  rfl

/-- No answer loses a row that comes before one it keeps: the samples of a series, where they are sorted
afterwards; the rows of the series of a group; the partial states of a group on a shard. -/
def CutsSafely (options : MRangeOptions K α ν σ τ) (shards : List (List (MRangeSeriesMeta K L α))) : Prop :=
  match options.grouping with
  | none => ∀ series ∈ shards.flatten, SortsSamples options → CutsLate options (createRangeIterator options series)
  | some grouping =>
    match grouping.partials with
    | none => ∀ label, GroupCuts options
        ((shards.flatten.filter fun series => series.groupLabelValue = some label).map (createRangeIterator options))
    | some p => ∀ shard ∈ shards, ∀ part ∈ processMrangeGroupPartials options p none shard, CutsClean options part.rows

/-- Series that stream ascending can be cut; of those in no group nothing is asked. -/
theorem cutsSafely_of_ascending {shards : List (List (MRangeSeriesMeta K L α))}
    (h : ∀ series ∈ shards.flatten, options.grouping = none ∨ series.groupLabelValue ≠ none →
      Ascending (· < ·) (createRangeIterator options series)) : CutsSafely options shards := by
  unfold CutsSafely
  cases hgrp : options.grouping with
  | none =>
    intro series hseries _ kept hkept row hrow
    have hcuts : CutsClean options _ := cutsClean_of_ascending (h series hseries (.inl hgrp))
    rcases hcuts with hcut | hclean
    · rw [hcut] at hrow
      cases hrow
    · exact hclean.2 kept hkept row hrow
  | some grouping =>
    dsimp only
    cases grouping.partials with
    | none =>
      refine fun label => .inl fun rows hrows => ?_
      obtain ⟨series, hseries, rfl⟩ := mem_map.mp hrows
      obtain ⟨hmem, hlabel⟩ := mem_filter.mp hseries
      refine h series hmem (.inr ?_)
      rw [of_decide_eq_true hlabel]
      exact Option.some_ne_none label
    | some p =>
      refine fun shard hshard part hpart => cutsClean_of_ascending ?_
      refine processMrangeGroupPartials_ascending p (fun series hseries hlabel => ?_) part hpart
      exact h series (mem_flatten_of_mem hshard hseries) (.inr hlabel)

end Pushdown

/-- `TS.MREVRANGE … COUNT 1 GROUPBY … REDUCE sum`. -/
def lastSum [Root] : MRangeOptions Nat Exact Exact (PartialState Exact) (Aggregator Exact × Bool) where
  isReverse := true
  count := some 1
  excludeEmpty := false
  isMulti := false
  pipeline _ rows := rows
  grouping := some (sampleGrouping ⟨.sum, none, fun h => by cases h⟩ (.sum .new))
  excludeEmpty_ungrouped h := by cases h

/-- A compaction destination with a stored sample past its open bucket. -/
def aheadOfSource : MRangeSeriesMeta Nat Nat Exact := ⟨1, some 0, [(100, .num 7)], some (50, .num 1)⟩

/-- Two shards share a group; the second also has a series that goes back in time, in no group. -/
def twoShards : List (List (MRangeSeriesMeta Nat Nat Exact)) :=
  [[⟨1, some 0, [(10, .num 1), (20, .num 2)], some (30, .num 3)⟩],
    [⟨2, some 0, [(20, .num 5), (30, .num 4)], none⟩, { aheadOfSource with groupLabelValue := none }]]

end ValkeyTimeSeries.MRange
