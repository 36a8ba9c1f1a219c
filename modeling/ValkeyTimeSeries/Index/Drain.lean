/-
Index/Drain.lean

Draining stale ids while the index is in use (`tasks/stale_ids.rs`, `postings/stale.rs`).

Design.  The state holds, for each database number, the postings and the cursor the last drain step of that
number returned.  `Hides` is the invariant: a dead id is masked or in no list, and while a cursor is pending
the postings under it carry the snapshot of the pass, whose ids are in no list before the cursor.

What breaks it is a change of the postings under a pending cursor: SWAPDB and FLUSHDB move the snapshot and
leave the cursor, and the next step takes a new snapshot in the middle of the lists.
-/
import ValkeyTimeSeries.Index.Query

namespace ValkeyTimeSeries

open List Function Finset SortedMap

/-! ### The system -/

/-- A database number, an `i32`. -/
abbrev DbId := Int

structure IndexState where
  postings : DbId → Postings
  cursor : DbId → Option IndexKey

inductive IndexEvent where
  | index (db : DbId) (series : IndexedSeries) (key : KeyType)
  | bulkIndex (db : DbId) (entries : List BulkIndexEntry)
  | remove (db : DbId) (series : IndexedSeries)
  | removeForKey (db : DbId) (series : IndexedSeries) (key : KeyType)
  | mark (db : DbId) (ids : List SeriesRef)
  | optimize (db : DbId) (start : Option IndexKey) (count : Nat)
  /-- SWAPDB. -/
  | swap (a b : DbId)
  /-- FLUSHDB, once for each database that is flushed. -/
  | flush (db : DbId)
  /-- One batch of `process_db_until_done`. -/
  | drain (db : DbId) (count : Nat)

def swapAt {α : Type} (f : DbId → α) (a b : DbId) : DbId → α :=
  fun db => if db = a then f b else if db = b then f a else f db

namespace IndexState

def init : IndexState := ⟨fun _ => .default, fun _ => none⟩

def mutate (s : IndexState) (db : DbId) (f : Postings → Postings) : IndexState :=
  { s with postings := update s.postings db (f (s.postings db)) }

def step (s : IndexState) : IndexEvent → IndexState
  | .index db series key => s.mutate db (·.indexTimeseries series key)
  | .bulkIndex db entries => s.mutate db (·.bulkIndex entries)
  | .remove db series => s.mutate db fun p => (p.removeTimeseries series).1
  | .removeForKey db series key => s.mutate db fun p => (p.removeTimeseriesForKey series key).1
  | .mark db ids => s.mutate db (·.markIdsAsStale ids)
  | .optimize db start count => s.mutate db fun p => (p.optimizePostings start count).1
  | .swap a b => { s with postings := swapAt s.postings a b }
  | .flush db => s.mutate db fun _ => .default
  | .drain db count =>
    let (postings, next) := (s.postings db).removeStaleIds (s.cursor db) count
    { postings := update s.postings db postings, cursor := update s.cursor db next }

def run (s : IndexState) (events : List IndexEvent) : IndexState := events.foldl step s

end IndexState

namespace IndexEvent

/-- The ids marked stale and not indexed since, in each database. -/
def dead (before : DbId → PostingsBitmap) : IndexEvent → DbId → PostingsBitmap
  | index db series _ => update before db ((before db).erase series.id)
  | bulkIndex db entries => update before db (before db \ (entries.map (·.id)).toFinset)
  | mark db ids => update before db (before db ∪ ids.toFinset)
  | swap a b => swapAt before a b
  | _ => before

/-- SWAPDB and FLUSHDB wait for the drain of the databases they touch. -/
def Quiet (s : IndexState) : IndexEvent → Prop
  | swap a b => s.cursor a = none ∧ s.cursor b = none
  | flush db => s.cursor db = none
  | _ => True

instance (s : IndexState) (event : IndexEvent) : Decidable (event.Quiet s) := by
  cases event <;> unfold Quiet <;> infer_instance

end IndexEvent

def deadAfter (events : List IndexEvent) : DbId → PostingsBitmap := events.foldl IndexEvent.dead fun _ => ∅

def QuietRun (s : IndexState) : List IndexEvent → Prop
  | [] => True
  | event :: events => event.Quiet s ∧ QuietRun (s.step event) events

instance QuietRun.decidable (s : IndexState) (events : List IndexEvent) : Decidable (QuietRun s events) :=
  match events with
  | [] => isTrue trivial
  | event :: events =>
    have := QuietRun.decidable (s.step event) events
    inferInstanceAs (Decidable (event.Quiet s ∧ _))

/-! ### The invariant of one database -/

/-- Dead ids are hidden, also from the pass under way. -/
structure Hides (p : Postings) (cursor : Option IndexKey) (dead : PostingsBitmap) : Prop where
  marked : p.staleIds.ids ⊆ dead
  notLive : ∀ id ∈ dead, id ∉ p.allPostings
  hidden : ∀ id ∈ dead, id ∈ p.staleIds.ids ∨ ∀ key, id ∉ p.list key
  behind : ∀ first ∈ cursor, ∃ pass, p.staleIds.pass = some pass ∧
    ∀ id ∈ pass, id ∈ p.staleIds.ids → ∀ key < first, id ∉ p.list key

namespace Hides

variable {p : Postings} {cursor : Option IndexKey} {dead : PostingsBitmap}

theorem default (dead : PostingsBitmap) : Hides .default none dead where
  marked := empty_subset _
  notLive := fun _ _ => notMem_empty _
  hidden := fun _ _ => Or.inr fun _ => notMem_empty _
  behind := fun _ h => by cases h

variable (h : Hides p cursor dead)
include h

/-- What the mutations have in common: the ids `alive` are indexed, nothing else enters a list. -/
theorem mutate {p' : Postings} (alive : PostingsBitmap)
    (hlist : ∀ id key, id ∈ p'.list key → id ∈ p.list key ∨ id ∈ alive)
    (hids : p'.staleIds.ids = p.staleIds.ids \ alive) (hpass : p'.staleIds.pass = p.staleIds.pass)
    (hall : ∀ id ∈ p'.allPostings, id ∈ p.allPostings ∨ id ∈ alive) : Hides p' cursor (dead \ alive) where
  marked := by
    rw [hids]
    exact sdiff_subset_sdiff h.marked (Finset.Subset.refl _)
  notLive := by
    intro id hid hmem
    obtain ⟨hdead, hnot⟩ := mem_sdiff.mp hid
    exact (hall id hmem).elim (h.notLive id hdead) hnot
  hidden := by
    intro id hid
    obtain ⟨hdead, hnot⟩ := mem_sdiff.mp hid
    rcases h.hidden id hdead with hstale | hnone
    · exact Or.inl (hids ▸ mem_sdiff.mpr ⟨hstale, hnot⟩)
    · exact Or.inr fun key hmem => (hlist id key hmem).elim (hnone key) hnot
  behind := by
    intro first hfirst
    obtain ⟨pass, heq, hbehind⟩ := h.behind first hfirst
    refine ⟨pass, hpass.trans heq, fun id hid hstale key hkey hmem => ?_⟩
    rw [hids, mem_sdiff] at hstale
    exact (hlist id key hmem).elim (hbehind id hid hstale.1 key hkey) hstale.2

variable (series : IndexedSeries)

theorem indexTimeseries (key : KeyType) :
    Hides (p.indexTimeseries series key) cursor (dead.erase series.id) := by
  obtain ⟨hlist, hids, hpass, hall, _⟩ := p.indexTimeseries_spec series key
  rw [← Finset.sdiff_singleton_eq_erase]
  refine h.mutate _ (fun id key hmem => ?_) ?_ hpass fun id hmem => ?_
  · exact ((hlist id key).mp hmem).imp_right fun hid => Finset.mem_singleton.mpr hid.1
  · rw [hids, Finset.sdiff_singleton_eq_erase]
  · rw [hall] at hmem
    exact (Finset.mem_insert.mp hmem).symm.imp_right Finset.mem_singleton.mpr

theorem bulkIndex (entries : List BulkIndexEntry) :
    Hides (p.bulkIndex entries) cursor (dead \ (entries.map (·.id)).toFinset) := by
  obtain ⟨hlist, hids, hpass, hall, _⟩ := p.bulkIndex_spec entries
  refine h.mutate _ (fun id key hmem => ?_) hids hpass fun id hmem => ?_
  · refine ((hlist id key).mp hmem).imp_right fun ⟨entry, hentry, hid, _⟩ => ?_
    exact mem_toFinset.mpr (mem_map.mpr ⟨entry, hentry, hid⟩)
  · rw [hall] at hmem
    exact mem_union.mp hmem

theorem shrink {p' : Postings} (hlist : ∀ id key, id ∈ p'.list key → id ∈ p.list key)
    (hstale : p'.staleIds = p.staleIds) (hall : p'.allPostings ⊆ p.allPostings) : Hides p' cursor dead := by
  have hmut := h.mutate ∅ (fun id key hmem => Or.inl (hlist id key hmem))
    (by rw [hstale, sdiff_empty]) (by rw [hstale]) (fun id hmem => Or.inl (hall hmem))
  rwa [sdiff_empty] at hmut

theorem removeTimeseries :
    Hides (p.removeTimeseries series).1 cursor dead := by
  obtain ⟨hlist, hstale, hall, _⟩ := p.removeTimeseries_spec series
  refine h.shrink (fun id key hmem => ((hlist id key).mp hmem).1) hstale ?_
  rw [hall]
  exact erase_subset _ _

theorem removeTimeseriesForKey (key : KeyType) :
    Hides (p.removeTimeseriesForKey series key).1 cursor dead := by
  rw [Postings.removeTimeseriesForKey]
  split
  · exact h.removeTimeseries series
  · exact h

theorem optimizePostings (start : Option IndexKey) (count : Nat) : Hides
    (p.optimizePostings start count).1 cursor dead :=
  h.shrink (fun _ key hmem => p.list_optimizePostings start count key ▸ hmem) rfl (Finset.Subset.refl _)

theorem markIdsAsStale (ids : List SeriesRef) :
    Hides (p.markIdsAsStale ids) cursor (dead ∪ ids.toFinset) where
  marked := union_subset_union h.marked (Finset.Subset.refl _)
  notLive := by
    intro id hid hmem
    obtain ⟨hlive, hnot⟩ := mem_sdiff.mp hmem
    exact (mem_union.mp hid).elim (fun hdead => h.notLive id hdead hlive) hnot
  hidden := by
    intro id hid
    rcases mem_union.mp hid with hdead | hmark
    · exact (h.hidden id hdead).imp_left fun hstale => mem_union_left _ hstale
    · exact Or.inl (mem_union_right _ hmark)
  behind := by
    intro first hfirst
    obtain ⟨pass, heq, hbehind⟩ := h.behind first hfirst
    refine ⟨pass \ ids.toFinset, ?_, fun id hid hstale => ?_⟩
    · rw [Postings.markIdsAsStale, StaleSet.markMany, heq]
      rfl
    · -- an id marked in mid-pass left the snapshot
      obtain ⟨hpass, hnot⟩ := mem_sdiff.mp hid
      exact hbehind id hpass ((mem_union.mp hstale).resolve_right hnot)

theorem snapshot_behind {id : SeriesRef} {key : IndexKey} (hid : id ∈ p.snapshot cursor)
    (hstale : id ∈ p.staleIds.ids) (hkey : ∃ first ∈ cursor, key < first) : id ∉ p.list key := by
  obtain ⟨first, hfirst, hlt⟩ := hkey
  obtain ⟨pass, heq, hbehind⟩ := h.behind first hfirst
  obtain rfl : cursor = some first := hfirst
  rw [Postings.snapshot, heq] at hid
  exact hbehind id hid hstale key hlt

theorem removeStaleIds (count : Nat) :
    Hides (p.removeStaleIds cursor count).1 (p.removeStaleIds cursor count).2 dead := by
  by_cases hempty : p.staleIds.ids = ∅
  · rw [Postings.removeStaleIds_of_empty hempty]
    exact ⟨h.marked, h.notLive, h.hidden, fun _ hnone => by cases hnone⟩
  · have hlist : ∀ id key, id ∈ (p.removeStaleIds cursor count).1.list key → id ∈ p.list key :=
      fun id key hmem => (Postings.mem_list_removeStaleIds.mp hmem).1
    -- what the step has cleaned, together with what the pass had cleaned before it
    have hclean : ∀ id ∈ p.snapshot cursor, id ∈ p.staleIds.ids → ∀ key,
        (∀ next ∈ p.labelIndex.nextKey cursor count, key < next) →
        id ∉ (p.removeStaleIds cursor count).1.list key := by
      intro id hsnap hstale key hnext hmem
      obtain ⟨hold, hnot⟩ := Postings.mem_list_removeStaleIds.mp hmem
      rcases Postings.Visited.of_not fun hv => hnot ⟨hv, hstale⟩ with hfirst | ⟨next, hn, hle⟩
      · exact h.snapshot_behind hsnap hstale hfirst hold
      · exact absurd (hnext next hn) hle.not_gt
    have hall := (p.removeStaleIds_frame cursor count).1
    rw [Postings.nextKey_removeStaleIds hempty]
    rcases Postings.staleIds_removeStaleIds hempty cursor count with ⟨_, heq⟩ | ⟨hr, heq⟩
    · refine ⟨by rw [heq]; exact h.marked, by rw [hall]; exact h.notLive, fun id hid => ?_, fun next hnext => ?_⟩
      · rw [heq]
        exact (h.hidden id hid).imp_right fun hnone key hmem => hnone key (hlist id key hmem)
      · refine ⟨p.snapshot cursor, by rw [heq], fun id hsnap hstale key hlt => ?_⟩
        rw [heq] at hstale
        refine hclean id hsnap hstale key fun next' hnext' => ?_
        rwa [Option.mem_unique hnext' hnext]
    · refine ⟨?_, by rw [hall]; exact h.notLive, fun id hid => ?_, fun next hnext => ?_⟩
      · rw [heq]
        exact sdiff_subset.trans h.marked
      · rw [heq]
        rcases h.hidden id hid with hstale | hnone
        · by_cases hsnap : id ∈ p.snapshot cursor
          · refine Or.inr fun key => hclean id hsnap hstale key fun next hnext => ?_
            rw [hr.2] at hnext
            cases hnext
          · exact Or.inl (mem_sdiff.mpr ⟨hstale, hsnap⟩)
        · exact Or.inr fun key hmem => hnone key (hlist id key hmem)
      · rw [hr.2] at hnext
        cases hnext

theorem not_answered {id : SeriesRef} (hid : id ∈ dead) {selectors : List SeriesSelector}
    {found : PostingsBitmap} (hfound : p.postingsForSelectors selectors = .ok found) : id ∉ found := by
  intro hmem
  obtain ⟨hseen, hstale⟩ := Postings.postingsForSelectors_seen hfound hmem
  rcases hseen with hall | ⟨key, hat⟩
  · exact h.notLive id hid hall
  · exact (h.hidden id hid).elim hstale fun hnone => hnone key hat.1

end Hides

/-! ### Whole runs -/

section Runs

variable {s : IndexState} {dead : DbId → PostingsBitmap}

def HidesAll (s : IndexState) (dead : DbId → PostingsBitmap) : Prop :=
  ∀ db, Hides (s.postings db) (s.cursor db) (dead db)

section

variable (h : HidesAll s dead)
include h

theorem HidesAll.mutate (db : DbId) (f : Postings → Postings) {dead' : PostingsBitmap}
    (hdb : Hides (f (s.postings db)) (s.cursor db) dead') :
    HidesAll (s.mutate db f) (update dead db dead') := by
  intro db'
  by_cases heq : db' = db
  · subst heq
    simpa [IndexState.mutate] using hdb
  · simpa [IndexState.mutate, heq] using h db'

theorem HidesAll.mutate_same (db : DbId) (f : Postings → Postings)
    (hdb : Hides (f (s.postings db)) (s.cursor db) (dead db)) : HidesAll (s.mutate db f) dead := by
  have hmut := h.mutate db f hdb
  rwa [update_eq_self] at hmut

theorem HidesAll.step {event : IndexEvent} (hquiet : event.Quiet s) :
    HidesAll (s.step event) (event.dead dead) := by
  cases event with
  | index db series key => exact h.mutate db (·.indexTimeseries series key) ((h db).indexTimeseries series key)
  | bulkIndex db entries => exact h.mutate db (·.bulkIndex entries) ((h db).bulkIndex entries)
  | remove db series => exact h.mutate_same db (fun p => (p.removeTimeseries series).1) ((h db).removeTimeseries series)
  | removeForKey db series key =>
    exact h.mutate_same db (fun p => (p.removeTimeseriesForKey series key).1)
      ((h db).removeTimeseriesForKey series key)
  | mark db ids => exact h.mutate db (·.markIdsAsStale ids) ((h db).markIdsAsStale ids)
  | optimize db start count =>
    exact h.mutate_same db (fun p => (p.optimizePostings start count).1)
      ((h db).optimizePostings start count)
  | swap a b =>
    -- no cursor is pending on either side, so the snapshots do not matter
    obtain ⟨ha, hb⟩ : s.cursor a = none ∧ s.cursor b = none := hquiet
    intro db
    simp only [IndexState.step, IndexEvent.dead, swapAt]
    split
    · next heq =>
        have := h b
        rwa [hb, ← ha, ← heq] at this
    · split
      · next heq =>
          have := h a
          rwa [ha, ← hb, ← heq] at this
      · exact h db
  | flush db =>
    have hnone : s.cursor db = none := hquiet
    exact h.mutate_same db (fun _ => .default) (hnone ▸ Hides.default (dead db))
  | drain db count =>
    intro db'
    by_cases heq : db' = db
    · subst heq
      simpa [IndexState.step, IndexEvent.dead] using (h db').removeStaleIds count
    · simpa [IndexState.step, IndexEvent.dead, heq] using h db'

theorem HidesAll.run {events : List IndexEvent} (hquiet : QuietRun s events) :
    HidesAll (s.run events) (events.foldl IndexEvent.dead dead) := by
  induction events generalizing s dead with
  | nil => exact h
  | cons event events ih => exact ih (h.step hquiet.1) hquiet.2

end

theorem HidesAll.init (dead : DbId → PostingsBitmap) : HidesAll .init dead := fun db => Hides.default (dead db)

end Runs

/-! ### A drain from start to end -/

namespace Postings

variable {self : Postings} {cursor : Option IndexKey} {count : Nat} {next : IndexKey}

/-- `process_db_until_done`, one batch size a step; `none` where the sizes end before the drain. -/
def processUntilDone : List Nat → Postings → Option IndexKey → Option Postings
  | [], _, _ => none
  | count :: counts, self, cursor =>
    match self.removeStaleIds cursor count with
    | (self, none) => some self
    | (self, some next) => processUntilDone counts self (some next)

section

variable (hnext : (self.removeStaleIds cursor count).2 = some next)
include hnext

theorem get?_removeStaleIds_ahead {key : IndexKey}
    (hkey : next ≤ key) : (self.removeStaleIds cursor count).1.labelIndex.get? key = self.labelIndex.get? key := by
  have hne : self.staleIds.ids ≠ ∅ := by
    intro hempty
    rw [removeStaleIds_of_empty hempty] at hnext
    cases hnext
  rw [nextKey_removeStaleIds hne] at hnext
  rw [removeStaleIds, if_neg (by simpa [StaleSet.isEmpty] using hne)]
  rw [get?_filterMap]
  cases self.labelIndex.get? key with
  | none => rfl
  | some bitmap =>
    rw [Option.bind_some, if_neg]
    intro hmem
    exact absurd ((mem_batch_keys_iff.mp hmem).2.2 next hnext) hkey.not_gt

theorem removeStaleIds_continues : next ∈ (self.removeStaleIds cursor count).1.labelIndex.keys ∧
    (self.removeStaleIds cursor count).1.staleIds = ⟨self.staleIds.ids, some (self.snapshot cursor)⟩ := by
  have hne : self.staleIds.ids ≠ ∅ := by
    intro hempty
    rw [removeStaleIds_of_empty hempty] at hnext
    cases hnext
  refine ⟨?_, ?_⟩
  · rw [mem_keys_iff, get?_removeStaleIds_ahead hnext le_rfl, ← mem_keys_iff]
    rw [nextKey_removeStaleIds hne] at hnext
    exact (nextKey_mem hnext).1
  · rw [nextKey_removeStaleIds hne] at hnext
    rcases staleIds_removeStaleIds hne cursor count with ⟨_, heq⟩ | ⟨hr, _⟩
    · exact heq
    · rw [hr.2] at hnext
      cases hnext

end

theorem processUntilDone_resumed {counts : List Nat} {p' : Postings}
    (hpass : self.staleIds.pass = some self.staleIds.ids) (hkey : next ∈ self.labelIndex.keys)
    (h : processUntilDone counts self (some next) = some p') : p'.staleIds.ids = ∅ := by
  induction counts generalizing self next with
  | nil => cases h
  | cons count counts ih =>
    have hsnap : self.snapshot (some next) = self.staleIds.ids := by
      rw [snapshot, hpass]
      rfl
    rw [processUntilDone] at h
    split at h
    · next p'' hstep =>
        cases h
        by_cases hempty : self.staleIds.ids = ∅
        · rw [removeStaleIds_of_empty hempty] at hstep
          cases hstep
          exact hempty
        · have hnext := nextKey_removeStaleIds hempty (some next) count
          rw [hstep] at hnext
          rcases staleIds_removeStaleIds hempty (some next) count with ⟨hr, _⟩ | ⟨_, heq⟩
          · -- a last batch is not empty: the cursor is still in the index
            have hbatch : self.labelIndex.batch (some next) count = [] := by
              by_contra hne
              exact hr ⟨hne, hnext.symm⟩
            obtain ⟨bitmap, hget⟩ := mem_keys_iff.mp hkey
            have hahead : (next, bitmap) ∈ self.labelIndex.ahead (some next) :=
              mem_ahead_iff.mpr ⟨get?_eq_some_iff.mp hget, fun s hs => by cases hs; exact le_rfl⟩
            rw [ahead_of_batch_nil hbatch hnext.symm] at hahead
            cases hahead
          · rw [hstep] at heq
            rw [heq, hsnap, Finset.sdiff_self]
    · next p'' next' hstep =>
        have hnext : (self.removeStaleIds (some next) count).2 = some next' := by rw [hstep]
        obtain ⟨hkey', hstale⟩ := removeStaleIds_continues hnext
        rw [hstep] at hkey' hstale
        refine ih ?_ hkey' h
        rw [hstale, hsnap]

/-- A drain from the start empties the stale set if there is a list to visit, and only then. -/
theorem processUntilDone_empties_iff {counts : List Nat} {p' : Postings}
    (h : processUntilDone counts self none = some p') :
    p'.staleIds.ids = ∅ ↔ self.labelIndex.keys ≠ [] ∨ self.staleIds.ids = ∅ := by
  by_cases hempty : self.staleIds.ids = ∅
  · cases counts with
    | nil => cases h
    | cons count counts =>
      rw [processUntilDone, removeStaleIds_of_empty hempty] at h
      cases h
      simp [hempty]
  · cases counts with
    | nil => cases h
    | cons count counts =>
      rw [processUntilDone] at h
      split at h
      · next p'' hstep =>
          cases h
          have hnext := nextKey_removeStaleIds hempty none count
          rw [hstep] at hnext
          have hall : self.labelIndex.ahead none = self.labelIndex.entries := filter_eq_self.mpr fun _ _ => rfl
          rcases staleIds_removeStaleIds hempty none count with ⟨hr, heq⟩ | ⟨hr, heq⟩
          · have hnil : self.labelIndex.entries = [] := by
              rw [← hall]
              refine ahead_of_batch_nil ?_ hnext.symm
              by_contra hne
              exact hr ⟨hne, hnext.symm⟩
            rw [hstep] at heq
            dsimp only at heq
            simp [heq, SortedMap.keys, hnil]
          · rw [hstep] at heq
            dsimp only at heq
            have hkeys : self.labelIndex.keys ≠ [] := by
              intro hnil
              have : self.labelIndex.entries = [] := map_eq_nil_iff.mp hnil
              exact hr.1 (by rw [SortedMap.batch, hall, this, take_nil])
            simp [heq, snapshot, hkeys]
      · next p'' next' hstep =>
          have hnext : (self.removeStaleIds none count).2 = some next' := by rw [hstep]
          obtain ⟨hkey, hstale⟩ := removeStaleIds_continues hnext
          rw [hstep] at hkey hstale
          have hdone := processUntilDone_resumed (by dsimp only at hstale; rw [hstale]; rfl) hkey h
          have hkeys : self.labelIndex.keys ≠ [] := by
            rw [nextKey_removeStaleIds hempty] at hnext
            exact ne_nil_of_mem (nextKey_mem hnext).1
          simp [hdone, hkeys]

/-- Batches that are not empty come to an end. -/
theorem processUntilDone_ends {counts : List Nat} (hpos : ∀ count ∈ counts, 0 < count)
    (hlong : (self.labelIndex.ahead cursor).length < counts.length) :
    ∃ p', processUntilDone counts self cursor = some p' := by
  induction counts generalizing self cursor with
  | nil => cases hlong
  | cons count counts ih =>
    rw [processUntilDone]
    split
    · exact ⟨_, rfl⟩
    · next p'' next' hstep =>
        have hnext : (self.removeStaleIds cursor count).2 = some next' := by rw [hstep]
        have hne : self.staleIds.ids ≠ ∅ := by
          intro hempty
          rw [removeStaleIds_of_empty hempty] at hstep
          cases hstep
        have hle := length_ahead_nextKey_le p''.labelIndex
          (nextKey_removeStaleIds hne cursor count ▸ hnext) (by
            intro e he hk
            have hget := get?_eq_some_iff.mpr he
            have hsame := get?_removeStaleIds_ahead hnext hk
            rw [hstep] at hsame
            exact get?_eq_some_iff.mp (hsame ▸ hget))
        have hcount := hpos count mem_cons_self
        rw [length_cons] at hlong
        have hahead : 0 < (self.labelIndex.ahead cursor).length := by
          rw [nextKey_removeStaleIds hne] at hnext
          rw [length_pos_iff]
          intro hnil
          simp [SortedMap.nextKey, hnil] at hnext
        exact ih (fun c hc => hpos c (mem_cons_of_mem _ hc)) (by omega)

end Postings

/-! ### Stale ids stay hidden -/

/-- **Draining hides what it drains.**  In a run where SWAPDB and FLUSHDB wait for the drain of the
databases they touch, an id that was marked and not indexed since is masked or in no list, and
no query answers it.  A drain from the start that comes to its end, as it does in batches that are
not empty, leaves no stale id exactly if there was a list to visit or no stale id. -/
theorem run_hides_stale (events : List IndexEvent) (hquiet : QuietRun .init events) (db : DbId) :
    let p := (IndexState.init.run events).postings db
    p.staleIds.ids ⊆ deadAfter events db ∧
      (∀ id ∈ deadAfter events db,
        (id ∈ p.staleIds.ids ∨ ∀ key, id ∉ p.list key) ∧
          ∀ selectors found, p.postingsForSelectors selectors = .ok found → id ∉ found) ∧
      (∀ counts p', Postings.processUntilDone counts p none = some p' →
        (p'.staleIds.ids = ∅ ↔ p.labelIndex.keys ≠ [] ∨ p.staleIds.ids = ∅)) ∧
      ∀ counts, (∀ count ∈ counts, 0 < count) → p.labelIndex.length < counts.length →
        ∃ p', Postings.processUntilDone counts p none = some p' := by
  have hhides := (HidesAll.init fun _ => ∅).run hquiet db
  refine ⟨hhides.marked, fun id hid => ⟨hhides.hidden id hid, fun selectors found hfound => ?_⟩,
    fun counts p' h => Postings.processUntilDone_empties_iff h, fun counts hpos hlong => ?_⟩
  · exact hhides.not_answered hid hfound
  · refine Postings.processUntilDone_ends hpos (lt_of_le_of_lt ?_ hlong)
    exact length_filter_le ..

/-! ### A swap in mid-pass -/

/-- The texts `a` and `b`, and the value `1`. -/
def textA : Str := ⟨[0x61], by decide⟩

def textB : Str := ⟨[0x62], by decide⟩

def textOne : Str := ⟨[0x31], by decide⟩

def labelA : Label := ⟨textA, textOne, by decide⟩

def labelB : Label := ⟨textB, textOne, by decide⟩

/-- Two series with the labels `a=1` and `b=1`, one in each of two databases, both marked stale; the
first database is drained up to its second list. -/
def drainUnderWay : List IndexEvent :=
  [.index 0 ⟨1, [labelA, labelB]⟩ [0x6B], .mark 0 [1], .index 1 ⟨2, [labelA, labelB]⟩ [0x6B], .mark 1 [2], .drain 0 1]

def swapAfterDrain : List IndexEvent := drainUnderWay ++ [.drain 0 50, .swap 0 1, .drain 0 50]

def swapInMidPass : List IndexEvent := drainUnderWay ++ [.swap 0 1, .drain 0 50]

def seriesWithA : List SeriesSelector := [.and [⟨textA, .equal (.string textOne)⟩]]

theorem run_hides_stale_waiting :
    QuietRun .init swapAfterDrain ∧ 2 ∈ deadAfter swapAfterDrain 0 ∧
      ∀ found, ((IndexState.init.run swapAfterDrain).postings 0).postingsForSelectors seriesWithA = .ok found →
        2 ∉ found := by
  have hquiet : QuietRun .init swapAfterDrain := by decide
  have hdead : 2 ∈ deadAfter swapAfterDrain 0 := by decide
  exact ⟨hquiet, hdead, fun found hfound => ((run_hides_stale _ hquiet 0).2.1 2 hdead).2 _ found hfound⟩

/-- The second database is drained from where the first one had come to, and its series is unmasked
in the list before.  And a series without labels stays stale, as there is no list to visit. -/
theorem run_resurrects_after_swap :
    2 ∈ deadAfter swapInMidPass 0 ∧
      ((IndexState.init.run swapInMidPass).postings 0).postingsForSelectors seriesWithA = .ok {2} ∧
      (Postings.processUntilDone [50]
        ((Postings.default.indexTimeseries ⟨1, []⟩ [0x6B]).markIdsAsStale [1]) none).map (·.staleIds.ids) =
          some {1} := by
  decide

end ValkeyTimeSeries
