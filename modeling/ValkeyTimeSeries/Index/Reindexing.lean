/-
Index/Reindexing.lean

Series that are indexed again: under an id that is marked stale, and in bulk at the end of a load
(`postings/mutation.rs`, `index/bulk_build.rs`).

Design.  What an index *should* answer about the series is what any index answers that never knew the id and
agrees on all others.
-/
import ValkeyTimeSeries.Index.Reconcile
import ValkeyTimeSeries.Index.Serialization

namespace ValkeyTimeSeries

open List

namespace Postings

variable {p q : Postings}

/-! ### An id that was stale -/

/-- An index that has the id in no list, and otherwise what `p` has. -/
structure Unaware (p q : Postings) (id : SeriesRef) : Prop where
  lists : ∀ key, id ∉ q.list key
  others : ∀ key other, other ≠ id → (q.terms.At key other ↔ p.terms.At key other)
  all : insert id q.allPostings = insert id p.allPostings
  disjoint : Disjoint q.staleIds.ids q.allPostings

/-- The series is found by its labels alone: its id is in the lists of its labels and in no other
one, and every query is answered as if the id had never been used. -/
structure FoundByLabels (p : Postings) (ts : IndexedSeries) (name : KeyType) : Prop where
  lists : ∀ key, ts.id ∈ (p.indexTimeseries ts name).terms.postingsForKey key ↔ key ∈ ts.labelKeys
  answers : ∀ q, Unaware p q ts.id → ∀ selectors,
    (p.indexTimeseries ts name).postingsForSelectors selectors = (q.indexTimeseries ts name).postingsForSelectors
      selectors

theorem at_indexTimeseries {ts : IndexedSeries} {name : KeyType} {key : IndexKey} {id : SeriesRef} :
    (p.indexTimeseries ts name).terms.At key id ↔
    if id = ts.id then id ∈ p.list key ∨ key ∈ ts.labelKeys else p.terms.At key id := by
  obtain ⟨hlist, hstale, -⟩ := p.indexTimeseries_spec ts name
  change id ∈ (p.indexTimeseries ts name).list key ∧ id ∉ (p.indexTimeseries ts name).staleIds.ids ↔ _
  rw [hlist, hstale, Finset.mem_erase]
  split
  · next heq => simp [heq]
  · next hne =>
      change _ ↔ id ∈ p.list key ∧ id ∉ p.staleIds.ids
      simp [hne]

theorem disjoint_indexTimeseries (h : Disjoint p.staleIds.ids p.allPostings) (ts : IndexedSeries) (name : KeyType) :
    Disjoint (p.indexTimeseries ts name).staleIds.ids (p.indexTimeseries ts name).allPostings := by
  obtain ⟨-, hstale, -, hall, -⟩ := p.indexTimeseries_spec ts name
  rw [hstale, hall, Finset.disjoint_insert_right]
  exact ⟨Finset.notMem_erase _ _, h.mono_left (Finset.erase_subset _ _)⟩

/-- **An id that is indexed again**, stale or not, is found by its new labels alone exactly where every
list that still holds it is that of a new label. -/
theorem foundByLabels_iff [BitmapCodec] [HeapSizes] (h : Reachable p) (ts : IndexedSeries) (name : KeyType) :
    FoundByLabels p ts name ↔ ∀ key, ts.id ∈ p.list key → key ∈ ts.labelKeys := by
  constructor
  · intro hfound key hkey
    refine (hfound.lists key).mp (Terms.mem_postingsForKey.mpr (at_indexTimeseries.mpr ?_))
    rw [if_pos rfl]
    exact .inl hkey
  · intro hlabels
    have hself (key : IndexKey) : (p.indexTimeseries ts name).terms.At key ts.id ↔ key ∈ ts.labelKeys := by
      rw [at_indexTimeseries, if_pos rfl]
      exact or_iff_right_of_imp (hlabels key)
    refine ⟨fun key => Terms.mem_postingsForKey.trans (hself key), fun q hq => ?_⟩
    refine postingsForSelectors_alike ⟨?_, fun key id => ?_⟩ (disjoint_indexTimeseries h.disjoint ts name)
      (disjoint_indexTimeseries hq.disjoint ts name)
    · obtain ⟨-, -, -, hall, -⟩ := p.indexTimeseries_spec ts name
      obtain ⟨-, -, -, hall', -⟩ := q.indexTimeseries_spec ts name
      exact hall.trans (hq.all.symm.trans hall'.symm)
    · by_cases hid : id = ts.id
      · rw [hid, hself, at_indexTimeseries, if_pos rfl, or_iff_right (hq.lists key)]
      · rw [at_indexTimeseries, at_indexTimeseries, if_neg hid, if_neg hid]
        exact (hq.others key id hid).symm

/-- A stale series with `a=1` comes back with `1=a`, and is still found by its old label. -/
theorem foundByLabels_fails :
    letI := plainCodec
    letI := plainSizes
    Reachable (oneSeries.markIdsAsStale [1]) ∧ 1 ∈ (oneSeries.markIdsAsStale [1]).staleIds.ids ∧
      ¬ FoundByLabels (oneSeries.markIdsAsStale [1]) ⟨1, [⟨textOne, textA, by decide⟩]⟩ [0x6B] := by
  let := plainCodec
  let := plainSizes
  refine ⟨.marked _ (.indexed _ _ .empty), by decide, fun h => ?_⟩
  have hold := h.lists (.forLabelValue textA textOne)
  revert hold
  decide

theorem foundByLabels_iff_sameLabel :
    letI := plainCodec
    letI := plainSizes
    FoundByLabels (oneSeries.markIdsAsStale [1]) ⟨1, [labelA]⟩ [0x6B] := by
  let := plainCodec
  let := plainSizes
  refine (foundByLabels_iff (.marked _ (.indexed _ _ .empty)) _ _).mpr fun key hkey => ?_
  have hlist := (Postings.default.indexTimeseries_spec ⟨1, [labelA]⟩ [0x6B]).1 1 key
  exact ((hlist.mp hkey).resolve_left (Finset.notMem_empty _)).2

end Postings

/-! ### A load in bulk -/

/-- What a load has collected so far, of one database. -/
structure LoadWindow where
  buffer : List BulkIndexEntry
  bytes : Nat
  /-- The cap was crossed, and keys are indexed one by one from then on. -/
  degraded : Bool
  repair : Repair

def entryOf (item : IndexedSeries × KeyType) : BulkIndexEntry := ⟨item.1.id, item.2, item.1.labelKeys⟩

/-- `size_of::<BulkIndexEntry>()` on a 64-bit target: an id, a boxed slice and a vector. -/
def bulkIndexEntrySize : Nat := 8 + 16 + 24

/-- `size_of::<IndexKey>()` on a 64-bit target: a boxed slice. -/
def indexKeySize : Nat := 16

/-- An index key is stored with a sentinel byte. -/
def entryFootprint (entry : BulkIndexEntry) : Nat :=
  bulkIndexEntrySize + entry.key.length
    + (entry.labelKeys.map fun key => indexKeySize + (key.text.bytes.length + 1)).sum

def indexAll (p : Postings) (items : List (IndexedSeries × KeyType)) : Postings :=
  items.foldl (fun p item => p.indexTimeseries item.1 item.2) p

namespace LoadWindow

variable (maxBytes fuel : Nat)

def drainBuffers (w : LoadWindow) : LoadWindow :=
  { w with buffer := [], bytes := 0, repair := { w.repair with postings := w.repair.postings.bulkIndex w.buffer } }

/-- A cap of 0 is none. -/
def bufferEntry (w : LoadWindow) (entry : BulkIndexEntry) : LoadWindow :=
  let total := w.bytes + entryFootprint entry
  let w := { w with buffer := w.buffer ++ [entry], bytes := total }
  if 0 < maxBytes ∧ maxBytes < total then drainBuffers { w with degraded := true } else w

/-- `handle_key_restore`: a key that is not buffered is indexed under a new id. -/
def handleKeyRestore (w : LoadWindow) (item : IndexedSeries × KeyType) : Option LoadWindow :=
  if w.degraded then (indexLoadedSeries fuel w.repair item.1 item.2).map fun repair => { w with repair }
  else some (w.bufferEntry maxBytes (entryOf item))

def load (repair : Repair) (items : List (IndexedSeries × KeyType)) : Option Postings :=
  (items.foldlM (handleKeyRestore maxBytes fuel) ⟨[], 0, false, repair⟩).map fun w => w.drainBuffers.repair.postings

def footprints (items : List (IndexedSeries × KeyType)) : Nat :=
  (items.map fun item => entryFootprint (entryOf item)).sum

end LoadWindow

/-- The series are indexed one after the other, each under an id that no series has. -/
inductive IndexedFresh : Postings → List (IndexedSeries × KeyType) → Postings → Prop
  | nil (p : Postings) : IndexedFresh p [] p
  | cons {p q : Postings} {item : IndexedSeries × KeyType} {items : List (IndexedSeries × KeyType)} (id : SeriesRef) :
    (p.removeTimeseriesForKey item.1 item.2).1.idToKey.get? id = none →
    IndexedFresh ((p.removeTimeseriesForKey item.1 item.2).1.indexTimeseries { item.1 with id } item.2) items q →
    IndexedFresh p (item :: items) q

structure SameIndex (p q : Postings) : Prop where
  lists : ∀ key, p.list key = q.list key
  keys : p.idToKey = q.idToKey
  all : p.allPostings = q.allPostings
  stale : p.staleIds = q.staleIds

theorem idToKey_indexTimeseries (p : Postings) (ts : IndexedSeries) (name : KeyType) :
    (p.indexTimeseries ts name).idToKey = p.idToKey.insert ts.id name := by
  refine SortedMap.ext_get? fun id => ?_
  rw [(p.indexTimeseries_spec ts name).2.2.2.2, SortedMap.get?_insert]

theorem length_indexAll_le (p : Postings) (items : List (IndexedSeries × KeyType)) :
    (indexAll p items).idToKey.length ≤ p.idToKey.length + items.length := by
  induction items generalizing p with
  | nil => exact le_rfl
  | cons item items ih =>
    have hone := p.idToKey.length_alter_le item.1.id fun _ => some item.2
    have hrest := ih (p.indexTimeseries item.1 item.2)
    rw [idToKey_indexTimeseries] at hrest
    exact hrest.trans (by rw [length_cons]; exact (Nat.add_le_add_right hone _).trans (by simp; omega))

/-- One bulk build does what indexing the series one by one does. -/
theorem bulkIndex_same (p : Postings) (items : List (IndexedSeries × KeyType)) :
    SameIndex (p.bulkIndex (items.map entryOf)) (indexAll p items) := by
  obtain ⟨hlist, hids, hpass, hall, hkeys⟩ := p.bulkIndex_spec (items.map entryOf)
  have hone : (∀ id key, id ∈ (indexAll p items).list key ↔
        id ∈ p.list key ∨ ∃ entry ∈ items.map entryOf, entry.id = id ∧ key ∈ entry.labelKeys) ∧
      (indexAll p items).staleIds.ids = p.staleIds.ids \ ((items.map entryOf).map (·.id)).toFinset ∧
      (indexAll p items).staleIds.pass = p.staleIds.pass ∧
      (indexAll p items).allPostings = p.allPostings ∪ ((items.map entryOf).map (·.id)).toFinset ∧
      (indexAll p items).idToKey =
        (items.map entryOf).foldl (fun keys entry => keys.insert entry.id entry.key) p.idToKey := by
    clear hlist hids hpass hall hkeys
    induction items generalizing p with
    | nil => simp [indexAll]
    | cons item items ih =>
      obtain ⟨hlist, hids, hpass, hall, -⟩ := p.indexTimeseries_spec item.1 item.2
      obtain ⟨hlists, hstale, hsnapshot, hlive, hkeys⟩ := ih (p.indexTimeseries item.1 item.2)
      refine ⟨fun id key => ?_, ?_, hsnapshot.trans hpass, ?_, ?_⟩
      · refine (hlists id key).trans ?_
        rw [hlist, map_cons, exists_mem_cons_iff, or_assoc]
        exact or_congr_right (or_congr_left (and_congr_left' eq_comm))
      · refine hstale.trans ?_
        ext id
        simp [hids]
        tauto
      · refine hlive.trans ?_
        ext id
        simp [hall, entryOf]
      · refine hkeys.trans ?_
        rw [idToKey_indexTimeseries]
        rfl
  refine ⟨fun key => ?_, hkeys.trans hone.2.2.2.2.symm, hall.trans hone.2.2.2.1.symm, ?_⟩
  · ext id
    rw [hlist, hone.1]
  · have hsame : ∀ a b : StaleSet, a.ids = b.ids → a.pass = b.pass → a = b := by
      rintro ⟨_, _⟩ ⟨_, _⟩ rfl rfl
      rfl
    exact hsame _ _ (hids.trans hone.2.1.symm) (hpass.trans hone.2.2.1.symm)

namespace LoadWindow

variable {maxBytes fuel : Nat} {repair : Repair} {items : List (IndexedSeries × KeyType)}

/-- Up to the key that crosses the cap, the keys are in the buffer. -/
theorem foldlM_buffers {buffer : List BulkIndexEntry} {bytes : Nat}
    (h : maxBytes = 0 ∨ bytes + footprints items ≤ maxBytes) :
    items.foldlM (handleKeyRestore maxBytes fuel) ⟨buffer, bytes, false, repair⟩ =
    some ⟨buffer ++ items.map entryOf, bytes + footprints items, false, repair⟩ := by
  induction items generalizing buffer bytes with
  | nil => simp [footprints]
  | cons item items ih =>
    have hsum : bytes + footprints (item :: items) = bytes + entryFootprint (entryOf item) + footprints items := by
      simp only [footprints, map_cons, sum_cons]
      omega
    rw [hsum] at h ⊢
    have hcap : ¬ (0 < maxBytes ∧ maxBytes < bytes + entryFootprint (entryOf item)) := by omega
    rw [foldlM_cons, handleKeyRestore, if_neg Bool.false_ne_true, bufferEntry, if_neg hcap]
    refine (ih h).trans ?_
    rw [map_cons, append_assoc]
    rfl

theorem indexLoadedSeries_ends (self : Repair) (series : IndexedSeries) (key : KeyType)
    (hlen : self.postings.idToKey.length < 2 ^ 64) :
    ∃ self' id, Ends (fun fuel => indexLoadedSeries fuel self series key) self' ∧
      (self.postings.removeTimeseriesForKey series key).1.idToKey.get? id = none ∧
      self'.postings = (self.postings.removeTimeseriesForKey series key).1.indexTimeseries { series with id } key ∧
      self'.postings.idToKey.length ≤ self.postings.idToKey.length + 1 := by
  have hle : (self.postings.removeTimeseriesForKey series key).1.idToKey.length ≤ self.postings.idToKey.length := by
    rw [Postings.removeTimeseriesForKey]
    split
    · rw [(self.postings.removeTimeseries_spec series).2.2.2]
      exact self.postings.idToKey.length_alter_le series.id fun _ => none
    · exact le_rfl
  obtain ⟨free, hfree⟩ := exists_free (hle.trans_lt hlen)
  obtain ⟨id, hends, hnone⟩ := freshId_ends hfree self.generator
  refine ⟨_, id, hends.bind (Ends.pure _), hnone, rfl, ?_⟩
  rw [idToKey_indexTimeseries]
  exact (SortedMap.length_alter_le _ id fun _ => some key).trans (Nat.add_le_add_right hle 1)

/-- The keys behind the one that crosses the cap are indexed by `index_loaded_series`. -/
theorem foldlM_degraded_ends (maxBytes : Nat) (items : List (IndexedSeries × KeyType)) (w : LoadWindow)
    (hbuffer : w.buffer = []) (hdegraded : w.degraded = true)
    (hlen : w.repair.postings.idToKey.length + items.length < 2 ^ 64) :
    ∃ w', Ends (fun fuel => items.foldlM (handleKeyRestore maxBytes fuel) w) w' ∧ w'.buffer = [] ∧
      IndexedFresh w.repair.postings items w'.repair.postings := by
  induction items generalizing w with
  | nil => exact ⟨w, Ends.pure w, hbuffer, .nil _⟩
  | cons item items ih =>
    rw [length_cons] at hlen
    obtain ⟨repair, id, hstep, hnone, hindexed, hgrown⟩ :=
      indexLoadedSeries_ends w.repair item.1 item.2 (by omega)
    obtain ⟨w', hends, hdrained, hfresh⟩ := ih { w with repair } hbuffer hdegraded (by dsimp only; omega)
    refine ⟨w', ?_, hdrained, .cons id hnone (hindexed ▸ hfresh)⟩
    have hmap := hstep.map fun repair => { w with repair }
    refine (hmap.bind (g := fun w fuel => items.foldlM (handleKeyRestore maxBytes fuel) w) hends).congr fun fuel => ?_
    rw [foldlM_cons, handleKeyRestore, if_pos hdegraded]

/-- Any load has a key that crosses the cap first, or none. -/
theorem exists_crossing (maxBytes : Nat) (items : List (IndexedSeries × KeyType)) :
    ∃ front rest, items = front ++ rest ∧ (maxBytes = 0 ∨ footprints front.dropLast ≤ maxBytes) ∧
      (rest = [] ∨ 0 < maxBytes ∧ maxBytes < footprints front) := by
  induction items using List.reverseRecOn with
  | nil => exact ⟨[], [], rfl, .inr (Nat.zero_le _), .inl rfl⟩
  | append_singleton items item ih =>
    obtain ⟨front, rest, rfl, hfront, hrest⟩ := ih
    rcases hrest with rfl | hcross
    · by_cases hcap : maxBytes = 0 ∨ footprints front ≤ maxBytes
      · exact ⟨front ++ [item], [], by simp, by rwa [dropLast_concat], .inl rfl⟩
      · exact ⟨front, [item], by simp, hfront, .inr (by omega)⟩
    · exact ⟨front, rest ++ [item], append_assoc .., hfront, .inr hcross⟩

/-- **A load and its cap.**  Up to the first key that crosses the cap, a load equals indexing the series one by one; the
keys behind it are indexed one by one too, under new ids. -/
theorem load_same_until_cap (maxBytes : Nat) (repair : Repair) (items : List (IndexedSeries × KeyType))
    (hlen : repair.postings.idToKey.length + items.length < 2 ^ 64) :
    ∃ front rest q p, items = front ++ rest ∧ (maxBytes = 0 ∨ footprints front.dropLast ≤ maxBytes) ∧
      (rest = [] ∨ 0 < maxBytes ∧ maxBytes < footprints front) ∧ SameIndex q (indexAll repair.postings front) ∧
      IndexedFresh q rest p ∧ Ends (fun fuel => load maxBytes fuel repair items) p := by
  obtain ⟨front, rest, rfl, hfront, hrest⟩ := exists_crossing maxBytes items
  have hsame := bulkIndex_same repair.postings front
  rcases hrest with rfl | hcross
  · refine ⟨front, [], _, _, rfl, hfront, .inl rfl, hsame, .nil _, 0, fun fuel _ => ?_⟩
    rcases eq_nil_or_concat front with rfl | ⟨front, last, rfl⟩
    · rfl
    · rw [concat_eq_append, dropLast_concat] at hfront
      rw [concat_eq_append, append_nil]
      change Option.map _ (foldlM _ _ _) = _
      rw [foldlM_append, foldlM_buffers (by omega), map_append]
      -- the last entry is in the buffer when it is drained, now or at the end
      change Option.map _ (some (bufferEntry maxBytes _ _)) = _
      rw [bufferEntry]
      split <;> rfl
  · obtain ⟨front, last, rfl⟩ : ∃ init last, front = init ++ [last] := by
      rcases eq_nil_or_concat front with rfl | ⟨init, last, rfl⟩
      · exact absurd hcross.2 (Nat.not_lt_zero _)
      · exact ⟨init, last, concat_eq_append⟩
    have hdrain (fuel : Nat) : (front ++ [last]).foldlM (handleKeyRestore maxBytes fuel) ⟨[], 0, false, repair⟩ =
        some (drainBuffers ⟨(front ++ [last]).map entryOf, footprints (front ++ [last]), true, repair⟩) := by
      rw [dropLast_concat] at hfront
      have htotal : footprints (front ++ [last]) = 0 + footprints front + entryFootprint (entryOf last) := by
        simp [footprints]
      rw [foldlM_append, foldlM_buffers (by omega), htotal, map_append]
      change some (bufferEntry maxBytes _ _) = _
      rw [bufferEntry, if_pos ⟨hcross.1, htotal ▸ hcross.2⟩]
      rfl
    have hids : (repair.postings.bulkIndex ((front ++ [last]).map entryOf)).idToKey.length + rest.length < 2 ^ 64 := by
      rw [hsame.keys]
      have := length_indexAll_le repair.postings (front ++ [last])
      rw [length_append] at hlen
      omega
    obtain ⟨w, hends, hbuffer, hfresh⟩ := foldlM_degraded_ends maxBytes rest
      (drainBuffers ⟨(front ++ [last]).map entryOf, footprints (front ++ [last]), true, repair⟩) rfl rfl hids
    have hlast : w.drainBuffers.repair.postings = w.repair.postings := by
      rw [drainBuffers, hbuffer]
      rfl
    rw [← hlast] at hfresh
    refine ⟨front ++ [last], rest, _, _, rfl, hfront, .inr hcross, hsame, hfresh, ?_⟩
    refine (hends.map fun w => w.drainBuffers.repair.postings).congr fun fuel => ?_
    rw [load, foldlM_append, hdrain]
    rfl

/-- Two series with labels. -/
def twoSeries : List (IndexedSeries × KeyType) := [(⟨1, [labelA, labelB]⟩, [0x61]), (⟨2, [labelA]⟩, [0x62])]

/-- Two keys, for an empty index and a generator at 6. -/
def loadTwo (maxBytes : Nat) : Option Postings := load maxBytes 1 ⟨.default, fun _ => none, 6⟩ twoSeries

def twoIndexed : Postings := indexAll .default twoSeries

theorem load_same_until_cap_two :
    ∃ front rest q p, twoSeries = front ++ rest ∧ SameIndex q (indexAll .default front) ∧
      IndexedFresh q rest p ∧ Ends (fun fuel => load 1 fuel ⟨.default, fun _ => none, 6⟩ (front ++ rest)) p := by
  obtain ⟨front, rest, q, p, hsplit, -, -, hsame, hfresh, hends⟩ :=
    load_same_until_cap 1 ⟨.default, fun _ => none, 6⟩ twoSeries (by decide)
  exact ⟨front, rest, q, p, hsplit, hsame, hfresh, hsplit ▸ hends⟩

/-- The first key crosses a cap of one byte, and the second is indexed under the id 7. -/
theorem load_differs : ¬ ∃ q, loadTwo 1 = some q ∧ SameIndex q twoIndexed := by
  rintro ⟨q, hload, hsame⟩
  have hkey : (loadTwo 1).map (fun q => q.idToKey.get? 2) = some none := by decide
  rw [hload, Option.map_some, hsame.keys] at hkey
  revert hkey
  decide

end LoadWindow

end ValkeyTimeSeries
