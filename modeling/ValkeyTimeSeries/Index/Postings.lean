/-
Index/Postings.lean

The inverted index of one database (`series/index/postings/`): its state, the mutations of `mutation.rs` and
`directory.rs`, the tombstones of `stale.rs` and the upkeep of `maintenance.rs`.

Design.  A bitmap is the set of its ids and an ordered tree is a sorted map.  An index key is its text; the
byte that ends it is not kept, as it does not change the order.  Every mutation is specified by what it does
to `list`, the ids at an index key, and to the three sets beside it.
-/
import ValkeyTimeSeries.Library.SortedMap
import ValkeyTimeSeries.Common.Utf8

namespace ValkeyTimeSeries

open List

/-- The id of a series, a `u64`. -/
abbrev SeriesRef := Fin (2 ^ 64)

instance seriesRef_neZero : NeZero (2 ^ 64) := ⟨by decide⟩

abbrev PostingsBitmap := Finset SeriesRef

def PostingsBitmap.ids (bitmap : PostingsBitmap) : List SeriesRef := bitmap.sort

abbrev KeyType := Bytes

/-- A label.  The tree of the index asks that no key begins another one, and the keys end with a NUL byte, so that a
label has none inside. -/
structure Label where
  name : Str
  value : Str
  nulFree : 0 ∉ name.bytes ∧ 0 ∉ value.bytes
deriving DecidableEq

/-- What the index reads of a time series. -/
structure IndexedSeries where
  id : SeriesRef
  labels : List Label
deriving DecidableEq

/-! ### Index keys -/

/-- A list is cut in one way at its first `c`. -/
theorem span_cut {a b : Bytes} {c : BitVec 8} (h : c ∉ a) : (a ++ c :: b).span (· ≠ c) = (a, c :: b) := by
  have hall : ∀ x ∈ a, decide (x ≠ c) = true := fun x hx => decide_eq_true fun heq => h (heq ▸ hx)
  rw [span_eq_takeWhile_dropWhile, takeWhile_append_of_pos hall, dropWhile_append_of_pos hall]
  simp

theorem eq_of_cut {a a' b b' : Bytes} {c : BitVec 8} (h : c ∉ a) (h' : c ∉ a') (heq : a ++ c :: b = a' ++ c :: b') :
    a = a' := by
  have hspan := span_cut (b := b) h
  rw [heq, span_cut h'] at hspan
  exact (Prod.mk.inj hspan).1.symm

structure IndexKey where
  /-- `as_str`. -/
  text : Str
deriving DecidableEq

namespace IndexKey

instance : LinearOrder IndexKey :=
  LinearOrder.lift' (fun key => key.text.bytes.map BitVec.toFin) fun a b h => by
    have hbytes := map_injective_iff.mpr (fun x y => BitVec.eq_of_toFin_eq) h
    exact congrArg IndexKey.mk (Str.ext_bytes hbytes)

def equals : Str := ⟨[0x3D], by decide⟩

def forLabelValue (name value : Str) : IndexKey := ⟨(name.append equals).append value⟩

def fromBytes (bytes : Bytes) : IndexKey := ⟨Str.fromUtf8Lossy bytes⟩

/-- The bytes of the key in the tree, with the sentinel. -/
def asBytes (key : IndexKey) : Bytes := key.text.bytes ++ [0]

/-- The tree can hold both keys. -/
def Compatible (a b : IndexKey) : Prop := a = b ∨ ¬ a.asBytes <+: b.asBytes ∧ ¬ b.asBytes <+: a.asBytes

instance (a b : IndexKey) : Decidable (a.Compatible b) := inferInstanceAs (Decidable (_ ∨ _))

theorem Compatible.symm {a b : IndexKey} (h : a.Compatible b) : b.Compatible a := h.imp Eq.symm And.symm

theorem eq_of_begins {a b : IndexKey} (ha : 0 ∉ a.text.bytes) (hb : 0 ∉ b.text.bytes) (h : a.asBytes <+: b.asBytes) :
    a = b := by
  obtain ⟨rest, hrest⟩ := h
  rw [asBytes, append_assoc] at hrest
  have hbytes := eq_of_cut ha hb hrest
  exact congrArg IndexKey.mk (Str.ext_bytes hbytes)

end IndexKey

/-- The keys of labels never get into each other's way. -/
theorem Label.compatible (a b : Label) :
    (IndexKey.forLabelValue a.name a.value).Compatible (.forLabelValue b.name b.value) := by
  have hfree (label : Label) : 0 ∉ (IndexKey.forLabelValue label.name label.value).text.bytes := by
    change 0 ∉ label.name.bytes ++ [0x3D] ++ label.value.bytes
    simpa using label.nulFree
  by_cases hkey : IndexKey.forLabelValue a.name a.value = .forLabelValue b.name b.value
  · exact .inl hkey
  · exact .inr ⟨fun h => hkey (IndexKey.eq_of_begins (hfree a) (hfree b) h),
      fun h => hkey (IndexKey.eq_of_begins (hfree b) (hfree a) h).symm⟩

def IndexedSeries.labelKeys (series : IndexedSeries) : List IndexKey :=
  series.labels.map fun label => IndexKey.forLabelValue label.name label.value

/-! ### Tombstones -/

/-- The ids marked for removal that may still be in the posting lists. -/
structure StaleSet where
  ids : PostingsBitmap
  /-- The ids the drain pass under way may retire, `none` between passes. -/
  pass : Option PostingsBitmap
deriving DecidableEq

namespace StaleSet

def default : StaleSet := ⟨∅, none⟩

def isEmpty (self : StaleSet) : Bool := self.ids = ∅

def mask (self : StaleSet) (postings : PostingsBitmap) : PostingsBitmap :=
  if self.isEmpty then postings else postings \ self.ids

def markMany (self : StaleSet) (ids : List SeriesRef) : StaleSet :=
  { ids := self.ids ∪ ids.toFinset, pass := self.pass.map (· \ ids.toFinset) }

def beginPass (self : StaleSet) : StaleSet := { self with pass := some self.ids }

def finishPass (self : StaleSet) : StaleSet :=
  match self.pass with
  | some pass => { ids := self.ids \ pass, pass := none }
  | none => self

def revoke (self : StaleSet) (id : SeriesRef) : StaleSet := { self with ids := self.ids.erase id }

@[simp] theorem mem_mask {self : StaleSet} {postings : PostingsBitmap} {id : SeriesRef} :
    id ∈ self.mask postings ↔ id ∈ postings ∧ id ∉ self.ids := by
  rw [mask]
  split
  · next h => simp [show self.ids = ∅ by simpa [isEmpty] using h]
  · rw [Finset.mem_sdiff]

end StaleSet

/-! ### Postings -/

structure Postings where
  /-- From an index key to the ids of the series that carry the label. -/
  labelIndex : SortedMap IndexKey PostingsBitmap
  /-- From an id to the key of its series. -/
  idToKey : SortedMap SeriesRef KeyType
  staleIds : StaleSet
  /-- The ids in the index that are not stale. -/
  allPostings : PostingsBitmap
deriving DecidableEq

structure BulkIndexEntry where
  id : SeriesRef
  key : KeyType
  labelKeys : List IndexKey

namespace Postings

def default : Postings := ⟨.empty, .empty, .default, ∅⟩

def list (self : Postings) (key : IndexKey) : PostingsBitmap := (self.labelIndex.get? key).getD ∅

theorem mem_list {self : Postings} {key : IndexKey} {id : SeriesRef} :
    id ∈ self.list key ↔ ∃ bitmap, self.labelIndex.get? key = some bitmap ∧ id ∈ bitmap := by
  rw [list]
  cases self.labelIndex.get? key <;> simp

/-! ### The id directory -/

def setTimeseriesKey (self : Postings) (id : SeriesRef) (newKey : KeyType) : Postings :=
  if self.idToKey.get? id = some newKey then self
  else { self with idToKey := self.idToKey.insert id newKey }

def count (self : Postings) : Nat := self.idToKey.length

def hasId (self : Postings) (id : SeriesRef) : Bool := self.idToKey.contains id

def getKeyById (self : Postings) (id : SeriesRef) : Option KeyType := self.idToKey.get? id

/-! ### Mutations -/

def removePostingForLabelValue (self : Postings) (label value : Str) (tsId : SeriesRef) : Postings :=
  { self with
    labelIndex := self.labelIndex.alter (IndexKey.forLabelValue label value) fun
      | some bitmap =>
        -- a list that was empty before stays
        if tsId ∈ bitmap ∧ bitmap.erase tsId = ∅ then none else some (bitmap.erase tsId)
      | none => none }

def addManyForKey (self : Postings) (key : IndexKey) (ids : List SeriesRef) : Postings :=
  { self with labelIndex := self.labelIndex.alter key fun old => some (old.getD ∅ ∪ ids.toFinset) }

def addPostingForLabelValueInternal (self : Postings) (tsId : SeriesRef) (label value : Str) : Postings :=
  self.addManyForKey (IndexKey.forLabelValue label value) [tsId]

/-- One `add_many` per run of equal keys, with the run that has not been written yet. -/
def addRuns (self : Postings) : Option IndexKey → List SeriesRef → List (IndexKey × SeriesRef) → Postings
  | none, _, [] => self
  | some current, run, [] => self.addManyForKey current run
  | none, _, (key, id) :: pairs => addRuns self (some key) [id] pairs
  | some current, run, (key, id) :: pairs =>
    if current = key then addRuns self (some current) (run ++ [id]) pairs
    else addRuns (self.addManyForKey current run) (some key) [id] pairs

/-- The order of the pairs of a bulk build. -/
def pairLe (a b : IndexKey × SeriesRef) : Bool := a.1 < b.1 || (a.1 = b.1 && a.2 ≤ b.2)

def revokeIds (self : Postings) (ids : List SeriesRef) : Postings :=
  if self.staleIds.isEmpty then self else { self with staleIds := ids.foldl StaleSet.revoke self.staleIds }

def bulkIndex (self : Postings) (entries : List BulkIndexEntry) : Postings :=
  if entries.isEmpty then self
  else
    let self := self.revokeIds (entries.map (·.id))
    let self : Postings :=
      { self with
        allPostings := self.allPostings ∪ (entries.map (·.id)).toFinset
        idToKey := entries.foldl (fun keys entry => keys.insert entry.id entry.key) self.idToKey }
    let pairs := entries.flatMap fun entry => entry.labelKeys.map (·, entry.id)
    self.addRuns none [] (pairs.insertionSort fun a b => pairLe a b)

def indexTimeseries (self : Postings) (ts : IndexedSeries) (key : KeyType) : Postings :=
  let self := self.revokeIds [ts.id]
  let self := ts.labels.foldl
    (fun self label => self.addPostingForLabelValueInternal ts.id label.name label.value) self
  { self with allPostings := insert ts.id self.allPostings }.setTimeseriesKey ts.id key

def removeTimeseries (self : Postings) (series : IndexedSeries) : Postings × Bool :=
  let removed := series.id ∈ self.allPostings
  let self : Postings :=
    { self with
      idToKey := self.idToKey.erase series.id
      allPostings := self.allPostings.erase series.id }
  (series.labels.foldl (fun self label => self.removePostingForLabelValue label.name label.value series.id) self,
    removed)

def removeTimeseriesForKey (self : Postings) (series : IndexedSeries) (key : KeyType) : Postings × Bool :=
  if self.idToKey.get? series.id = some key then self.removeTimeseries series else (self, false)

/-! ### Stale ids -/

def markIdsAsStale (self : Postings) (ids : List SeriesRef) : Postings :=
  { self with
    idToKey := ids.foldl SortedMap.erase self.idToKey
    staleIds := self.staleIds.markMany ids
    allPostings := self.allPostings \ ids.toFinset }

def drained (stale : StaleSet) (bitmap : PostingsBitmap) : Option PostingsBitmap :=
  if stale.mask bitmap = ∅ then none else some (stale.mask bitmap)

def removeStaleIds (self : Postings) (start : Option IndexKey) (count : Nat) : Postings × Option IndexKey :=
  if self.staleIds.isEmpty then (self, none)
  else
    let stale := if start.isNone || self.staleIds.pass.isNone then self.staleIds.beginPass else self.staleIds
    let batch := (self.labelIndex.batch start count).map Prod.fst
    let nextKey := self.labelIndex.nextKey start count
    let labelIndex := self.labelIndex.filterMap fun key bitmap =>
      if key ∈ batch then drained stale bitmap else some bitmap
    let stale := if 0 < batch.length ∧ nextKey.isNone then stale.finishPass else stale
    ({ self with labelIndex := labelIndex, staleIds := stale }, nextKey)

/-! ### Upkeep -/

/-- The keys of the empty lists from an entry on, up to the first entry after `count` lists that
are not empty, and the key of that entry. -/
def emptyLists : Nat → List (IndexKey × PostingsBitmap) → List IndexKey × Option IndexKey
  | _, [] => ([], none)
  | count, (key, bitmap) :: entries =>
    if bitmap = ∅ then
      let (keys, next) := emptyLists count entries
      (key :: keys, next)
    else match count with
      | 0 => ([], some key)
      | count + 1 => emptyLists count entries

/-- The runs of ids inside a bitmap, which upkeep packs anew, are not modelled. -/
def optimizePostings (self : Postings) (start : Option IndexKey) (count : Nat) : Postings × Option IndexKey :=
  let (keys, next) := emptyLists count (self.labelIndex.ahead start)
  ({ self with labelIndex := keys.foldl SortedMap.erase self.labelIndex }, next)

/-! ### What the mutations do to the lists -/

section Lists

variable {self : Postings} {key : IndexKey} {id : SeriesRef}

variable {tsId : SeriesRef}

@[simp] theorem list_setTimeseriesKey {newKey : KeyType} :
    (self.setTimeseriesKey tsId newKey).list key = self.list key := by
  rw [setTimeseriesKey]
  split <;> rfl

@[simp] theorem staleIds_setTimeseriesKey {newKey : KeyType} :
    (self.setTimeseriesKey tsId newKey).staleIds = self.staleIds := by
  rw [setTimeseriesKey]
  split <;> rfl

@[simp] theorem allPostings_setTimeseriesKey {newKey : KeyType} :
    (self.setTimeseriesKey tsId newKey).allPostings = self.allPostings := by
  rw [setTimeseriesKey]
  split <;> rfl

theorem mem_list_addManyForKey {key' : IndexKey} {ids : List SeriesRef} :
    id ∈ (self.addManyForKey key' ids).list key ↔ id ∈ self.list key ∨ (key = key' ∧ id ∈ ids) := by
  rw [list, addManyForKey, SortedMap.get?_alter]
  split
  · next h =>
      subst h
      cases hget : self.labelIndex.get? key <;> simp [list, hget]
  · next h => simp [list, h]

theorem mem_list_addRuns {pairs : List (IndexKey × SeriesRef)} {current : Option IndexKey} {run : List SeriesRef} :
    id ∈ (self.addRuns current run pairs).list key ↔
    id ∈ self.list key ∨ (current = some key ∧ id ∈ run) ∨ (key, id) ∈ pairs := by
  induction pairs generalizing self current run with
  | nil =>
    cases current with
    | none => simp [addRuns]
    | some current => simp [addRuns, mem_list_addManyForKey, eq_comm]
  | cons pair pairs ih =>
    obtain ⟨key', id'⟩ := pair
    cases current with
    | none =>
      rw [addRuns, ih]
      simp only [reduceCtorEq, false_and, false_or, Option.some.injEq, mem_cons, not_mem_nil,
        or_false, Prod.mk.injEq, eq_comm (a := key)]
    | some current =>
      rw [addRuns]
      split
      · next h =>
          subst h
          rw [ih]
          simp only [Option.some.injEq, mem_append, mem_cons, Prod.mk.injEq]
          tauto
      · rw [ih, mem_list_addManyForKey]
        simp only [Option.some.injEq, mem_cons, Prod.mk.injEq]
        tauto

theorem mem_list_removePostingForLabelValue {label value : Str} :
    id ∈ (self.removePostingForLabelValue label value tsId).list key ↔
    id ∈ self.list key ∧ ¬ (id = tsId ∧ key = IndexKey.forLabelValue label value) := by
  rw [list, removePostingForLabelValue, SortedMap.get?_alter]
  split
  · next h =>
      rw [← h, list]
      cases self.labelIndex.get? key with
      | none => simp
      | some bitmap =>
        dsimp only
        split
        · next hempty =>
            have : ∀ i, i ∈ bitmap → i = tsId := fun i hi => by
              by_contra hne
              exact Finset.notMem_empty i (hempty.2 ▸ Finset.mem_erase.mpr ⟨hne, hi⟩)
            simpa using this id
        · simp [and_comm]
  · next h => simp [list, h]

/-! ### What they leave alone -/

theorem addRuns_eq (self : Postings) (current : Option IndexKey) (run : List SeriesRef)
    (pairs : List (IndexKey × SeriesRef)) : ∃ labelIndex, self.addRuns current run pairs =
    { self with labelIndex := labelIndex } := by
  induction pairs generalizing self current run with
  | nil => cases current <;> exact ⟨_, rfl⟩
  | cons pair pairs ih =>
    cases current with
    | none => exact ih ..
    | some current =>
      rw [addRuns]
      split
      · exact ih ..
      · exact ih ..

theorem ids_revokeIds (self : Postings) (ids : List SeriesRef) :
    (self.revokeIds ids).staleIds.ids = self.staleIds.ids \ ids.toFinset := by
  have hfold : ∀ stale : StaleSet, (ids.foldl StaleSet.revoke stale).ids = stale.ids \ ids.toFinset := by
    induction ids with
    | nil => intro stale; simp
    | cons id ids ih =>
      intro stale
      rw [foldl_cons, ih]
      ext i
      simp [StaleSet.revoke]
      tauto
  rw [revokeIds]
  split
  · next h => simp [show self.staleIds.ids = ∅ by simpa [StaleSet.isEmpty] using h]
  · exact hfold _

theorem pass_revokeIds (self : Postings) (ids : List SeriesRef) :
    (self.revokeIds ids).staleIds.pass = self.staleIds.pass := by
  have hfold : ∀ stale : StaleSet, (ids.foldl StaleSet.revoke stale).pass = stale.pass := by
    induction ids with
    | nil => exact fun _ => rfl
    | cons id ids ih => exact fun stale => ih (stale.revoke id)
  rw [revokeIds]
  split
  · rfl
  · exact hfold _

theorem revokeIds_eq (self : Postings) (ids : List SeriesRef) :
    ∃ stale, self.revokeIds ids = { self with staleIds := stale } := by
  rw [revokeIds]
  split
  · exact ⟨self.staleIds, rfl⟩
  · exact ⟨_, rfl⟩

/-! ### Indexing a series -/

private theorem addLabels_spec (labels : List Label) (tsId : SeriesRef) (self : Postings) : ∃ labelIndex,
    labels.foldl (fun self label => self.addPostingForLabelValueInternal tsId label.name label.value) self
    = { self with labelIndex := labelIndex } ∧ ∀ id key, id ∈ { self with labelIndex := labelIndex }.list key ↔
    id ∈ self.list key ∨ (id = tsId ∧ key ∈ labels.map fun l => IndexKey.forLabelValue l.name l.value) := by
  induction labels generalizing self with
  | nil => exact ⟨self.labelIndex, rfl, by simp⟩
  | cons label labels ih =>
    obtain ⟨labelIndex, heq, hmem⟩ := ih (self.addPostingForLabelValueInternal tsId label.name label.value)
    refine ⟨labelIndex, heq, fun id key => ?_⟩
    refine (hmem id key).trans ?_
    rw [addPostingForLabelValueInternal, mem_list_addManyForKey]
    simp only [map_cons, mem_cons]
    tauto

theorem indexTimeseries_spec (self : Postings) (ts : IndexedSeries) (name : KeyType) :
    (∀ id key, id ∈ (self.indexTimeseries ts name).list key ↔ id ∈ self.list key ∨ (id = ts.id ∧ key ∈ ts.labelKeys)) ∧
    (self.indexTimeseries ts name).staleIds.ids = self.staleIds.ids.erase ts.id ∧
    (self.indexTimeseries ts name).staleIds.pass = self.staleIds.pass ∧
    (self.indexTimeseries ts name).allPostings = insert ts.id self.allPostings ∧
    ∀ id, (self.indexTimeseries ts name).idToKey.get? id = if id = ts.id then some name else self.idToKey.get? id := by
  obtain ⟨stale, hrevoke⟩ := revokeIds_eq self [ts.id]
  obtain ⟨labelIndex, hfold, hmem⟩ := addLabels_spec ts.labels ts.id (self.revokeIds [ts.id])
  have hids : stale.ids = self.staleIds.ids.erase ts.id := by
    have := ids_revokeIds self [ts.id]
    rw [hrevoke] at this
    rw [this]
    ext i
    simp [and_comm]
  have hpass : stale.pass = self.staleIds.pass := by
    have := pass_revokeIds self [ts.id]
    rwa [hrevoke] at this
  simp only [indexTimeseries, hfold]
  rw [hrevoke] at hmem ⊢
  refine ⟨fun id key => ?_, ?_, ?_, ?_, fun id => ?_⟩
  · rw [list_setTimeseriesKey]
    exact hmem id key
  · rw [staleIds_setTimeseriesKey, ← hids]
  · rw [staleIds_setTimeseriesKey, ← hpass]
  · rw [allPostings_setTimeseriesKey]
  · rw [setTimeseriesKey]
    split
    · next h =>
        split
        · next hid => rw [hid]; exact h
        · rfl
    · exact SortedMap.get?_insert

theorem bulkIndex_spec (self : Postings) (entries : List BulkIndexEntry) :
    (∀ id key, id ∈ (self.bulkIndex entries).list key ↔
    id ∈ self.list key ∨ ∃ entry ∈ entries, entry.id = id ∧ key ∈ entry.labelKeys) ∧
    (self.bulkIndex entries).staleIds.ids = self.staleIds.ids \ (entries.map (·.id)).toFinset ∧
    (self.bulkIndex entries).staleIds.pass = self.staleIds.pass ∧
    (self.bulkIndex entries).allPostings = self.allPostings ∪ (entries.map (·.id)).toFinset ∧
    (self.bulkIndex entries).idToKey =
    entries.foldl (fun keys entry => keys.insert entry.id entry.key) self.idToKey := by
  rw [bulkIndex]
  split
  · next h =>
      obtain rfl : entries = [] := by simpa using h
      simp
  · obtain ⟨stale, hrevoke⟩ := revokeIds_eq self (entries.map (·.id))
    have hids := ids_revokeIds self (entries.map (·.id))
    have hpass := pass_revokeIds self (entries.map (·.id))
    rw [hrevoke] at hids hpass ⊢
    dsimp only at hids hpass ⊢
    obtain ⟨pairs, hpairs⟩ : ∃ pairs, pairs = (entries.flatMap fun entry =>
        entry.labelKeys.map (·, entry.id)).insertionSort fun a b => pairLe a b := ⟨_, rfl⟩
    rw [← hpairs]
    have hmem : ∀ key id, (key, id) ∈ pairs ↔ ∃ entry ∈ entries, entry.id = id ∧ key ∈ entry.labelKeys := by
      intro key id
      rw [hpairs, mem_insertionSort]
      simp only [mem_flatMap, mem_map, Prod.mk.injEq]
      refine exists_congr fun entry => and_congr_right fun _ => ?_
      exact ⟨fun ⟨_, hkey, h, hid⟩ => ⟨hid, h ▸ hkey⟩, fun ⟨hid, hkey⟩ => ⟨key, hkey, rfl, hid⟩⟩
    refine ⟨fun id key => ?_, ?_⟩
    · rw [mem_list_addRuns, hmem]
      simp [list]
    · obtain ⟨labelIndex, hruns⟩ := addRuns_eq
        { self with
          staleIds := stale
          allPostings := self.allPostings ∪ (entries.map (·.id)).toFinset
          idToKey := entries.foldl (fun keys entry => keys.insert entry.id entry.key) self.idToKey } none [] pairs
      rw [hruns]
      exact ⟨hids, hpass, rfl, rfl⟩

/-! ### Removing a series -/

private theorem removeLabels_spec (labels : List Label) (tsId : SeriesRef) (self : Postings) : ∃ labelIndex,
    labels.foldl (fun self label => self.removePostingForLabelValue label.name label.value tsId) self
    = { self with labelIndex := labelIndex } ∧ ∀ id key, id ∈ { self with labelIndex := labelIndex }.list key ↔
    id ∈ self.list key ∧ ¬ (id = tsId ∧ key ∈ labels.map fun l => IndexKey.forLabelValue l.name l.value) := by
  induction labels generalizing self with
  | nil => exact ⟨self.labelIndex, rfl, by simp⟩
  | cons label labels ih =>
    obtain ⟨labelIndex, heq, hmem⟩ := ih (self.removePostingForLabelValue label.name label.value tsId)
    refine ⟨labelIndex, heq, fun id key => ?_⟩
    refine (hmem id key).trans ?_
    rw [mem_list_removePostingForLabelValue]
    simp only [map_cons, mem_cons]
    tauto

theorem removeTimeseries_spec (self : Postings) (series : IndexedSeries) :
    (∀ id key, id ∈ (self.removeTimeseries series).1.list key ↔
    id ∈ self.list key ∧ ¬ (id = series.id ∧ key ∈ series.labelKeys)) ∧
    (self.removeTimeseries series).1.staleIds = self.staleIds ∧
    (self.removeTimeseries series).1.allPostings = self.allPostings.erase series.id ∧
    (self.removeTimeseries series).1.idToKey = self.idToKey.erase series.id := by
  obtain ⟨labelIndex, hfold, hmem⟩ := removeLabels_spec series.labels series.id
    { self with idToKey := self.idToKey.erase series.id, allPostings := self.allPostings.erase series.id }
  rw [removeTimeseries, hfold]
  exact ⟨hmem, rfl, rfl, rfl⟩

/-! ### A drain step -/

variable {start : Option IndexKey} {count : Nat}

def Visited (self : Postings) (start : Option IndexKey) (count : Nat) (key : IndexKey) : Prop :=
  (∀ first ∈ start, first ≤ key) ∧ ∀ next ∈ self.labelIndex.nextKey start count, key < next

theorem Visited.of_not (h : ¬ self.Visited start count key) :
    (∃ first ∈ start, key < first) ∨ ∃ next ∈ self.labelIndex.nextKey start count, next ≤ key := by
  rw [Visited, not_and_or] at h
  push Not at h
  exact h

theorem mem_batch_keys_iff : key ∈ (self.labelIndex.batch start count).map Prod.fst ↔
    key ∈ self.labelIndex.keys ∧ self.Visited start count key := by
  rw [SortedMap.mem_keys_iff, mem_map]
  constructor
  · rintro ⟨⟨k, bitmap⟩, hmem, rfl⟩
    obtain ⟨hahead, hnext⟩ := SortedMap.mem_batch_iff.mp hmem
    obtain ⟨hentry, hstart⟩ := SortedMap.mem_ahead_iff.mp hahead
    exact ⟨⟨bitmap, SortedMap.get?_eq_some_iff.mpr hentry⟩, hstart, hnext⟩
  · rintro ⟨⟨bitmap, hget⟩, hstart, hnext⟩
    have hahead := SortedMap.mem_ahead_iff.mpr ⟨SortedMap.get?_eq_some_iff.mp hget, hstart⟩
    exact ⟨(key, bitmap), SortedMap.mem_batch_iff.mpr ⟨hahead, hnext⟩, rfl⟩

theorem mem_list_removeStaleIds : id ∈ (self.removeStaleIds start count).1.list key ↔
    id ∈ self.list key ∧ ¬ (self.Visited start count key ∧ id ∈ self.staleIds.ids) := by
  rw [removeStaleIds]
  split
  · next h => simp [show self.staleIds.ids = ∅ by simpa [StaleSet.isEmpty] using h]
  · rw [mem_list, mem_list]
    have hids : (if start.isNone || self.staleIds.pass.isNone then self.staleIds.beginPass
        else self.staleIds).ids = self.staleIds.ids := by
      split <;> rfl
    generalize (if start.isNone || self.staleIds.pass.isNone then self.staleIds.beginPass
        else self.staleIds) = stale at hids ⊢
    rw [SortedMap.get?_filterMap]
    cases hget : self.labelIndex.get? key with
    | none => simp
    | some bitmap =>
      have hkey : key ∈ self.labelIndex.keys := SortedMap.mem_keys_iff.mpr ⟨bitmap, hget⟩
      rw [Option.bind_some]
      by_cases hv : self.Visited start count key
      · rw [if_pos (mem_batch_keys_iff.mpr ⟨hkey, hv⟩)]
        have hdrained : (∃ b, drained stale bitmap = some b ∧ id ∈ b) ↔ id ∈ stale.mask bitmap := by
          rw [drained]
          split
          · next h => simp [h]
          · simp
        rw [hdrained, StaleSet.mem_mask, hids]
        simp [hv]
      · rw [if_neg fun h => hv (mem_batch_keys_iff.mp h).2]
        simp [hv]

/-- A pass keeps its snapshot, or takes one where it starts. -/
def snapshot (self : Postings) (start : Option IndexKey) : PostingsBitmap :=
  if start.isNone then self.staleIds.ids else self.staleIds.pass.getD self.staleIds.ids

def Retires (self : Postings) (start : Option IndexKey) (count : Nat) : Prop :=
  self.labelIndex.batch start count ≠ [] ∧ self.labelIndex.nextKey start count = none

theorem removeStaleIds_of_empty (h : self.staleIds.ids = ∅) (start : Option IndexKey) (count : Nat) :
    self.removeStaleIds start count = (self, none) :=
  if_pos (by simpa [StaleSet.isEmpty] using h)

theorem staleIds_removeStaleIds (h : self.staleIds.ids ≠ ∅) (start : Option IndexKey) (count : Nat) :
    (¬ self.Retires start count ∧
    (self.removeStaleIds start count).1.staleIds = ⟨self.staleIds.ids, some (self.snapshot start)⟩) ∨
    (self.Retires start count ∧
    (self.removeStaleIds start count).1.staleIds = ⟨self.staleIds.ids \ self.snapshot start, none⟩) := by
  have hbegin : (if start.isNone || self.staleIds.pass.isNone then self.staleIds.beginPass
      else self.staleIds) = ⟨self.staleIds.ids, some (self.snapshot start)⟩ := by
    rw [snapshot]
    generalize self.staleIds = stale
    obtain ⟨ids, pass⟩ := stale
    cases start <;> cases pass <;> rfl
  rw [removeStaleIds, if_neg (by simpa [StaleSet.isEmpty] using h)]
  dsimp only
  rw [hbegin]
  by_cases hr : self.Retires start count
  · refine Or.inr ⟨hr, ?_⟩
    rw [if_pos ⟨by simpa [length_pos_iff] using hr.1, by rw [hr.2]; rfl⟩]
    rfl
  · refine Or.inl ⟨hr, ?_⟩
    rw [if_neg fun hc => hr ⟨by simpa [length_pos_iff] using hc.1, by simpa using hc.2⟩]

theorem removeStaleIds_frame (self : Postings) (start : Option IndexKey) (count : Nat) :
    (self.removeStaleIds start count).1.allPostings = self.allPostings ∧
    (self.removeStaleIds start count).1.idToKey = self.idToKey := by
  rw [removeStaleIds]
  split <;> exact ⟨rfl, rfl⟩

theorem nextKey_removeStaleIds (h : self.staleIds.ids ≠ ∅) (start : Option IndexKey) (count : Nat) :
    (self.removeStaleIds start count).2 = self.labelIndex.nextKey start count := by
  rw [removeStaleIds, if_neg (by simpa [StaleSet.isEmpty] using h)]

/-! ### Upkeep changes no list -/

private theorem mem_emptyLists {entries : List (IndexKey × PostingsBitmap)} :
    key ∈ (emptyLists count entries).1 → (key, (∅ : PostingsBitmap)) ∈ entries := by
  induction entries generalizing count with
  | nil => simp [emptyLists]
  | cons entry entries ih =>
    obtain ⟨key', bitmap⟩ := entry
    unfold emptyLists
    split
    · next h =>
        rintro hmem
        rcases mem_cons.mp hmem with rfl | hmem
        · exact h ▸ mem_cons_self
        · exact mem_cons_of_mem _ (ih hmem)
    · cases count with
      | zero => simp
      | succ count => exact fun hmem => mem_cons_of_mem _ (ih hmem)

theorem list_optimizePostings (self : Postings) (start : Option IndexKey) (count : Nat) (key : IndexKey) :
    (self.optimizePostings start count).1.list key = self.list key := by
  rw [list, list, optimizePostings]
  rw [SortedMap.get?_foldl_erase]
  split
  · next h =>
      have hentry := (SortedMap.mem_ahead_iff.mp (mem_emptyLists h)).1
      rw [SortedMap.get?_eq_some_iff.mpr hentry]
      rfl
  · rfl

end Lists

end Postings

end ValkeyTimeSeries
