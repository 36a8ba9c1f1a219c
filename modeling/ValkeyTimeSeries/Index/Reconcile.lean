/-
Index/Reconcile.lean

What happens to a preloaded index when a load ends (`series/index/persistence.rs`, and the indexing of loaded
series in `series/index/mod.rs`).

Design.  A database is loaded from the records of the RDB, in order; every series record is counted into the
load's statistics, also one whose key has expired and is dropped.  When the load ends the index is compared by
digest, swept for ids whose key does not carry them, compared by count and repaired by a scan of the keyspace.
The sweep's cursor is a 64-bit id that wraps, so it need not end.

The argument: the sweep leaves exactly the pairs of the index that are also pairs of the keyspace
(`reconcileDb_ends`); so equal counts mean equal sets, and otherwise each step of the scan keeps that the
index is part of the keyspace and adds the key it visits (`ensure_round`).
-/
import ValkeyTimeSeries.Index.Drain
import ValkeyTimeSeries.Library.Fuel

namespace ValkeyTimeSeries

open List Function SortedMap

/-! ### Loading -/

inductive Stored where
  | series (series : IndexedSeries)
  | other
deriving DecidableEq

namespace Stored

def seriesId : Stored → Option SeriesRef
  | series s => some s.id
  | other => none

/-- What a repair leaves alone. -/
def labels : Stored → Option (List Label)
  | series s => some s.labels
  | other => none

end Stored

abbrev Keyspace := KeyType → Option Stored

def Keyspace.Carries (keyspace : Keyspace) (id : SeriesRef) (key : KeyType) : Prop :=
  (keyspace key).bind Stored.seriesId = some id

instance (keyspace : Keyspace) (id : SeriesRef) (key : KeyType) : Decidable (keyspace.Carries id key) :=
  inferInstanceAs (Decidable (_ = _))

structure Record where
  key : KeyType
  value : Stored
  /-- The IO context gives the key's name. -/
  named : Bool
  /-- Its time to live had passed, so that the server drops it after deserializing it. -/
  expired : Bool
deriving DecidableEq

structure LoadStats where
  count : Nat
  digest : BitVec 64
  incomplete : Bool
deriving DecidableEq

namespace LoadStats

def default : LoadStats := ⟨0, 0, false⟩

def observe (self : LoadStats) (entryHash : Option (BitVec 64)) : LoadStats where
  count := self.count + 1
  digest := self.digest + entryHash.getD 0
  incomplete := self.incomplete || entryHash.isNone

end LoadStats

structure Loading where
  keyspace : Keyspace
  stats : LoadStats
  keysExpired : Nat

/-- A preloaded index and the records that arrive for its database. -/
structure PreloadedDb where
  postings : Postings
  records : List Record
  /-- What a scan of the keyspace visits. -/
  scan : List KeyType
  /-- An RDB with a key twice fails to load. -/
  distinct : (records.map Record.key).Nodup
  addressable : records.length < 2 ^ 64
  scan_complete : ∀ r ∈ records, r.expired = false → r.key ∈ scan

section Reconcile

variable (entryHash : SeriesRef → KeyType → BitVec 64)

/-- `observe_series_rdb_load`, then the server stores or drops the key. The `loaded` event that follows
is skipped, since the index is preloaded. -/
def loadKey (self : Loading) (r : Record) : Loading :=
  let stats := match r.value with
    | .series series => self.stats.observe (if r.named then some (entryHash series.id r.key) else none)
    | .other => self.stats
  if r.expired then { self with stats, keysExpired := self.keysExpired + 1 }
  else { self with stats, keyspace := update self.keyspace r.key (some r.value) }

def loadRecords (records : List Record) : Loading :=
  records.foldl (loadKey entryHash) ⟨fun _ => none, LoadStats.default, 0⟩

def PreloadedDb.loaded (db : PreloadedDb) : Loading := loadRecords entryHash db.records

def readIndexedStats (postings : Postings) : LoadStats :=
  postings.idToKey.entries.foldl (fun stats e => stats.observe (some (entryHash e.1 e.2))) LoadStats.default

/-! ### The sweep -/

def reconcileBatchSize : Nat := 256

/-- One window of `reconcile_db`; none past the last id. -/
def sweepWindow (keyspace : Keyspace) (cursor : SeriesRef) (postings : Postings) : Option (SeriesRef × Postings) :=
  let window := postings.idToKey.batch (some cursor) reconcileBatchSize
  match window.getLast? with
  | none => none
  | some last =>
    let missing := (window.filter fun e => ¬ keyspace.Carries e.1 e.2).map Prod.fst
    -- the cursor is a `u64`: after the largest id it is 0
    some (last.1 + 1, if missing = [] then postings else postings.markIdsAsStale missing)

def reconcileDb (keyspace : Keyspace) : Nat → SeriesRef → Postings → Option Postings
  | 0, _, _ => none
  | fuel + 1, cursor, postings =>
    match sweepWindow keyspace cursor postings with
    | none => some postings
    | some (cursor, postings) => reconcileDb keyspace fuel cursor postings

/-! ### The repair scan -/

/-- What the repair scan works on: the generator is the last id it has issued. -/
structure Repair where
  postings : Postings
  keyspace : Keyspace
  generator : SeriesRef

/-- `next_timeseries_id` until an id is free. -/
def freshId (postings : Postings) : Nat → SeriesRef → Option SeriesRef
  | 0, _ => none
  | fuel + 1, generator =>
    let id := generator + 1
    if postings.hasId id then freshId postings fuel id else some id

def indexLoadedSeries (fuel : Nat) (self : Repair) (series : IndexedSeries) (key : KeyType) : Option Repair := do
  let postings := (self.postings.removeTimeseriesForKey series key).1
  let id ← freshId postings fuel self.generator
  let series := { series with id }
  some
    { postings := postings.indexTimeseries series key
      keyspace := update self.keyspace key (some (.series series))
      generator := id }

def indexSeriesKeepId (fuel : Nat) (self : Repair) (series : IndexedSeries) (key : KeyType) : Option Repair :=
  match self.postings.getKeyById series.id with
  | some owner => if owner = key then some self else indexLoadedSeries fuel self series key
  | none => some { self with postings := self.postings.indexTimeseries series key }

def ensureSeriesIndexedByKey (fuel : Nat) (self : Repair) (key : KeyType) : Option Repair :=
  match self.keyspace key with
  | some (.series series) => indexSeriesKeepId fuel self series key
  | _ => some self

def verifyAndRepairDb (fuel : Nat) (self : Repair) (loadedCount : Nat) (scan : List KeyType) : Option Repair :=
  if self.postings.count = loadedCount then some self else scan.foldlM (ensureSeriesIndexedByKey fuel) self

/-! ### The end of a load -/

def PreloadedDb.Sweeps (db : PreloadedDb) (forceSweep : Bool) : Prop :=
  ¬ (forceSweep = false ∧ (db.loaded entryHash).stats.incomplete = false ∧
    readIndexedStats entryHash db.postings = (db.loaded entryHash).stats)

instance (db : PreloadedDb) (forceSweep : Bool) : Decidable (db.Sweeps entryHash forceSweep) :=
  inferInstanceAs (Decidable (¬ _))

/-- One database of `reconcile_preloaded_indexes`. -/
def reconcilePreloadedIndex (forceSweep : Bool) (generator : SeriesRef) (db : PreloadedDb) (fuel : Nat) :
    Option Repair :=
  let loaded := db.loaded entryHash
  if db.Sweeps entryHash forceSweep then do
    let postings ← reconcileDb loaded.keyspace fuel 0 db.postings
    verifyAndRepairDb fuel ⟨postings, loaded.keyspace, generator⟩ loaded.stats.count db.scan
  else some ⟨db.postings, loaded.keyspace, generator⟩

def reconcilePreloadedIndexes (forceSweep : Bool) : SeriesRef → List PreloadedDb → Nat → Option (List Repair)
  | _, [], _ => some []
  | generator, db :: dbs, fuel => do
      let repair ← reconcilePreloadedIndex entryHash forceSweep generator db fuel
      let repairs ← reconcilePreloadedIndexes forceSweep repair.generator dbs fuel
      some (repair :: repairs)

/-- `rdb_last_load_keys_expired`: the keys of any type and of any database, here those of the preloaded
ones and those elsewhere. -/
def keysExpired (dbs : List PreloadedDb) (elsewhere : Nat) : Nat :=
  elsewhere + (dbs.map fun db => (db.loaded entryHash).keysExpired).sum

def onLoadingEnded (generator : SeriesRef) (dbs : List PreloadedDb) (elsewhere fuel : Nat) : Option (List Repair) :=
  reconcilePreloadedIndexes entryHash (0 < keysExpired entryHash dbs elsewhere) generator dbs fuel

end Reconcile

/-! ### Pairs -/

def Postings.Maps (postings : Postings) (id : SeriesRef) (key : KeyType) : Prop := postings.idToKey.get? id = some key

instance (postings : Postings) (id : SeriesRef) (key : KeyType) : Decidable (postings.Maps id key) :=
  inferInstanceAs (Decidable (_ = _))

def Repair.Exact (self : Repair) : Prop := ∀ id key, self.postings.Maps id key ↔ self.keyspace.Carries id key

def Repair.Within (self : Repair) : Prop := ∀ id key, self.postings.Maps id key → self.keyspace.Carries id key

/-- The keys of the keyspace and what they hold, ids apart. -/
def Keyspace.Alike (keyspace keyspace' : Keyspace) : Prop :=
  ∀ key, (keyspace' key).map Stored.labels = (keyspace key).map Stored.labels

section Pairs

variable {postings : Postings} {keyspace : Keyspace}

theorem Keyspace.Carries.unique {id id' : SeriesRef} {key : KeyType} (h : keyspace.Carries id key)
    (h' : keyspace.Carries id' key) : id = id' := Option.some.inj (h.symm.trans h')

theorem Keyspace.carries_iff {id : SeriesRef} {key : KeyType} :
    keyspace.Carries id key ↔ ∃ series : IndexedSeries, keyspace key = some (.series series) ∧ series.id = id := by
  rw [Keyspace.Carries, Option.bind_eq_some_iff]
  constructor
  · rintro ⟨value, hvalue, hid⟩
    cases value with
    | series series => exact ⟨series, hvalue, Option.some.inj hid⟩
    | other => cases hid
  · rintro ⟨series, hvalue, hid⟩
    exact ⟨.series series, hvalue, congrArg some hid⟩

theorem names_subperm (h : ∀ id key, postings.Maps id key → keyspace.Carries id key) {names : List KeyType}
    (hnames : ∀ id key, keyspace.Carries id key → key ∈ names) :
    List.Subperm (postings.idToKey.entries.map Prod.snd) names := by
  refine List.Nodup.subperm ?_ fun key hkey => ?_
  · refine pairwise_map.mpr (postings.idToKey.sorted.imp_of_mem fun {a b} ha hb hlt heq => hlt.ne ?_)
    have hcarry := h a.1 a.2 (get?_eq_some_iff.mpr ha)
    rw [heq] at hcarry
    exact hcarry.unique (h b.1 b.2 (get?_eq_some_iff.mpr hb))
  · obtain ⟨e, he, rfl⟩ := mem_map.mp hkey
    exact hnames e.1 e.2 (h e.1 e.2 (get?_eq_some_iff.mpr he))

end Pairs

/-! ### The sweep leaves the pairs of the keyspace -/

section Sweep

variable {keyspace : Keyspace} {postings : Postings} {cursor : SeriesRef}

def lastRef : SeriesRef := Fin.last _

theorem lt_add_one_iff {id last : SeriesRef} (h : last ≠ lastRef) : id < last + 1 ↔ id ≤ last := by
  have hval : (last + 1).val = last.val + 1 := Fin.val_add_one_of_lt (Fin.lt_last_iff_ne_last.mpr h)
  rw [Fin.lt_def, hval, Fin.le_def, Nat.lt_succ_iff]

theorem Postings.maps_markIdsAsStale {ids : List SeriesRef} {id : SeriesRef} {key : KeyType} :
    (postings.markIdsAsStale ids).Maps id key ↔ id ∉ ids ∧ postings.Maps id key := by
  rw [Postings.Maps, Postings.markIdsAsStale]
  rw [get?_foldl_erase]
  by_cases hid : id ∈ ids <;> simp [Postings.Maps]

theorem sweepWindow_none (h : sweepWindow keyspace cursor postings = none) {id : SeriesRef} {key : KeyType}
    (hmap : postings.Maps id key) : id < cursor := by
  rw [sweepWindow] at h
  split at h
  · next hlast =>
      by_contra hge
      have hmem : (id, key) ∈ postings.idToKey.ahead (some cursor) :=
        mem_ahead_iff.mpr ⟨get?_eq_some_iff.mp hmap, by simpa using hge⟩
      rw [getLast?_eq_none_iff, SortedMap.batch, take_eq_nil_iff] at hlast
      rcases hlast with hlast | hlast
      · cases hlast
      · rw [hlast] at hmem
        cases hmem
  · cases h

/-- A window drops its pairs that the keyspace does not carry, and nothing else; the cursor moves past
the last of them. -/
theorem sweepWindow_some {cursor' : SeriesRef} {postings' : Postings}
    (h : sweepWindow keyspace cursor postings = some (cursor', postings')) :
    ∃ last ∈ postings.idToKey.ahead (some cursor), cursor' = last.1 + 1 ∧ ∀ id key, postings'.Maps id key ↔
    postings.Maps id key ∧ (cursor ≤ id → id ≤ last.1 → keyspace.Carries id key) := by
  rw [sweepWindow] at h
  split at h
  · cases h
  next last hlast =>
  obtain ⟨rfl, rfl⟩ := Prod.mk.inj (Option.some.inj h)
  have hin : ∀ {e}, e ∈ postings.idToKey.batch (some cursor) reconcileBatchSize ↔
      postings.Maps e.1 e.2 ∧ cursor ≤ e.1 ∧ e.1 ≤ last.1 := by
    intro e
    rw [mem_batch_iff_le_last hlast, mem_ahead_iff, ← get?_eq_some_iff, and_assoc]
    simp [Postings.Maps]
  have hmem : last ∈ postings.idToKey.ahead (some cursor) :=
    mem_of_mem_take (mem_of_getLast? hlast)
  refine ⟨last, hmem, rfl, fun id key => ?_⟩
  have hmissing : id ∈ ((postings.idToKey.batch (some cursor) reconcileBatchSize).filter
      fun e => ¬ keyspace.Carries e.1 e.2).map Prod.fst ↔
      ∃ key, postings.Maps id key ∧ cursor ≤ id ∧ id ≤ last.1 ∧ ¬ keyspace.Carries id key := by
    simp only [mem_map, mem_filter, hin, decide_eq_true_eq, Prod.exists, and_assoc]
    exact ⟨fun ⟨_, key, hmap, hge, hle, hcarry, heq⟩ => heq ▸ ⟨key, hmap, hge, hle, hcarry⟩,
      fun ⟨key, hmap, hge, hle, hcarry⟩ => ⟨id, key, hmap, hge, hle, hcarry, rfl⟩⟩
  split
  · next hnil =>
      rw [hnil] at hmissing
      refine ⟨fun hmap => ⟨hmap, fun hge hle => ?_⟩, fun hmap => hmap.1⟩
      by_contra hcarry
      exact not_mem_nil (hmissing.mpr ⟨key, hmap, hge, hle, hcarry⟩)
  · rw [Postings.maps_markIdsAsStale, hmissing, and_comm]
    refine and_congr_right fun hmap => ⟨fun hnot hge hle => ?_, fun hkeep ⟨key', hmap', hge, hle, hcarry⟩ => ?_⟩
    · by_contra hcarry
      exact hnot ⟨key, hmap, hge, hle, hcarry⟩
    · obtain rfl : key' = key := Option.some.inj (hmap'.symm.trans hmap)
      exact hcarry (hkeep hge hle)

/-- The sweep does not end while a key carries the largest id and the index has the pair: the pair is in
every window. -/
theorem reconcileDb_never {key : KeyType} (hcarry : keyspace.Carries lastRef key) (fuel : Nat) :
    ∀ cursor postings, postings.Maps lastRef key → reconcileDb keyspace fuel cursor postings = none := by
  induction fuel with
  | zero => exact fun _ _ _ => rfl
  | succ fuel ih =>
    intro cursor postings hmap
    rw [reconcileDb]
    cases hwindow : sweepWindow keyspace cursor postings with
    | none => exact absurd (sweepWindow_none hwindow hmap) (Fin.le_last cursor).not_gt
    | some r =>
      obtain ⟨last, _, _, hmaps⟩ := sweepWindow_some hwindow
      exact ih _ _ ((hmaps _ _).mpr ⟨hmap, fun _ _ => hcarry⟩)

/-- Otherwise it ends, and leaves the pairs that the keyspace carries. -/
theorem reconcileDb_ends (keyspace : Keyspace) (cursor : SeriesRef) (postings : Postings)
    (hlast : ∀ key, postings.Maps lastRef key → ¬ keyspace.Carries lastRef key)
    (hbehind : ∀ id key, postings.Maps id key → id < cursor → keyspace.Carries id key) :
    ∃ postings', Ends (fun fuel => reconcileDb keyspace fuel cursor postings) postings' ∧
    ∀ id key, postings'.Maps id key ↔ postings.Maps id key ∧ keyspace.Carries id key := by
  -- the cursor wraps once at most: the pair of the largest id is dropped when it is met
  induction hmeasure : (toLex ((postings.idToKey.get? lastRef).toList.length,
      (postings.idToKey.ahead (some cursor)).length) : Nat ×ₗ Nat) using WellFoundedLT.induction
    generalizing postings cursor with
  | _ measure ih =>
  subst hmeasure
  cases hwindow : sweepWindow keyspace cursor postings with
  | none =>
    refine ⟨postings, Ends.last fun fuel => by rw [reconcileDb, hwindow], fun id key => ?_⟩
    exact ⟨fun hmap => ⟨hmap, hbehind id key hmap (sweepWindow_none hwindow hmap)⟩, fun h => h.1⟩
  | some r =>
    obtain ⟨cursor', postings'⟩ := r
    obtain ⟨last, hmem, hcursor, hmaps⟩ := sweepWindow_some hwindow
    have hsub : postings'.idToKey.entries ⊆ postings.idToKey.entries := fun e he =>
      get?_eq_some_iff.mp ((hmaps e.1 e.2).mp (get?_eq_some_iff.mpr he)).1
    have hlast' : ∀ key, postings'.Maps lastRef key → ¬ keyspace.Carries lastRef key :=
      fun key hmap => hlast key ((hmaps _ _).mp hmap).1
    have hlastMap : postings.Maps last.1 last.2 :=
      get?_eq_some_iff.mpr (mem_ahead_iff.mp hmem).1
    have hdecreases : (toLex ((postings'.idToKey.get? lastRef).toList.length,
        (postings'.idToKey.ahead (some cursor')).length) : Nat ×ₗ Nat) <
        toLex ((postings.idToKey.get? lastRef).toList.length, (postings.idToKey.ahead (some cursor)).length) := by
      rw [Prod.Lex.toLex_lt_toLex]
      by_cases hwraps : last.1 = lastRef
      · left
        rw [hwraps] at hlastMap
        have hgone : postings'.idToKey.get? lastRef = none := by
          refine Option.eq_none_iff_forall_ne_some.mpr fun key hmap => hlast' key hmap ?_
          exact ((hmaps _ _).mp hmap).2 (Fin.le_last _) hwraps.ge
        rw [hgone, hlastMap]
        exact Nat.one_pos
      · have hahead : (postings'.idToKey.ahead (some cursor')).length < (postings.idToKey.ahead (some cursor)).length :=
          length_ahead_lt _ hsub hmem (hcursor ▸ (lt_add_one_iff hwraps).mpr le_rfl)
        cases hget : postings'.idToKey.get? lastRef with
        | none =>
          cases postings.idToKey.get? lastRef with
          | none => exact Or.inr ⟨rfl, hahead⟩
          | some key => exact Or.inl Nat.one_pos
        | some key =>
          rw [((hmaps _ _).mp hget).1]
          exact Or.inr ⟨rfl, hahead⟩
    have hbehind' : ∀ id key, postings'.Maps id key → id < cursor' → keyspace.Carries id key := by
      intro id key hmap hlt
      obtain ⟨hmap, hkeep⟩ := (hmaps id key).mp hmap
      rcases lt_or_ge id cursor with hid | hid
      · exact hbehind id key hmap hid
      refine hkeep hid ?_
      by_cases hwraps : last.1 = lastRef
      · exact hwraps ▸ Fin.le_last id
      · exact (lt_add_one_iff hwraps).mp (hcursor ▸ hlt)
    obtain ⟨out, hends, hout⟩ := ih _ hdecreases cursor' postings' hlast' hbehind' rfl
    refine ⟨out, hends.round fun fuel => by rw [reconcileDb, hwindow], fun id key => ?_⟩
    rw [hout, hmaps]
    exact ⟨fun h => ⟨h.1.1, h.2⟩, fun h => ⟨⟨h.1, fun _ _ => h.2⟩, h.2⟩⟩

end Sweep

/-! ### A free id -/

section Fresh

variable {postings : Postings}

theorem val_iterate_succ (n : Nat) (generator : SeriesRef) :
    ((· + 1)^[n] generator).val = (generator.val + n) % 2 ^ 64 := by
  induction n with
  | zero => exact (Nat.mod_eq_of_lt generator.isLt).symm
  | succ n ih =>
    rw [iterate_succ_apply', Fin.val_add, ih]
    change ((generator.val + n) % 2 ^ 64 + 1 % 2 ^ 64) % 2 ^ 64 = _
    omega

theorem exists_iterate_succ (generator id : SeriesRef) : ∃ n, (· + 1)^[n + 1] generator = id := by
  refine ⟨id.val + 2 ^ 64 - generator.val - 1, Fin.ext ?_⟩
  rw [val_iterate_succ]
  omega

theorem freshId_ends {id : SeriesRef} (hfree : postings.idToKey.get? id = none) (generator : SeriesRef) :
    ∃ id', Ends (fun fuel => freshId postings fuel generator) id' ∧ postings.idToKey.get? id' = none := by
  obtain ⟨n, hn⟩ := exists_iterate_succ generator id
  induction n generalizing generator with
  | zero =>
    subst hn
    refine ⟨_, Ends.last fun fuel => ?_, hfree⟩
    rw [freshId, if_neg (by simpa [Postings.hasId, SortedMap.contains] using hfree)]
    rfl
  | succ n ih =>
    by_cases hhas : postings.hasId (generator + 1)
    · obtain ⟨id', hends, hid'⟩ := ih (generator + 1) hn
      exact ⟨id', hends.round fun fuel => by rw [freshId, if_pos hhas], hid'⟩
    · refine ⟨generator + 1, Ends.last fun fuel => by rw [freshId, if_neg hhas], ?_⟩
      simpa [Postings.hasId, SortedMap.contains] using hhas

theorem exists_free (h : postings.idToKey.length < 2 ^ 64) : ∃ id, postings.idToKey.get? id = none := by
  by_contra hall
  push Not at hall
  have hkeys : postings.idToKey.keys.toFinset = Finset.univ := by
    refine Finset.eq_univ_iff_forall.mpr fun id => mem_toFinset.mpr ?_
    exact mem_keys_iff.mpr (Option.ne_none_iff_exists'.mp (hall id))
  have hcard := congrArg Finset.card hkeys
  rw [toFinset_card_of_nodup postings.idToKey.keys_nodup, Finset.card_univ, Fintype.card_fin,
    SortedMap.keys, length_map] at hcard
  exact h.ne hcard

end Fresh

/-! ### The scan indexes every key -/

section Scan

variable {keyspace : Keyspace} {names : List KeyType}

theorem Keyspace.Alike.carries {keyspace' : Keyspace} (h : keyspace.Alike keyspace') {id : SeriesRef} {key : KeyType}
    (hcarry : keyspace'.Carries id key) : ∃ id', keyspace.Carries id' key := by
  obtain ⟨series, hseries, _⟩ := Keyspace.carries_iff.mp hcarry
  have hkey := h key
  rw [hseries] at hkey
  cases hvalue : keyspace key with
  | none =>
    rw [hvalue] at hkey
    cases hkey
  | some value =>
    rw [hvalue] at hkey
    cases value with
    | series series' => exact ⟨series'.id, Keyspace.carries_iff.mpr ⟨series', hvalue, rfl⟩⟩
    | other => cases hkey

/-- After the keys `done`: the index is part of the keyspace, has the keys done, and the keyspace differs
from the loaded one in ids at most. -/
structure Scanned (keyspace : Keyspace) (done : List KeyType) (r : Repair) : Prop where
  within : r.Within
  alike : keyspace.Alike r.keyspace
  has_done : ∀ id, ∀ key ∈ done, r.keyspace.Carries id key → r.postings.Maps id key

theorem Postings.maps_indexTimeseries {postings : Postings} {series : IndexedSeries} {key : KeyType} {id : SeriesRef}
    {key' : KeyType} : (postings.indexTimeseries series key).Maps id key' ↔
    if id = series.id then key = key' else postings.Maps id key' := by
  rw [Postings.Maps, (Postings.indexTimeseries_spec postings series key).2.2.2.2]
  split
  · exact Option.some_inj
  · rfl

namespace Scanned

variable {done : List KeyType} {self : Repair} {key : KeyType} {series : IndexedSeries}

variable (h : Scanned keyspace done self)
include h

theorem stays
    (hkey : ∀ id, self.keyspace.Carries id key → self.postings.Maps id key) :
    Scanned keyspace (done ++ [key]) self := by
  refine ⟨h.within, h.alike, fun id key' hmem hcarry => ?_⟩
  rcases mem_append.mp hmem with hmem | hmem
  · exact h.has_done id key' hmem hcarry
  · rw [mem_singleton.mp hmem] at hcarry ⊢
    exact hkey id hcarry

theorem keepsId (hcarry : self.keyspace.Carries series.id key) (hfree : self.postings.idToKey.get? series.id = none) :
    Scanned keyspace (done ++ [key]) { self with postings := self.postings.indexTimeseries series key } := by
  refine ⟨fun id key' hmap => ?_, h.alike, fun id key' hmem hcarry' => ?_⟩
  · rw [Postings.maps_indexTimeseries] at hmap
    split at hmap
    · next hid => exact hid ▸ hmap ▸ hcarry
    · exact h.within id key' hmap
  · rw [Postings.maps_indexTimeseries]
    rcases mem_append.mp hmem with hmem | hmem
    · have hmap := h.has_done id key' hmem hcarry'
      rw [if_neg (fun hid => by rw [Postings.Maps, hid, hfree] at hmap; cases hmap)]
      exact hmap
    · rw [mem_singleton.mp hmem] at hcarry' ⊢
      rw [if_pos (hcarry'.unique hcarry)]

theorem getsId (hvalue : self.keyspace key = some (.series series))
    (hmiss : ∀ id, ¬ self.postings.Maps id key) {id : SeriesRef} (hfree : self.postings.idToKey.get? id = none) :
    Scanned keyspace (done ++ [key])
      { postings := self.postings.indexTimeseries { series with id } key
        keyspace := update self.keyspace key (some (.series { series with id }))
        generator := id } := by
  have hnew : Keyspace.Carries (update self.keyspace key (some (.series { series with id }))) id key :=
    Keyspace.carries_iff.mpr ⟨_, update_self .., rfl⟩
  have hother : ∀ {id' : SeriesRef} {key' : KeyType}, key' ≠ key →
      (Keyspace.Carries (update self.keyspace key (some (.series { series with id }))) id' key' ↔
        self.keyspace.Carries id' key') := by
    intro id' key' hne
    rw [Keyspace.Carries, update_of_ne hne]
    rfl
  refine ⟨fun id' key' hmap => ?_, fun key' => ?_, fun id' key' hmem hcarry' => ?_⟩
  · rw [Postings.maps_indexTimeseries] at hmap
    split at hmap
    · next heq => exact heq ▸ hmap ▸ hnew
    · have hne : key' ≠ key := fun heq => hmiss id' (heq ▸ hmap)
      exact (hother hne).mpr (h.within id' key' hmap)
  · rw [← h.alike key']
    dsimp only
    by_cases heq : key' = key
    · rw [heq, update_self, hvalue]
      rfl
    · rw [update_of_ne heq]
  · rw [Postings.maps_indexTimeseries]
    by_cases heq : key' = key
    · rw [heq] at hcarry' ⊢
      rw [if_pos (hcarry'.unique hnew)]
    · have hdone : key' ∈ done := by simpa [heq] using hmem
      have hmap := h.has_done id' key' hdone ((hother heq).mp hcarry')
      rw [if_neg (fun hid' => by rw [Postings.Maps, hid', hfree] at hmap; cases hmap)]
      exact hmap

end Scanned

theorem ensure_round (hnames : ∀ id key, keyspace.Carries id key → key ∈ names) (hlen : names.length < 2 ^ 64)
    {done : List KeyType} {self : Repair} (h : Scanned keyspace done self) (key : KeyType) :
    ∃ self', Ends (fun fuel => ensureSeriesIndexedByKey fuel self key) self' ∧
    Scanned keyspace (done ++ [key]) self' := by
  by_cases hseries : ∃ id, self.keyspace.Carries id key
  swap
  · have hsame : ∀ fuel, ensureSeriesIndexedByKey fuel self key = some self := by
      intro fuel
      rw [ensureSeriesIndexedByKey]
      split
      · next series hvalue => exact absurd ⟨series.id, Keyspace.carries_iff.mpr ⟨series, hvalue, rfl⟩⟩ hseries
      · rfl
    simp only [hsame]
    exact ⟨self, Ends.pure self, h.stays fun id hcarry => absurd ⟨id, hcarry⟩ hseries⟩
  obtain ⟨id, hcarry⟩ := hseries
  obtain ⟨series, hvalue, rfl⟩ := Keyspace.carries_iff.mp hcarry
  simp only [ensureSeriesIndexedByKey, hvalue, indexSeriesKeepId, Postings.getKeyById]
  cases howner : self.postings.idToKey.get? series.id with
  | none => exact ⟨_, Ends.pure _, h.keepsId hcarry howner⟩
  | some owner =>
    by_cases hown : owner = key
    · simp only [if_pos hown]
      refine ⟨self, Ends.pure self, h.stays fun id hcarry' => ?_⟩
      rw [hcarry'.unique hcarry, ← hown]
      exact howner
    simp only [if_neg hown, indexLoadedSeries]
    have hmiss : ∀ id, ¬ self.postings.Maps id key := by
      intro id hmap
      rw [(h.within id key hmap).unique hcarry, Postings.Maps, howner] at hmap
      exact hown (Option.some.inj hmap)
    have hremove : (self.postings.removeTimeseriesForKey series key).1 = self.postings := by
      exact congrArg Prod.fst (if_neg (hmiss series.id))
    rw [hremove]
    have hcount : self.postings.idToKey.length < 2 ^ 64 := by
      have hsub := names_subperm h.within fun id key hcarry =>
        (h.alike.carries hcarry).elim fun id' hid' => hnames id' key hid'
      have hle := hsub.length_le
      rw [length_map] at hle
      exact hle.trans_lt hlen
    obtain ⟨free, hfree⟩ := exists_free hcount
    obtain ⟨id, hends, hid⟩ := freshId_ends hfree self.generator
    exact ⟨_, hends.bind (g := fun id _ => some _) (Ends.pure _), h.getsId hvalue hmiss hid⟩

/-- The check and the scan make the index exact, if it was part of the keyspace. -/
theorem verifyAndRepairDb_ends (self : Repair) (hwithin : self.Within) {loadedCount : Nat} {scan : List KeyType}
    (hnames : ∀ id key, self.keyspace.Carries id key → key ∈ names) (hlen : names.length < 2 ^ 64)
    (hcount : names.length ≤ loadedCount) (hscan : names ⊆ scan) :
    ∃ self', Ends (fun fuel => verifyAndRepairDb fuel self loadedCount scan) self' ∧ self'.Exact ∧
    self.keyspace.Alike self'.keyspace := by
  simp only [verifyAndRepairDb]
  have hsub := names_subperm hwithin hnames
  by_cases heq : self.postings.count = loadedCount
  · simp only [if_pos heq]
    refine ⟨self, Ends.pure self, fun id key => ⟨hwithin id key, fun hcarry => ?_⟩, fun _ => rfl⟩
    have hperm := hsub.perm_of_length_le (by rw [length_map]; exact hcount.trans heq.ge)
    obtain ⟨e, he, rfl⟩ := mem_map.mp (hperm.mem_iff.mpr (hnames id key hcarry))
    have hmap : self.postings.Maps e.1 e.2 := get?_eq_some_iff.mpr he
    rwa [hcarry.unique (hwithin e.1 e.2 hmap)]
  · simp only [if_neg heq]
    obtain ⟨self', hends, hscanned⟩ := Ends.foldlM (I := Scanned self.keyspace) scan [] self
      (fun done key b _ h => ensure_round hnames hlen h key) ⟨hwithin, fun _ => rfl, fun _ _ h => by cases h⟩
    refine ⟨self', hends, fun id key => ⟨hscanned.within id key, fun hcarry => ?_⟩, hscanned.alike⟩
    obtain ⟨id', hid'⟩ := hscanned.alike.carries hcarry
    exact hscanned.has_done id key (hscan (hnames id' key hid')) hcarry

end Scan

/-! ### What is loaded -/

namespace Record

/-- `rdb_load` of a series. -/
def isSeries (r : Record) : Bool := r.value.seriesId.isSome

end Record

section Loaded

variable {entryHash : SeriesRef → KeyType → BitVec 64}

variable (records : List Record)

theorem count_foldl_loadKey (s : Loading) :
    (records.foldl (loadKey entryHash) s).stats.count = s.stats.count + records.countP (·.isSeries) := by
  induction records generalizing s with
  | nil => rfl
  | cons r records ih =>
    rw [foldl_cons, ih, countP_cons, loadKey]
    rcases r with ⟨key, value, named, expired⟩
    cases value <;> cases expired <;> simp [LoadStats.observe, Record.isSeries, Stored.seriesId] <;> omega

theorem keysExpired_foldl_loadKey (s : Loading) :
    (records.foldl (loadKey entryHash) s).keysExpired = s.keysExpired + records.countP (·.expired) := by
  induction records generalizing s with
  | nil => rfl
  | cons r records ih =>
    rw [foldl_cons, ih, countP_cons, loadKey]
    cases r.expired with
    | true =>
      simp
      omega
    | false => simp

theorem keyspace_foldl_loadKey (hdist : (records.map Record.key).Nodup) (s : Loading) (key : KeyType) (value : Stored) :
    (records.foldl (loadKey entryHash) s).keyspace key = some value ↔
    (∃ r ∈ records, r.expired = false ∧ r.key = key ∧ r.value = value) ∨
    (s.keyspace key = some value ∧ ∀ r ∈ records, r.expired = false → r.key ≠ key) := by
  induction records generalizing s with
  | nil => simp
  | cons r records ih =>
    obtain ⟨hr, hdist⟩ := nodup_cons.mp hdist
    have hr' : ∀ r' ∈ records, r'.key ≠ r.key := fun r' h heq => hr (heq ▸ mem_map_of_mem h)
    rw [foldl_cons, ih hdist, loadKey]
    cases hexp : r.expired with
    | true => simp [hexp]
    | false =>
      by_cases hkey : key = r.key
      · subst hkey
        simp only [Bool.false_eq_true, if_false, update_self, exists_mem_cons_iff,
          forall_mem_cons, hexp, true_and, Option.some_inj]
        constructor
        · rintro (⟨r', hmem, _, hkey', _⟩ | ⟨hvalue, _⟩)
          · exact absurd hkey' (hr' r' hmem)
          · exact Or.inl (Or.inl hvalue)
        · rintro ((hvalue | ⟨r', hmem, _, hkey', _⟩) | ⟨_, hne, _⟩)
          · exact Or.inr ⟨hvalue, fun r' hmem _ => hr' r' hmem⟩
          · exact absurd hkey' (hr' r' hmem)
          · exact absurd rfl (hne trivial)
      · have hkey' : r.key ≠ key := Ne.symm hkey
        simp [hkey, hkey']

variable {db : PreloadedDb} {id : SeriesRef} {key : KeyType}

namespace PreloadedDb

def Loads (db : PreloadedDb) (id : SeriesRef) (key : KeyType) : Prop :=
  ∃ r ∈ db.records, r.key = key ∧ r.value.seriesId = some id

/-- Equal statistics mean equal sets of pairs. -/
def DigestDistinguishes (db : PreloadedDb) (entryHash : SeriesRef → KeyType → BitVec 64) : Prop :=
  readIndexedStats entryHash db.postings = (db.loaded entryHash).stats →
    ∀ id key, db.postings.Maps id key ↔ db.Loads id key

def names (db : PreloadedDb) : List KeyType :=
  (db.records.filter fun r => !r.expired && r.isSeries).map Record.key

theorem carries_iff : (db.loaded entryHash).keyspace.Carries id key ↔
    ∃ r ∈ db.records, r.expired = false ∧ r.key = key ∧ r.value.seriesId = some id := by
  rw [Keyspace.Carries, Option.bind_eq_some_iff]
  simp only [loaded, loadRecords, keyspace_foldl_loadKey _ db.distinct, reduceCtorEq, false_and, or_false]
  constructor
  · rintro ⟨value, ⟨r, hmem, hexp, hkey, rfl⟩, hid⟩
    exact ⟨r, hmem, hexp, hkey, hid⟩
  · rintro ⟨r, hmem, hexp, hkey, hid⟩
    exact ⟨r.value, ⟨r, hmem, hexp, hkey, rfl⟩, hid⟩

theorem names_of_carries (h : (db.loaded entryHash).keyspace.Carries id key) : key ∈ db.names := by
  obtain ⟨r, hmem, hexp, rfl, hid⟩ := carries_iff.mp h
  refine mem_map_of_mem (mem_filter.mpr ⟨hmem, ?_⟩)
  simp [hexp, Record.isSeries, hid]

theorem names_subset_scan : db.names ⊆ db.scan := by
  intro key hkey
  obtain ⟨r, hr, rfl⟩ := mem_map.mp hkey
  obtain ⟨hmem, hstays⟩ := mem_filter.mp hr
  refine db.scan_complete r hmem ?_
  simp only [Bool.and_eq_true, Bool.not_eq_true'] at hstays
  exact hstays.1

theorem length_names_lt : db.names.length < 2 ^ 64 := by
  rw [names, length_map]
  exact (length_filter_le _ _).trans_lt db.addressable

theorem length_names_le_count : db.names.length ≤ (db.loaded entryHash).stats.count := by
  rw [loaded, loadRecords, count_foldl_loadKey, names, length_map, ← countP_eq_length_filter]
  refine le_add_of_le_right (countP_mono_left fun r _ h => ?_)
  exact (Bool.and_eq_true_iff.mp h).2

end PreloadedDb

end Loaded

/-! ### The end of a load -/

section Ended

variable {entryHash : SeriesRef → KeyType → BitVec 64} {forceSweep : Bool}

/-- The pair of the largest id is in the index and the keyspace. -/
def PreloadedDb.HoldsLast (db : PreloadedDb) (entryHash : SeriesRef → KeyType → BitVec 64) : Prop :=
  ∃ key, db.postings.Maps lastRef key ∧ (db.loaded entryHash).keyspace.Carries lastRef key

theorem reconcilePreloadedIndex_never {db : PreloadedDb} (hsweeps : db.Sweeps entryHash forceSweep)
    (hlast : db.HoldsLast entryHash) (generator : SeriesRef) (fuel : Nat) :
    reconcilePreloadedIndex entryHash forceSweep generator db fuel = none := by
  obtain ⟨key, hmap, hcarry⟩ := hlast
  rw [reconcilePreloadedIndex, if_pos hsweeps, reconcileDb_never hcarry fuel _ _ hmap]
  rfl

theorem reconcilePreloadedIndex_ends {db : PreloadedDb} (hdigest : db.DigestDistinguishes entryHash)
    (hforce : forceSweep = false → (db.loaded entryHash).keysExpired = 0)
    (hlast : db.Sweeps entryHash forceSweep → ¬ db.HoldsLast entryHash) (generator : SeriesRef) :
    ∃ repair, Ends (fun fuel => reconcilePreloadedIndex entryHash forceSweep generator db fuel) repair ∧
    repair.Exact ∧ (db.loaded entryHash).keyspace.Alike repair.keyspace := by
  simp only [reconcilePreloadedIndex]
  by_cases hsweeps : db.Sweeps entryHash forceSweep
  · simp only [if_pos hsweeps]
    obtain ⟨postings, hends, hmaps⟩ := reconcileDb_ends (db.loaded entryHash).keyspace 0 db.postings
      (fun key hmap hcarry => hlast hsweeps ⟨key, hmap, hcarry⟩)
      fun id key _ h => absurd h (Fin.zero_le id).not_gt
    obtain ⟨repair, hrepair, hexact, halike⟩ := verifyAndRepairDb_ends
      ⟨postings, (db.loaded entryHash).keyspace, generator⟩
      (fun id key hmap => ((hmaps id key).mp hmap).2) (fun id key => PreloadedDb.names_of_carries)
      PreloadedDb.length_names_lt PreloadedDb.length_names_le_count PreloadedDb.names_subset_scan
    exact ⟨repair, hends.bind (g := fun postings fuel => verifyAndRepairDb fuel _ _ _) hrepair, hexact, halike⟩
  · simp only [if_neg hsweeps]
    obtain ⟨hnot, _, hstats⟩ := not_not.mp hsweeps
    have hkept : ∀ r ∈ db.records, r.expired = false := by
      have hzero := hforce hnot
      rw [PreloadedDb.loaded, loadRecords, keysExpired_foldl_loadKey, Nat.zero_add, countP_eq_zero] at hzero
      exact fun r hr => by simpa using hzero r hr
    refine ⟨_, Ends.pure _, fun id key => ?_, fun _ => rfl⟩
    rw [hdigest hstats, PreloadedDb.carries_iff]
    exact ⟨fun ⟨r, hr, hpair⟩ => ⟨r, hr, hkept r hr, hpair⟩, fun ⟨r, hr, _, hpair⟩ => ⟨r, hr, hpair⟩⟩

def Reconciled (entryHash : SeriesRef → KeyType → BitVec 64) (db : PreloadedDb) (repair : Repair) : Prop :=
  repair.Exact ∧ (db.loaded entryHash).keyspace.Alike repair.keyspace

theorem reconcilePreloadedIndexes_ends (dbs : List PreloadedDb) (hdigest : ∀ db ∈ dbs, db.DigestDistinguishes entryHash)
    (hforce : forceSweep = false → ∀ db ∈ dbs, (db.loaded entryHash).keysExpired = 0)
    (hlast : ∀ db ∈ dbs, db.Sweeps entryHash forceSweep → ¬ db.HoldsLast entryHash) (generator : SeriesRef) :
    ∃ repairs, Ends (reconcilePreloadedIndexes entryHash forceSweep generator dbs) repairs ∧
    List.Forall₂ (Reconciled entryHash) dbs repairs := by
  induction dbs generalizing generator with
  | nil => exact ⟨[], Ends.pure [], .nil⟩
  | cons db dbs ih =>
    obtain ⟨repair, hends, hexact⟩ := reconcilePreloadedIndex_ends (hdigest db mem_cons_self)
      (fun h => hforce h db mem_cons_self) (hlast db mem_cons_self) generator
    obtain ⟨repairs, hrest, hall⟩ := ih (fun db h => hdigest db (mem_cons_of_mem _ h))
      (fun hf db h => hforce hf db (mem_cons_of_mem _ h)) (fun db h => hlast db (mem_cons_of_mem _ h))
      repair.generator
    refine ⟨repair :: repairs, ?_, .cons hexact hall⟩
    exact hends.bind (g := fun repair fuel => do
      let repairs ← reconcilePreloadedIndexes entryHash forceSweep repair.generator dbs fuel
      some (repair :: repairs)) (hrest.bind (g := fun repairs _ => some (repair :: repairs)) (Ends.pure _))

theorem reconcilePreloadedIndexes_never (dbs : List PreloadedDb) {db : PreloadedDb} (hmem : db ∈ dbs)
    (hsweeps : db.Sweeps entryHash forceSweep) (hlast : db.HoldsLast entryHash) (generator : SeriesRef) (fuel : Nat) :
    reconcilePreloadedIndexes entryHash forceSweep generator dbs fuel = none := by
  induction dbs generalizing generator with
  | nil => cases hmem
  | cons db' dbs ih =>
    rw [reconcilePreloadedIndexes]
    rcases mem_cons.mp hmem with rfl | hmem
    · rw [reconcilePreloadedIndex_never hsweeps hlast]
      rfl
    · cases reconcilePreloadedIndex entryHash forceSweep generator db' fuel with
      | none => rfl
      | some repair =>
        change reconcilePreloadedIndexes entryHash forceSweep repair.generator dbs fuel >>= _ = none
        rw [ih hmem]
        rfl

/-- When a load ends, reconciliation returns with every preloaded index exact, unless a database is swept
that has the largest id in its index and its keyspace. -/
theorem onLoadingEnded_exact_iff (generator : SeriesRef) (dbs : List PreloadedDb) (elsewhere : Nat)
    (hdigest : ∀ db ∈ dbs, db.DigestDistinguishes entryHash) :
    (∃ fuel repairs, onLoadingEnded entryHash generator dbs elsewhere fuel = some repairs ∧
        List.Forall₂ (Reconciled entryHash) dbs repairs) ↔
      ∀ db ∈ dbs, db.Sweeps entryHash (0 < keysExpired entryHash dbs elsewhere) → ¬ db.HoldsLast entryHash := by
  constructor
  · rintro ⟨fuel, repairs, hrun, _⟩ db hmem hsweeps hlast
    rw [onLoadingEnded, reconcilePreloadedIndexes_never dbs hmem hsweeps hlast] at hrun
    cases hrun
  · intro hlast
    have hforce : decide (0 < keysExpired entryHash dbs elsewhere) = false →
        ∀ db ∈ dbs, (db.loaded entryHash).keysExpired = 0 := by
      intro hforce db hmem
      have hzero : keysExpired entryHash dbs elsewhere = 0 := by simpa using hforce
      have hsum : (dbs.map fun db => (db.loaded entryHash).keysExpired).sum = 0 := by
        rw [keysExpired] at hzero
        omega
      exact sum_eq_zero_iff.mp hsum _ (mem_map_of_mem hmem)
    obtain ⟨repairs, ⟨bound, hends⟩, hall⟩ := reconcilePreloadedIndexes_ends dbs hdigest hforce hlast generator
    exact ⟨bound, repairs, hends bound le_rfl, hall⟩

end Ended

def idHash (id : SeriesRef) (_ : KeyType) : BitVec 64 := .ofFin id

/-- An index of another snapshot: it has the id 7 under a name that is not loaded, and lacks the pair of
the series that is. -/
def otherSnapshot : PreloadedDb where
  postings := Postings.default.indexTimeseries ⟨7, []⟩ [0x61]
  records := [⟨[0x6B], .series ⟨5, []⟩, true, false⟩, ⟨[0x78], .series ⟨6, []⟩, true, true⟩]
  scan := [[0x6B]]
  distinct := by decide
  addressable := by decide
  scan_complete := by decide

theorem onLoadingEnded_otherSnapshot : ∃ fuel repairs, onLoadingEnded idHash 0 [otherSnapshot] 0 fuel = some repairs ∧
    List.Forall₂ (Reconciled idHash) [otherSnapshot] repairs := by
  refine (onLoadingEnded_exact_iff 0 [otherSnapshot] 0 fun db hmem hstats => ?_).mpr fun db hmem _ ⟨key, hmap, _⟩ => ?_
  · rw [mem_singleton.mp hmem] at hstats
    exact absurd hstats (by decide)
  · rw [mem_singleton.mp hmem] at hmap
    cases hmap

/-- The largest id is indexed and loaded, and another key has expired. -/
def largestId : PreloadedDb where
  postings := Postings.default.indexTimeseries ⟨lastRef, []⟩ [0x6B]
  records := [⟨[0x6B], .series ⟨lastRef, []⟩, true, false⟩, ⟨[0x78], .series ⟨6, []⟩, true, true⟩]
  scan := [[0x6B]]
  distinct := by decide
  addressable := by decide
  scan_complete := by decide

theorem onLoadingEnded_largestId_never :
    ¬ ∃ fuel repairs, onLoadingEnded idHash 0 [largestId] 0 fuel = some repairs := by
  rintro ⟨fuel, repairs, hrun⟩
  rw [onLoadingEnded, reconcilePreloadedIndexes_never [largestId] (mem_singleton_self _) (by decide)
    ⟨[0x6B], by decide, by decide⟩ 0 fuel] at hrun
  cases hrun

end ValkeyTimeSeries
