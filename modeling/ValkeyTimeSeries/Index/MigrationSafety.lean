/-
Index/MigrationSafety.lean

Slot migration keeps the index right, as long as no slot is imported while a job for it is pending.

Design.  Every live pair of an index is backed by a series stored (`Backed`).  The invariant `Sound` has that,
that a series of an imported slot is queued and not indexed, and that a series of a slot owned is indexed or
some job has it still to index.  A job is sound if its slots are not imported, and those of a cleanup not
owned; the ids that a cleanup has read belong to keys of its slots as long as they are live, as an id is never
issued again.

Without the condition a job of an earlier migration takes the keys of a later one for its own.
-/
import ValkeyTimeSeries.Index.SlotMigration

namespace ValkeyTimeSeries

open List Function Option Postings

/-! ### Pairs that are backed -/

/-- The index has the series under the key: a live pair, and its id unmasked in every list. -/
structure Postings.Has (postings : Postings) (series : IndexedSeries) (key : KeyType) : Prop where
  maps : postings.Maps series.id key
  all : series.id ∈ postings.allPostings
  live : series.id ∉ postings.staleIds.ids
  lists : ∀ label ∈ series.labelKeys, series.id ∈ postings.list label

def Backed (postings : Postings) (keyspace : Keyspace) : Prop :=
  ∀ id key, postings.Maps id key → ∃ series, keyspace key = some (.series series) ∧ series.id = id ∧
    postings.Has series key

namespace Backed

variable {postings : Postings} {keyspace : Keyspace} {key : KeyType} {series : IndexedSeries}

section

variable (h : Backed postings keyspace)
include h

theorem id_eq (hseries : keyspace key = some (.series series)) {id : SeriesRef}
    (hmap : postings.Maps id key) : id = series.id := by
  obtain ⟨series', hseries', rfl, -⟩ := h id key hmap
  rw [Stored.series.inj (Option.some.inj (hseries.symm.trans hseries'))]

theorem maps_unlink (hseries : keyspace key = some (.series series)) {id : SeriesRef}
    {key' : KeyType} : (postings.removeTimeseriesForKey series key).1.Maps id key' ↔ postings.Maps id key' ∧
    key' ≠ key := by
  by_cases hmap : postings.Maps series.id key
  · have howner : postings.idToKey.get? series.id = some key := hmap
    rw [Postings.removeTimeseriesForKey, if_pos howner, Postings.Maps,
      (removeTimeseries_spec postings series).2.2.2, SortedMap.get?_erase]
    split_ifs with hid
    · subst hid
      refine ⟨fun hnone => (by cases hnone), fun hother => absurd ?_ hother.2⟩
      exact Option.some.inj (hother.1.symm.trans howner)
    · refine ⟨fun hother => ⟨hother, fun heq => hid ?_⟩, And.left⟩
      exact h.id_eq hseries (heq ▸ hother)
  · rw [Agrees.removeTimeseriesForKey_of_not_maps hmap]
    refine ⟨fun hother => ⟨hother, fun heq => hmap ?_⟩, And.left⟩
    have hother' : postings.Maps id key := heq ▸ hother
    exact h.id_eq hseries hother' ▸ hother'

theorem unlink (hseries : keyspace key = some (.series series)) (value : Option Stored) :
    Backed (postings.removeTimeseriesForKey series key).1 (update keyspace key value) := by
  intro id key' hmap
  obtain ⟨hold, hne⟩ := (h.maps_unlink hseries).mp hmap
  obtain ⟨series', hseries', rfl, hhas⟩ := h id key' hold
  refine ⟨series', by rw [update_of_ne hne]; exact hseries', rfl, ?_⟩
  by_cases hown : postings.Maps series.id key
  · have howner : postings.idToKey.get? series.id = some key := hown
    have hid : series'.id ≠ series.id := fun heq => hne (Option.some.inj (hold.symm.trans (heq ▸ howner)))
    obtain ⟨hlist, hstale, hall, -⟩ := removeTimeseries_spec postings series
    rw [Postings.removeTimeseriesForKey, if_pos howner] at hmap ⊢
    refine ⟨hmap, ?_, by rw [hstale]; exact hhas.live, fun label hlabel => ?_⟩
    · rw [hall]
      exact Finset.mem_erase.mpr ⟨hid, hhas.all⟩
    · exact (hlist _ _).mpr ⟨hhas.lists label hlabel, fun hsame => hid hsame.1⟩
  · rw [Agrees.removeTimeseriesForKey_of_not_maps hown]
    exact hhas

theorem setKey (hkey : ∀ id, ¬ postings.Maps id key) (value : Option Stored) :
    Backed postings (update keyspace key value) := by
  intro id key' hmap
  obtain ⟨series', hseries', hid, hhas⟩ := h id key' hmap
  have hne : key' ≠ key := fun heq => hkey id (heq ▸ hmap)
  exact ⟨series', by rw [update_of_ne hne]; exact hseries', hid, hhas⟩

theorem index (hkey : ∀ id, ¬ postings.Maps id key) :
    Backed (postings.indexTimeseries series key) (update keyspace key (some (.series series))) := by
  obtain ⟨hlist, hstale, -, hall, -⟩ := indexTimeseries_spec postings series key
  intro id key' hmap
  have hmap' := maps_indexTimeseries.mp hmap
  split_ifs at hmap' with hid
  · subst hid hmap'
    refine ⟨series, update_self .., rfl, hmap, ?_, ?_, fun label hlabel => (hlist _ _).mpr (.inr ⟨rfl, hlabel⟩)⟩
    · rw [hall]
      exact Finset.mem_insert_self ..
    · rw [hstale]
      exact Finset.notMem_erase _ _
  · obtain ⟨series', hseries', rfl, hhas⟩ := h id key' hmap'
    have hne : key' ≠ key := fun heq => hkey series'.id (heq ▸ hmap')
    refine ⟨series', by rw [update_of_ne hne]; exact hseries', rfl, hmap, ?_, ?_, fun label hlabel => ?_⟩
    · rw [hall]
      exact Finset.mem_insert_of_mem hhas.all
    · rw [hstale]
      exact fun hmem => hhas.live (Finset.mem_of_mem_erase hmem)
    · exact (hlist _ _).mpr (.inl (hhas.lists label hlabel))

theorem markIdsAsStale (ids : List SeriesRef) :
    Backed (postings.markIdsAsStale ids) keyspace := by
  intro id key' hmap
  obtain ⟨hnot, hold⟩ := maps_markIdsAsStale.mp hmap
  obtain ⟨series', hseries', rfl, hhas⟩ := h id key' hold
  refine ⟨series', hseries', rfl, hmap, ?_, ?_, hhas.lists⟩
  · exact Finset.mem_sdiff.mpr ⟨hhas.all, fun hmem => hnot (mem_toFinset.mp hmem)⟩
  · intro hmem
    rcases Finset.mem_union.mp hmem with hmem | hmem
    · exact hhas.live hmem
    · exact hnot (mem_toFinset.mp hmem)

end

theorem maps_removeStaleIds {start : Option IndexKey} {count : Nat} {id : SeriesRef} {key : KeyType} :
    (postings.removeStaleIds start count).1.Maps id key ↔ postings.Maps id key := by
  rw [Postings.Maps, (removeStaleIds_frame postings start count).2, Postings.Maps]

theorem removeStaleIds (h : Backed postings keyspace) (start : Option IndexKey) (count : Nat) :
    Backed (postings.removeStaleIds start count).1 keyspace := by
  intro id key' hmap
  obtain ⟨series', hseries', rfl, hhas⟩ := h id key' (maps_removeStaleIds.mp hmap)
  refine ⟨series', hseries', rfl, hmap, ?_, ?_, fun label hlabel => ?_⟩
  · rw [(removeStaleIds_frame postings start count).1]
    exact hhas.all
  · by_cases hempty : postings.staleIds.ids = ∅
    · have hisEmpty : postings.staleIds.isEmpty = true := decide_eq_true hempty
      rw [Postings.removeStaleIds, if_pos hisEmpty]
      exact hhas.live
    · rcases staleIds_removeStaleIds hempty start count with ⟨-, heq⟩ | ⟨-, heq⟩
      · rw [heq]
        exact hhas.live
      · rw [heq]
        exact fun hmem => hhas.live (Finset.mem_sdiff.mp hmem).1
  · exact mem_list_removeStaleIds.mpr ⟨hhas.lists label hlabel, fun hgone => hhas.live hgone.2⟩

theorem optimizePostings (h : Backed postings keyspace) (start : Option IndexKey) (count : Nat) :
    Backed (postings.optimizePostings start count).1 keyspace := by
  intro id key' hmap
  obtain ⟨series', hseries', rfl, hhas⟩ := h id key' hmap
  refine ⟨series', hseries', rfl, hmap, hhas.all, hhas.live, fun label hlabel => ?_⟩
  rw [list_optimizePostings]
  exact hhas.lists label hlabel

end Backed

/-! ### The invariant -/

/-- An id that the generator has issued, as one of the first `n` behind `first`. -/
def Old (first : SeriesRef) (n : Nat) (id : SeriesRef) : Prop := ∃ m, m ≤ n ∧ 0 < m ∧ id.val = (first.val + m) % 2 ^ 64

theorem Old.mono {first id : SeriesRef} {n n' : Nat} (h : Old first n id) (hn : n ≤ n') : Old first n' id := by
  obtain ⟨m, hm, hpos, hid⟩ := h
  exact ⟨m, hm.trans hn, hpos, hid⟩

theorem not_old_succ {first generator : SeriesRef} {n : Nat} (hgen : generator.val = (first.val + n) % 2 ^ 64)
    (hn : n + 1 < 2 ^ 64) : (generator + 1).val = (first.val + (n + 1)) % 2 ^ 64 ∧ Old first (n + 1) (generator + 1) ∧
    ¬ Old first n (generator + 1) := by
  have hval : (generator + 1).val = (first.val + (n + 1)) % 2 ^ 64 := by
    rw [Fin.val_add, hgen]
    change ((first.val + n) % 2 ^ 64 + 1 % 2 ^ 64) % 2 ^ 64 = _
    omega
  refine ⟨hval, ⟨n + 1, le_rfl, Nat.succ_pos n, hval⟩, ?_⟩
  rintro ⟨m, hm, hpos, hid⟩
  omega

namespace Shard

variable (slotOf : KeyType → Nat)

/-- The job has the key still to index. -/
def Awaits (delayed : Nat → List KeyType) (db : Nat) (key : KeyType) : Job → Prop
  | .delayedIndexing slots dbs db' keys => slotOf key ∈ slots ∧ (db ∈ dbs ∧ key ∈ delayed db ∨ db' = db ∧ key ∈ keys)
  | .cleanup .. => False

/-- What holds of a job that waits.  An indexing job has keys of its own slots only, and none of them is
imported any more.  A cleanup has slots that are neither owned nor imported, and the ids of its batch,
where they still have a key in the first of its databases, have one in those slots. -/
def JobSound (first : SeriesRef) (n : Nat) (server : Server) (owned importing : Finset Nat) : Job → Prop
  | .delayedIndexing slots _ _ keys => Disjoint slots importing ∧ ∀ key ∈ keys, slotOf key ∈ slots
  | .cleanup slots dbs _ batch => Disjoint slots importing ∧ Disjoint slots owned ∧ ∀ id ∈ batch, Old first n id ∧
      ∀ db ∈ (dbs.getD []).head?, ∀ key, (server.indexes db).Maps id key → slotOf key ∈ slots

/-- What holds of the server alone: pairs are backed and their ids were issued. -/
structure ServerSound (first : SeriesRef) (n : Nat) (server : Server) : Prop where
  notFlushing : server.isFlushing = false
  backed : ∀ db, Backed (server.indexes db) (server.keyspaces db)
  generator : server.generator.val = (first.val + n) % 2 ^ 64
  issued : ∀ db id key, (server.indexes db).Maps id key → Old first n id

/-- What every step of a shard keeps. -/
structure Sound (first : SeriesRef) (n : Nat) (shard : Shard) : Prop where
  server : ServerSound first n shard.server
  hidden : shard.Hidden slotOf
  /-- A series that arrives with an import is queued. -/
  queued : ∀ db key series, shard.server.keyspaces db key = some (.series series) →
    slotOf key ∈ shard.importingSlots → key ∈ shard.delayed db
  /-- A series of an owned slot has a pair, or a job that will give it one. -/
  indexed : ∀ db key series, shard.server.keyspaces db key = some (.series series) → slotOf key ∈ shard.ownedSlots →
    (∃ id, (shard.server.indexes db).Maps id key) ∨ ∃ job ∈ shard.jobs, Awaits slotOf shard.delayed db key job
  disjoint : Disjoint shard.ownedSlots shard.importingSlots
  jobs : ∀ job ∈ shard.jobs, JobSound slotOf first n shard.server shard.ownedSlots shard.importingSlots job

/-! ### One key -/

/-- The servers differ at one key at most: its value, and its pairs. -/
def Touches (db : Nat) (key : KeyType) (server server' : Server) : Prop :=
  ∀ db' key', ¬ (db' = db ∧ key' = key) → server'.keyspaces db' key' = server.keyspaces db' key' ∧
    ∀ id, (server'.indexes db').Maps id key' ↔ (server.indexes db').Maps id key'

variable {slotOf} {first : SeriesRef} {n n' : Nat} {shard : Shard} {server server' : Server} {db : Nat} {key : KeyType}

theorem ServerSound.vacate (h : ServerSound first n server) (db : Nat) (key : KeyType) (value : Option Stored) :
    ServerSound first n ((server.vacate db key).setKey db key value) ∧
    Touches db key server ((server.vacate db key).setKey db key value) ∧
    (∀ id, ¬ (((server.vacate db key).setKey db key value).indexes db).Maps id key) ∧
    ((server.vacate db key).setKey db key value).keyspaces db key = value := by
  -- the index after the value has left
  obtain ⟨postings, hvacate, hmaps, hbacked⟩ : ∃ postings,
      server.vacate db key = (server.setIndex db postings).setKey db key none ∧
        (∀ id key', postings.Maps id key' ↔ (server.indexes db).Maps id key' ∧ key' ≠ key) ∧
        Backed postings (update (server.keyspaces db) key value) := by
    unfold Server.vacate
    split
    · next series hseries =>
        refine ⟨_, ?_, fun id key' => (h.backed db).maps_unlink hseries, (h.backed db).unlink hseries value⟩
        rw [Server.unlink2, h.notFlushing]
        rfl
    · next hnone =>
        have hkey : ∀ id, ¬ (server.indexes db).Maps id key := fun id hmap => by
          obtain ⟨series, hseries, -⟩ := h.backed db id key hmap
          exact hnone series hseries
        refine ⟨server.indexes db, by rw [Server.setIndex_self], fun id key' => ?_, (h.backed db).setKey hkey value⟩
        exact ⟨fun hmap => ⟨hmap, fun heq => hkey id (heq ▸ hmap)⟩, And.left⟩
  have hindex : ∀ db', ((server.vacate db key).setKey db key value).indexes db' =
      if db' = db then postings else server.indexes db' := fun db' => by
    rw [hvacate]
    by_cases hdb : db' = db
    · rw [if_pos hdb, hdb]
      exact update_self ..
    · rw [if_neg hdb]
      exact update_of_ne hdb ..
  have hspace : ∀ db', ((server.vacate db key).setKey db key value).keyspaces db' =
      if db' = db then update (server.keyspaces db) key value else server.keyspaces db' := fun db' => by
    rw [Server.keyspaces_setKey, Server.keyspaces_vacate, Server.keyspaces_setKey, Server.keyspaces_setKey, if_pos rfl,
      update_idem]
    split_ifs <;> rfl
  refine ⟨⟨?_, fun db' => ?_, ?_, fun db' id key' hmap => ?_⟩, fun db' key' hne => ⟨?_, fun id => ?_⟩, fun id => ?_, ?_⟩
  · rw [hvacate]
    exact h.notFlushing
  · rw [hindex, hspace]
    split_ifs with hdb
    · exact hbacked
    · exact h.backed db'
  · rw [hvacate]
    exact h.generator
  · rw [hindex] at hmap
    split_ifs at hmap with hdb
    · exact h.issued db id key' ((hmaps id key').mp hmap).1
    · exact h.issued db' id key' hmap
  · rw [hspace]
    split_ifs with hdb
    · rw [update_of_ne fun heq => hne ⟨hdb, heq⟩, hdb]
    · rfl
  · rw [hindex]
    split_ifs with hdb
    · rw [hmaps, hdb]
      exact ⟨And.left, fun hmap => ⟨hmap, fun heq => hne ⟨hdb, heq⟩⟩⟩
    · rfl
  · rw [hindex, if_pos rfl, hmaps]
    exact fun hmap => hmap.2 rfl
  · rw [hspace, if_pos rfl, update_self]

/-- A series is indexed under a new id, whatever the index had for its key. -/
theorem ServerSound.indexLoaded (h : ServerSound first n server) (hn : n + 1 < 2 ^ 64) {series : IndexedSeries}
    (hseries : server.keyspaces db key = some (.series series)) :
    ∃ server', Ends (fun fuel => server.indexLoaded fuel db key series) server' ∧ ServerSound first (n + 1) server' ∧
    Touches db key server server' ∧ (∃ id, (server'.indexes db).Maps id key) ∧
    ∀ id, (server'.indexes db).Maps id key → ¬ Old first n id := by
  obtain ⟨hnext, hnew, hnot⟩ := not_old_succ h.generator hn
  generalize hrem : ((server.indexes db).removeTimeseriesForKey series key).1 = postings
  have hmaps : ∀ id key', postings.Maps id key' ↔ (server.indexes db).Maps id key' ∧ key' ≠ key := fun id key' => by
    rw [← hrem]
    exact (h.backed db).maps_unlink hseries
  have hbacked : Backed postings (update (server.keyspaces db) key none) := by
    rw [← hrem]
    exact (h.backed db).unlink hseries none
  have hfree : postings.idToKey.get? (server.generator + 1) = none := by
    cases hget : postings.idToKey.get? (server.generator + 1) with
    | none => rfl
    | some owner => exact absurd (h.issued db _ owner ((hmaps _ _).mp hget).1) hnot
  generalize hidx : ({ series with id := server.generator + 1 } : IndexedSeries) = series'
  have hid : series'.id = server.generator + 1 := hidx ▸ rfl
  have hputmaps : ∀ id key', (postings.indexTimeseries series' key).Maps id key' ↔
      if id = server.generator + 1 then key = key' else postings.Maps id key' := fun id key' => by
    rw [← hid]
    exact maps_indexTimeseries
  have hkey : ∀ id, ¬ postings.Maps id key := fun id hmap => ((hmaps id key).mp hmap).2 rfl
  have hput : Backed (postings.indexTimeseries series' key)
      (update (server.keyspaces db) key (some (.series series'))) := by
    have hindex : Backed (postings.indexTimeseries series' key) (update
      (update (server.keyspaces db) key none) key (some (.series series'))) := hbacked.index hkey
    rwa [update_idem] at hindex
  refine ⟨{ server with
      keyspaces := update server.keyspaces db (update (server.keyspaces db) key (some (.series series')))
      indexes := update server.indexes db (postings.indexTimeseries series' key)
      generator := server.generator + 1 }, ?_, ⟨h.notFlushing, fun db' => ?_, hnext, fun db' id key' hmap => ?_⟩,
    fun db' key' hne => ⟨?_, fun id => ?_⟩, ⟨server.generator + 1, ?_⟩, fun id hmap => ?_⟩
  · refine Ends.last fun fuel => ?_
    have hfresh : freshId postings (fuel + 1) server.generator = some (server.generator + 1) := by
      rw [freshId, if_neg]
      rw [Postings.hasId, SortedMap.contains, hfree]
      exact Bool.false_ne_true
    simp only [Server.indexLoaded, indexLoadedSeries, hrem, hfresh, bind_eq_bind, bind_some, hidx]
  · by_cases hdb : db' = db
    · subst hdb
      simpa only [update_self] using hput
    · simpa only [update_of_ne hdb] using h.backed db'
  · by_cases hdb : db' = db
    · subst hdb
      simp only [update_self] at hmap
      rw [hputmaps] at hmap
      split_ifs at hmap with heq
      · exact heq ▸ hnew
      · exact (h.issued db' id key' ((hmaps id key').mp hmap).1).mono (Nat.le_succ n)
    · simp only [update_of_ne hdb] at hmap
      exact (h.issued db' id key' hmap).mono (Nat.le_succ n)
  · by_cases hdb : db' = db
    · subst hdb
      simp only [update_self]
      rw [update_of_ne fun heq => hne ⟨rfl, heq⟩]
    · simp only [update_of_ne hdb]
  · by_cases hdb : db' = db
    · subst hdb
      have hkey' : key' ≠ key := fun heq => hne ⟨rfl, heq⟩
      simp only [update_self]
      rw [hputmaps, hmaps]
      split_ifs with heq
      · exact ⟨fun hsame => absurd hsame.symm hkey', fun hmap => absurd (h.issued db' id key' hmap) (heq ▸ hnot)⟩
      · exact ⟨And.left, fun hmap => ⟨hmap, hkey'⟩⟩
    · simp only [update_of_ne hdb]
  · simp only [update_self]
    rw [hputmaps, if_pos rfl]
  · simp only [update_self] at hmap
    rw [hputmaps] at hmap
    split_ifs at hmap with heq
    · exact heq ▸ hnot
    · exact absurd hmap (hkey id)

/-! ### Steps -/

variable {job : Job}

theorem JobSound.mono {owned owned' importing importing' : Finset Nat}
    (h : JobSound slotOf first n server owned importing job) (hn : n ≤ n')
    (hmaps : ∀ db id key, (server'.indexes db).Maps id key → (server.indexes db).Maps id key ∨ ¬ Old first n id)
    (howned : ∀ slots, Disjoint slots importing → Disjoint slots owned → Disjoint slots owned')
    (himporting : ∀ slots, slots = job.slots → Disjoint slots importing → Disjoint slots importing') :
    JobSound slotOf first n' server' owned' importing' job := by
  cases job with
  | delayedIndexing slots dbs db keys => exact ⟨himporting slots rfl h.1, h.2⟩
  | cleanup slots dbs cursor batch =>
    refine ⟨himporting slots rfl h.1, howned slots h.1 h.2.1, fun id hid => ?_⟩
    obtain ⟨hold, hslots⟩ := h.2.2 id hid
    refine ⟨hold.mono hn, fun db hdb key hmap => ?_⟩
    exact hslots db hdb key ((hmaps db id key hmap).resolve_right fun hnew => hnew hold)

section

variable (h : Sound slotOf first n shard) (hn : n ≤ n') (hserver : ServerSound first n' server')
include h hn hserver

theorem Sound.replace (delayedKeys : SortedMap Nat (List KeyType)) (jobs : List Job)
    (hmaps : ∀ db id key, (server'.indexes db).Maps id key →
    (shard.server.indexes db).Maps id key ∨ ¬ Old first n id ∧ slotOf key ∉ shard.importingSlots)
    (hqueued : ∀ db key series, server'.keyspaces db key = some (.series series) → slotOf key ∈ shard.importingSlots →
    key ∈ (delayedKeys.get? db).getD [])
    (hidx : ∀ db key series, server'.keyspaces db key = some (.series series) → slotOf key ∈ shard.ownedSlots →
    (∃ id, (server'.indexes db).Maps id key) ∨
    ∃ job ∈ jobs, Awaits slotOf (fun db => (delayedKeys.get? db).getD []) db key job)
    (hjobs : ∀ job ∈ jobs, job ∈ shard.jobs ∨
    JobSound slotOf first n' server' shard.ownedSlots shard.importingSlots job) :
    Sound slotOf first n' { shard with server := server', delayedKeys := delayedKeys, jobs := jobs } where
  server := hserver
  hidden db id key hslot hmap := by
    rcases hmaps db id key hmap with hold | ⟨-, hnot⟩
    · exact h.hidden db id key hslot hold
    · exact hnot hslot
  queued := hqueued
  indexed := hidx
  disjoint := h.disjoint
  jobs job hjob := by
    rcases hjobs job hjob with hold | hnew
    · exact (h.jobs job hold).mono hn (fun db id key hmap => (hmaps db id key hmap).imp_right And.left)
        (fun _ _ => id) fun _ _ => id
    · exact hnew

theorem Sound.touch (htouch : Touches db key shard.server server') (delayedKeys : SortedMap Nat (List KeyType))
    (hdelayed : ∀ db' key', key' ∈ shard.delayed db' → key' ∈ (delayedKeys.get? db').getD [])
    (hnew : ∀ id, (server'.indexes db).Maps id key → ¬ Old first n id ∧ slotOf key ∉ shard.importingSlots)
    (hqueued : ∀ series, server'.keyspaces db key = some (.series series) → slotOf key ∈ shard.importingSlots →
    key ∈ (delayedKeys.get? db).getD [])
    (hidx : ∀ series, server'.keyspaces db key = some (.series series) → slotOf key ∈ shard.ownedSlots →
    ∃ id, (server'.indexes db).Maps id key) :
    Sound slotOf first n' { shard with server := server', delayedKeys := delayedKeys } := by
  refine h.replace hn hserver delayedKeys shard.jobs (fun db' id key' hmap => ?_)
    (fun db' key' series hseries hslot => ?_) (fun db' key' series hseries hslot => ?_) fun _ => .inl
  · by_cases heq : db' = db ∧ key' = key
    · obtain ⟨rfl, rfl⟩ := heq
      exact .inr (hnew id hmap)
    · exact .inl (((htouch db' key' heq).2 id).mp hmap)
  · by_cases heq : db' = db ∧ key' = key
    · obtain ⟨rfl, rfl⟩ := heq
      exact hqueued series hseries hslot
    · rw [(htouch db' key' heq).1] at hseries
      exact hdelayed db' key' (h.queued db' key' series hseries hslot)
  · by_cases heq : db' = db ∧ key' = key
    · obtain ⟨rfl, rfl⟩ := heq
      exact .inl (hidx series hseries hslot)
    · rw [(htouch db' key' heq).1] at hseries
      rcases h.indexed db' key' series hseries hslot with ⟨id, hmap⟩ | ⟨job, hjob, hawaits⟩
      · exact .inl ⟨id, ((htouch db' key' heq).2 id).mpr hmap⟩
      · refine .inr ⟨job, hjob, ?_⟩
        cases job with
        | delayedIndexing slots dbs db₁ keys =>
          exact ⟨hawaits.1, hawaits.2.imp_left fun hqueue => ⟨hqueue.1, hdelayed db' key' hqueue.2⟩⟩
        | cleanup slots dbs cursor batch => exact hawaits

end

theorem mem_addDelayedIndexingKey {db' : Nat} {key' : KeyType} : key' ∈ (shard.addDelayedIndexingKey db key).delayed
    db' ↔
    key' ∈ shard.delayed db' ∨ db' = db ∧ key' = key := by
  unfold delayed addDelayedIndexingKey
  rw [SortedMap.get?_alter]
  split_ifs with hdb
  · subst hdb
    simp
  · simp [hdb]

theorem Sound.keyLoaded (h : Sound slotOf first n shard) (hn : n + 1 < 2 ^ 64) (db : Nat) (key : KeyType)
    (value : Stored) :
    ∃ shard' n', Ends (fun fuel => shard.step slotOf fuel (.keyLoaded db key value)) shard' ∧
    Sound slotOf first n' shard' ∧ n' ≤ n + batchSize := by
  obtain ⟨hserver, htouch, hnone, hvalue⟩ := h.server.vacate db key (some value)
  unfold step handleKeyRestore
  by_cases hslot : slotOf key ∈ shard.importingSlots
  · simp only [hslot]
    refine ⟨_, n, Ends.pure _, ?_, Nat.le_add_right n _⟩
    refine h.touch le_rfl hserver htouch _ (fun db' key' hmem => mem_addDelayedIndexingKey.mpr (.inl hmem))
      (fun id hmap => absurd hmap (hnone id)) (fun _ _ _ => mem_addDelayedIndexingKey.mpr (.inr ⟨rfl, rfl⟩)) ?_
    exact fun _ _ howned => absurd hslot (Finset.disjoint_left.mp h.disjoint howned)
  · simp only [hslot]
    unfold Server.handleKeyRestore
    rw [hvalue]
    generalize (shard.server.vacate db key).setKey db key (some value) = loaded at hserver htouch hnone hvalue
    cases value with
    | other =>
      refine ⟨_, n, Ends.pure _, ?_, Nat.le_add_right n _⟩
      refine h.touch le_rfl hserver htouch _ (fun _ _ => id) (fun id hmap => absurd hmap (hnone id)) ?_ ?_
      · exact fun series hseries => by rw [hvalue] at hseries; cases hseries
      · exact fun series hseries => by rw [hvalue] at hseries; cases hseries
    | series series =>
      obtain ⟨server', hends, hserver', htouch', hidx, hnew⟩ := hserver.indexLoaded hn hvalue
      refine ⟨{ shard with server := server' }, n + 1, ?_, ?_, Nat.add_le_add_left (by decide) n⟩
      · exact hends.bind (Ends.pure _)
      · refine h.touch (Nat.le_succ n) hserver' ?_ shard.delayedKeys (fun _ _ => id)
          (fun id hmap => ⟨hnew id hmap, hslot⟩) (fun _ _ himport => absurd himport hslot) fun _ _ _ => hidx
        intro db' key' hne
        obtain ⟨hspace, hmap⟩ := htouch db' key' hne
        obtain ⟨hspace', hmap'⟩ := htouch' db' key' hne
        exact ⟨hspace'.trans hspace, fun id => (hmap' id).trans (hmap id)⟩

theorem Sound.keyDeleted (h : Sound slotOf first n shard) (db : Nat) (key : KeyType) :
    Sound slotOf first n { shard with server := shard.server.vacate db key } := by
  obtain ⟨hserver, htouch, hnone, hvalue⟩ := h.server.vacate db key none
  have hsame : (shard.server.vacate db key).setKey db key none = shard.server.vacate db key := by
    have hspace : update ((shard.server.vacate db key).keyspaces db) key none =
        (shard.server.vacate db key).keyspaces db := by
      rw [update_eq_self_iff]
      exact Server.vacate_none.symm
    rw [Server.setKey, hspace, update_eq_self]
  rw [hsame] at hserver htouch hnone hvalue
  refine h.touch le_rfl hserver htouch shard.delayedKeys (fun _ _ => id) (fun id hmap => absurd hmap (hnone id)) ?_ ?_
  · exact fun series hseries => by rw [hvalue] at hseries; cases hseries
  · exact fun series hseries => by rw [hvalue] at hseries; cases hseries

theorem setIndex_indexes (postings : Postings) (db' : Nat) : (server.setIndex db postings).indexes db' =
    if db' = db then postings else server.indexes db' := by
  by_cases hdb : db' = db
  · rw [if_pos hdb, hdb]
    exact update_self ..
  · rw [if_neg hdb]
    exact update_of_ne hdb ..

theorem Sound.setIndex (h : Sound slotOf first n shard) {postings : Postings}
    (hbacked : Backed postings (shard.server.keyspaces db))
    (hmaps : ∀ id key, postings.Maps id key → (shard.server.indexes db).Maps id key)
    (hkept : ∀ id key, slotOf key ∈ shard.ownedSlots → (shard.server.indexes db).Maps id key → postings.Maps id key) :
    Sound slotOf first n { shard with server := shard.server.setIndex db postings } := by
  have hold : ∀ db' id key, ((shard.server.setIndex db postings).indexes db').Maps id key →
      (shard.server.indexes db').Maps id key := fun db' id key hmap => by
    rw [setIndex_indexes] at hmap
    split_ifs at hmap with hdb
    · exact hdb ▸ hmaps id key hmap
    · exact hmap
  have hserver : ServerSound first n (shard.server.setIndex db postings) := by
    refine ⟨h.server.notFlushing, fun db' => ?_, h.server.generator, fun db' id key hmap => ?_⟩
    · rw [setIndex_indexes]
      split_ifs with hdb
      · exact hdb ▸ hbacked
      · exact h.server.backed db'
    · exact h.server.issued db' id key (hold db' id key hmap)
  refine h.replace le_rfl hserver shard.delayedKeys shard.jobs (fun db' id key hmap => .inl (hold db' id key hmap))
    h.queued (fun db' key series hseries hslot => ?_) fun _ => .inl
  · refine (h.indexed db' key series hseries hslot).imp_left fun ⟨id, hmap⟩ => ⟨id, ?_⟩
    rw [setIndex_indexes]
    split_ifs with hdb
    · exact hkept id key hslot (hdb ▸ hmap)
    · exact hmap

/-! ### Migrations -/

/-- What a migration event needs: a slot that an import starts for is not yet imported nor owned, has no keys and no
job; the slots of an import that ends are imported, and those of an export are not. -/
def Allowed (slotOf : KeyType → Nat) (shard : Shard) : ShardEvent → Prop
  | .migration .importStarted slots =>
    Disjoint slots shard.importingSlots ∧ Disjoint slots shard.ownedSlots ∧
      (∀ job ∈ shard.jobs, Disjoint slots job.slots) ∧
      ∀ db key, slotOf key ∈ slots → shard.server.keyspaces db key = none
  | .migration .importCompleted slots | .migration .importAborted slots => slots ⊆ shard.importingSlots
  | .migration .exportCompleted slots => Disjoint slots shard.importingSlots
  | _ => True

variable {slots : Finset Nat}

theorem mem_delayed_takeDelayedKeysInSlots {db' : Nat} {key' : KeyType} :
    key' ∈ (shard.takeDelayedKeysInSlots slotOf db slots).2.delayed db' ↔
    key' ∈ shard.delayed db' ∧ ¬ (db' = db ∧ slotOf key' ∈ slots) := by
  unfold takeDelayedKeysInSlots
  split
  · next hnone =>
      refine ⟨fun hmem => ⟨hmem, fun heq => ?_⟩, And.left⟩
      rw [delayed, heq.1, hnone] at hmem
      cases hmem
  · next keys hkeys =>
      unfold delayed
      rw [SortedMap.get?_insert]
      split_ifs with hdb
      · subst hdb
        rw [hkeys, getD_some, getD_some, mem_filter, decide_eq_true_iff]
        simp
      · simp [hdb]

theorem mem_delayed_discard {db' : Nat} {key' : KeyType} :
    key' ∈ (shard.discardDelayedKeysInSlots slotOf slots).delayed db' ↔ key' ∈ shard.delayed db' ∧
    slotOf key' ∉ slots := by
  have hfold : ∀ (dbs : List Nat) (shard : Shard),
      key' ∈ (dbs.foldl (fun shard db => (shard.takeDelayedKeysInSlots slotOf db slots).2) shard).delayed db' ↔
        key' ∈ shard.delayed db' ∧ ¬ (db' ∈ dbs ∧ slotOf key' ∈ slots) := by
    intro dbs
    induction dbs with
    | nil => simp
    | cons db dbs ih =>
      intro shard
      rw [foldl_cons, ih, mem_delayed_takeDelayedKeysInSlots, List.mem_cons]
      tauto
  rw [discardDelayedKeysInSlots, hfold]
  refine and_congr_right fun hmem => ?_
  have hdb : db' ∈ shard.delayedKeys.keys := by
    rw [SortedMap.mem_keys_iff]
    unfold delayed at hmem
    cases hget : shard.delayedKeys.get? db' with
    | none => rw [hget] at hmem; cases hmem
    | some keys => exact ⟨keys, rfl⟩
  simp [hdb]

theorem discard_frame (slots : Finset Nat) : ∃ delayedKeys,
    shard.discardDelayedKeysInSlots slotOf slots = { shard with delayedKeys := delayedKeys } := by
  unfold discardDelayedKeysInSlots
  induction shard.delayedKeys.keys generalizing shard with
  | nil => exact ⟨shard.delayedKeys, rfl⟩
  | cons db dbs ih =>
    rw [foldl_cons]
    obtain ⟨delayedKeys, htake⟩ : ∃ delayedKeys, (shard.takeDelayedKeysInSlots slotOf db slots).2 =
        { shard with delayedKeys := delayedKeys } := by
      unfold takeDelayedKeysInSlots
      split
      · exact ⟨shard.delayedKeys, rfl⟩
      · exact ⟨_, rfl⟩
    rw [htake]
    exact ih

theorem Awaits.of_delayed {delayed delayed' : Nat → List KeyType} (h : Awaits slotOf delayed db key job)
    (hdelayed : key ∈ delayed db → key ∈ delayed' db) : Awaits slotOf delayed' db key job := by
  cases job with
  | delayedIndexing slots dbs db' keys => exact ⟨h.1, h.2.imp_left fun hqueue => ⟨hqueue.1, hdelayed hqueue.2⟩⟩
  | cleanup slots dbs cursor batch => exact h

section

variable (h : Sound slotOf first n shard)
include h

theorem Sound.importStarted (hallowed : Allowed slotOf shard (.migration .importStarted slots)) :
    Sound slotOf first n { shard with importingSlots := shard.importingSlots ∪ slots } := by
  obtain ⟨-, howned, hjobs, hkeys⟩ := hallowed
  refine ⟨h.server, fun db id key hslot hmap => ?_, fun db key series hseries hslot => ?_, h.indexed,
    Finset.disjoint_union_right.mpr ⟨h.disjoint, howned.symm⟩, fun job hjob => ?_⟩
  · rcases Finset.mem_union.mp hslot with hslot | hslot
    · exact h.hidden db id key hslot hmap
    · obtain ⟨series, hseries, -⟩ := h.server.backed db id key hmap
      rw [hkeys db key hslot] at hseries
      cases hseries
  · rcases Finset.mem_union.mp hslot with hslot | hslot
    · exact h.queued db key series hseries hslot
    · rw [hkeys db key hslot] at hseries
      cases hseries
  · refine (h.jobs job hjob).mono le_rfl (fun _ _ _ => .inl) (fun _ _ => id) fun slots' hslots' hdisjoint => ?_
    subst hslots'
    exact Finset.disjoint_union_right.mpr ⟨hdisjoint, (hjobs job hjob).symm⟩

theorem Sound.importAborted (hslots : slots ⊆ shard.importingSlots) : Sound slotOf first n
    ({ shard with importingSlots := shard.importingSlots \ slots }.discardDelayedKeysInSlots slotOf slots) := by
  obtain ⟨delayedKeys, hdiscard⟩ : ∃ delayedKeys,
      { shard with importingSlots := shard.importingSlots \ slots }.discardDelayedKeysInSlots slotOf slots =
        { shard with importingSlots := shard.importingSlots \ slots, delayedKeys := delayedKeys } := discard_frame slots
  have hdelayed : ∀ db key, key ∈ shard.delayed db → slotOf key ∉ slots → key ∈ (delayedKeys.get? db).getD [] := by
    intro db key hmem hnot
    have hkept : key ∈ ({ shard with importingSlots := shard.importingSlots \ slots }.discardDelayedKeysInSlots slotOf
      slots).delayed db := mem_delayed_discard.mpr ⟨hmem, hnot⟩
    rwa [hdiscard] at hkept
  rw [hdiscard]
  refine ⟨h.server, fun db id key hslot => h.hidden db id key (Finset.mem_sdiff.mp hslot).1,
    fun db key series hseries hslot => ?_, fun db key series hseries hslot => ?_, ?_, fun job hjob => ?_⟩
  · obtain ⟨hin, hout⟩ := Finset.mem_sdiff.mp hslot
    exact hdelayed db key (h.queued db key series hseries hin) hout
  · have hnot : slotOf key ∉ slots := fun hmem => Finset.disjoint_left.mp h.disjoint hslot (hslots hmem)
    refine (h.indexed db key series hseries hslot).imp_right fun ⟨job, hjob, hawaits⟩ => ⟨job, hjob, ?_⟩
    exact hawaits.of_delayed fun hmem => hdelayed db key hmem hnot
  · exact h.disjoint.mono_right Finset.sdiff_subset
  · exact (h.jobs job hjob).mono le_rfl (fun _ _ _ => .inl) (fun _ _ => id)
      fun _ _ hdisjoint => hdisjoint.mono_right Finset.sdiff_subset

theorem Sound.importCompleted (hslots : slots ⊆ shard.importingSlots) : Sound slotOf first n ({ shard with
      ownedSlots := shard.ownedSlots ∪ slots
      importingSlots := shard.importingSlots \ slots }.processDelayedIndexing slots) := by
  refine ⟨h.server, fun db id key hslot => h.hidden db id key (Finset.mem_sdiff.mp hslot).1,
    fun db key series hseries hslot => h.queued db key series hseries (Finset.mem_sdiff.mp hslot).1,
    fun db key series hseries hslot => ?_, ?_, fun job hjob => ?_⟩
  · rcases Finset.mem_union.mp hslot with hslot | hslot
    · refine (h.indexed db key series hseries hslot).imp_right fun ⟨job, hjob, hawaits⟩ => ?_
      exact ⟨job, mem_append_left _ hjob, hawaits⟩
    · -- the keys of the import are those that the new job finds
      have hqueued := h.queued db key series hseries (hslots hslot)
      refine .inr ⟨_, mem_append_right _ mem_cons_self, hslot, .inl ⟨?_, hqueued⟩⟩
      rw [SortedMap.mem_keys_iff]
      unfold delayed at hqueued
      cases hget : shard.delayedKeys.get? db with
      | none => rw [hget] at hqueued; cases hqueued
      | some keys => exact ⟨keys, rfl⟩
  · refine Finset.disjoint_union_left.mpr ⟨h.disjoint.mono_right Finset.sdiff_subset, Finset.disjoint_sdiff⟩
  · rcases List.mem_append.mp hjob with hjob | hjob
    · exact (h.jobs job hjob).mono le_rfl (fun _ _ _ => .inl)
        (fun _ himporting howned => Finset.disjoint_union_right.mpr ⟨howned, himporting.mono_right hslots⟩)
        fun _ _ hdisjoint => hdisjoint.mono_right Finset.sdiff_subset
    · rw [mem_singleton.mp hjob]
      exact ⟨Finset.disjoint_sdiff, fun key hkey => absurd hkey not_mem_nil⟩

theorem Sound.exportCompleted (hslots : Disjoint slots shard.importingSlots) :
    Sound slotOf first n ({ shard with ownedSlots := shard.ownedSlots \ slots }.handlePostMigrationCleanup slots) := by
  refine ⟨h.server, h.hidden, h.queued, fun db key series hseries hslot => ?_,
    h.disjoint.mono_left Finset.sdiff_subset, fun job hjob => ?_⟩
  · refine (h.indexed db key series hseries (Finset.mem_sdiff.mp hslot).1).imp_right fun ⟨job, hjob, hawaits⟩ => ?_
    exact ⟨job, mem_append_left _ hjob, hawaits⟩
  · rcases List.mem_append.mp hjob with hjob | hjob
    · exact (h.jobs job hjob).mono le_rfl (fun _ _ _ => .inl)
        (fun _ _ howned => howned.mono_right Finset.sdiff_subset) fun _ _ => id
    · rw [mem_singleton.mp hjob]
      exact ⟨hslots, Finset.disjoint_sdiff, fun id hid => absurd hid not_mem_nil⟩

end

/-! ### Jobs -/

abbrev replaced (jobs : List Job) (i : Nat) (next : Option Job) : List Job := jobs.take i ++ next.toList ++
    jobs.drop (i + 1)

theorem mem_replaced {jobs : List Job} {i : Nat} {next : Option Job} (h : job ∈ replaced jobs i next) :
    job ∈ jobs ∨ job ∈ next := by
  rcases List.mem_append.mp h with hmem | hmem
  · rcases List.mem_append.mp hmem with hmem | hmem
    · exact .inl (mem_of_mem_take hmem)
    · exact .inr (mem_toList.mp hmem)
  · exact .inl (mem_of_mem_drop hmem)

theorem next_mem_replaced {jobs : List Job} {i : Nat} {next : Option Job} (h : job ∈ next) :
    job ∈ replaced jobs i next :=
  mem_append_left _ (mem_append_right _ (mem_toList.mpr h))

theorem mem_replaced_of_mem {jobs : List Job} {i : Nat} {current : Job} (hi : jobs[i]? = some current)
    (next : Option Job) (h : job ∈ jobs) : job = current ∨ job ∈ replaced jobs i next := by
  obtain ⟨hlt, hget⟩ := List.getElem?_eq_some_iff.mp hi
  rw [← List.take_append_drop i jobs, List.drop_eq_getElem_cons hlt, hget, List.mem_append, List.mem_cons] at h
  rcases h with h | rfl | h
  · exact .inr (mem_append_left _ (mem_append_left _ h))
  · exact .inl rfl
  · exact .inr (mem_append_right _ h)

theorem Sound.indexKey (h : Sound slotOf first n shard) (hn : n + 1 < 2 ^ 64) (db : Nat)
    (hslot : slotOf key ∉ shard.importingSlots) :
    ∃ server' n', Ends (fun fuel => shard.server.handleKeyRestore fuel db key) server' ∧
    Sound slotOf first n' { shard with server := server' } ∧ n' ≤ n + 1 ∧ n ≤ n' ∧ Touches db key shard.server server' ∧
    (∀ id, (server'.indexes db).Maps id key → (shard.server.indexes db).Maps id key ∨ ¬ Old first n id) ∧
    ∀ series, server'.keyspaces db key = some (.series series) → ∃ id, (server'.indexes db).Maps id key := by
  unfold Server.handleKeyRestore
  split
  · next series hseries =>
      obtain ⟨server', hends, hserver, htouch, hidx, hnew⟩ := h.server.indexLoaded hn hseries
      refine ⟨server', n + 1, hends, ?_, le_rfl, Nat.le_succ n, htouch, fun id hmap => .inr (hnew id hmap), fun _ _ =>
        hidx⟩
      exact h.touch (Nat.le_succ n) hserver htouch shard.delayedKeys (fun _ _ => id) (fun id hmap =>
        ⟨hnew id hmap, hslot⟩)
        (fun _ _ himport => absurd himport hslot) fun _ _ _ => hidx
  · next hnone =>
      refine ⟨shard.server, n, Ends.pure _, h, Nat.le_succ n, le_rfl, fun _ _ _ => ⟨rfl, fun _ => Iff.rfl⟩, fun _ =>
        .inl, ?_⟩
      exact fun series hseries => absurd hseries (hnone series)

theorem Sound.indexBatch (h : Sound slotOf first n shard) (db : Nat) (batch : List KeyType)
    (hn : n + batch.length < 2 ^ 64) (hslots : ∀ key ∈ batch, slotOf key ∉ shard.importingSlots) :
    ∃ server' n', Ends (fun fuel => indexTimeseriesInBatch fuel shard.server db batch) server' ∧
    Sound slotOf first n' { shard with server := server' } ∧ n' ≤ n + batch.length ∧ n ≤ n' ∧
    (∀ db' id key', (server'.indexes db').Maps id key' → (shard.server.indexes db').Maps id key' ∨
    ¬ Old first n id ∧ slotOf key' ∉ shard.importingSlots) ∧
    (∀ db' key', ¬ (db' = db ∧ key' ∈ batch) → server'.keyspaces db' key' = shard.server.keyspaces db' key' ∧
    ∀ id, (server'.indexes db').Maps id key' ↔ (shard.server.indexes db').Maps id key') ∧
    ∀ key ∈ batch, ∀ series, server'.keyspaces db key = some (.series series) →
    ∃ id, (server'.indexes db).Maps id key := by
  induction batch generalizing shard n with
  | nil =>
    exact ⟨shard.server, n, Ends.pure _, h, le_rfl, le_rfl, fun _ _ _ => .inl, fun _ _ _ => ⟨rfl, fun _ => Iff.rfl⟩,
      fun key hkey => absurd hkey not_mem_nil⟩
  | cons key batch ih =>
    rw [length_cons] at hn
    obtain ⟨hslot, hslots⟩ := forall_mem_cons.mp hslots
    obtain ⟨server₁, n₁, hends₁, hsound₁, hle₁, hge₁, htouch₁, hnew₁, hidx₁⟩ := h.indexKey (by omega) db hslot
    obtain ⟨server₂, n₂, hends₂, hsound₂, hle₂, hge₂, hnew₂, hframe₂, hidx₂⟩ := ih hsound₁ (by omega) hslots
    refine ⟨server₂, n₂, ?_, hsound₂, by rw [length_cons]; omega, by omega, fun db' id key' hmap => ?_,
      fun db' key' hne => ?_, fun key' hkey' series hseries => ?_⟩
    · exact hends₁.bind hends₂
    · rcases hnew₂ db' id key' hmap with hold | ⟨hnot, hslot'⟩
      · by_cases heq : db' = db ∧ key' = key
        · obtain ⟨rfl, rfl⟩ := heq
          exact (hnew₁ id hold).imp_right fun hnot => ⟨hnot, hslot⟩
        · exact .inl (((htouch₁ db' key' heq).2 id).mp hold)
      · exact .inr ⟨fun hold => hnot (hold.mono hge₁), hslot'⟩
    · rw [List.mem_cons] at hne
      have hfirst := htouch₁ db' key' fun heq => hne ⟨heq.1, .inl heq.2⟩
      have hrest := hframe₂ db' key' fun heq => hne ⟨heq.1, .inr heq.2⟩
      exact ⟨hrest.1.trans hfirst.1, fun id => (hrest.2 id).trans (hfirst.2 id)⟩
    · by_cases hmem : key' ∈ batch
      · exact hidx₂ key' hmem series hseries
      · have hrest := hframe₂ db key' fun heq => hmem heq.2
        obtain rfl := (List.mem_cons.mp hkey').resolve_right hmem
        obtain ⟨id, hmap⟩ := hidx₁ series (hrest.1 ▸ hseries)
        exact ⟨id, (hrest.2 id).mpr hmap⟩

variable {i : Nat}

variable {dbs : List Nat}

theorem Sound.takeKeys (h : Sound slotOf first n shard) {db db₀ : Nat}
    (hi : shard.jobs[i]? = some (.delayedIndexing slots (db :: dbs) db₀ [])) :
    Sound slotOf first n { (shard.takeDelayedKeysInSlots slotOf db slots).2 with
      jobs := replaced shard.jobs i
        (some (.delayedIndexing slots dbs db (shard.takeDelayedKeysInSlots slotOf db slots).1)) } := by
  have hsound := h.jobs _ (mem_of_getElem? hi)
  have hkept : ∀ {db' key'}, key' ∈ (shard.takeDelayedKeysInSlots slotOf db slots).2.delayed db' ↔
      key' ∈ shard.delayed db' ∧ ¬ (db' = db ∧ slotOf key' ∈ slots) := mem_delayed_takeDelayedKeysInSlots
  have htaken : ∀ {key'}, key' ∈ (shard.takeDelayedKeysInSlots slotOf db slots).1 ↔
      key' ∈ shard.delayed db ∧ slotOf key' ∈ slots := by
    intro key'
    unfold takeDelayedKeysInSlots delayed
    split
    · next hnone => simp [hnone]
    · next keys hkeys => simp [hkeys]
  have hframe : (shard.takeDelayedKeysInSlots slotOf db slots).2 =
      { shard with delayedKeys := (shard.takeDelayedKeysInSlots slotOf db slots).2.delayedKeys } := by
    unfold takeDelayedKeysInSlots
    split <;> rfl
  generalize shard.takeDelayedKeysInSlots slotOf db slots = taken at hkept htaken hframe
  obtain ⟨keys, taken⟩ := taken
  rw [hframe] at hkept ⊢
  generalize taken.delayedKeys = delayedKeys at hkept
  refine h.replace le_rfl h.server delayedKeys _ (fun _ _ _ => .inl) (fun db' key' series hseries hslot => ?_)
    (fun db' key' series hseries hslot => ?_) fun job hjob => ?_
  · refine hkept.mpr ⟨h.queued db' key' series hseries hslot, fun htake => ?_⟩
    exact Finset.disjoint_left.mp hsound.1 htake.2 hslot
  · refine (h.indexed db' key' series hseries hslot).imp_right fun ⟨job, hjob, hawaits⟩ => ?_
    -- a key that is taken is now in the job's hands, whichever job was to index it
    by_cases htake : (db' = db ∧ slotOf key' ∈ slots) ∧ key' ∈ shard.delayed db'
    · obtain ⟨⟨rfl, hslots⟩, hqueue⟩ := htake
      exact ⟨_, next_mem_replaced rfl, hslots, .inr ⟨rfl, htaken.mpr ⟨hqueue, hslots⟩⟩⟩
    · have hawaits' : Awaits slotOf (fun db => (delayedKeys.get? db).getD []) db' key' job :=
        hawaits.of_delayed fun hmem => hkept.mpr ⟨hmem, fun heq => htake ⟨heq, hmem⟩⟩
      rcases mem_replaced_of_mem hi _ hjob with rfl | hmem
      · refine ⟨_, next_mem_replaced rfl, hawaits'.1, ?_⟩
        rcases hawaits'.2 with ⟨hdb, hqueue⟩ | ⟨-, hnil⟩
        · rcases List.mem_cons.mp hdb with rfl | hdb
          · exact absurd ⟨⟨rfl, hawaits'.1⟩, (hkept.mp hqueue).1⟩ htake
          · exact .inl ⟨hdb, hqueue⟩
        · cases hnil
      · exact ⟨job, hmem, hawaits'⟩
  · refine (mem_replaced hjob).imp_right fun hnext => ?_
    rw [← mem_some.mp hnext]
    exact ⟨hsound.1, fun key' hkey' => (htaken.mp hkey').2⟩

theorem Sound.setJob (h : Sound slotOf first n shard) {current : Job} (hi : shard.jobs[i]? = some current)
    (next : Option Job)
    (hnext : ∀ job ∈ next, JobSound slotOf first n shard.server shard.ownedSlots shard.importingSlots job)
    (hawait : ∀ db key, Awaits slotOf shard.delayed db key current → ∃ job ∈ next, Awaits slotOf shard.delayed db key
    job) :
    Sound slotOf first n { shard with jobs := replaced shard.jobs i next } := by
  refine h.replace le_rfl h.server shard.delayedKeys _ (fun _ _ _ => .inl) h.queued
    (fun db key series hseries hslot => ?_) fun job hjob => (mem_replaced hjob).imp_right (hnext job)
  refine (h.indexed db key series hseries hslot).imp_right fun ⟨job, hjob, hawaits⟩ => ?_
  rcases mem_replaced_of_mem hi next hjob with rfl | hjob'
  · obtain ⟨job', hjob', hawaits'⟩ := hawait db key hawaits
    exact ⟨job', next_mem_replaced hjob', hawaits'⟩
  · exact ⟨job, hjob', hawaits⟩

variable {cursor : SeriesRef} {batch : List SeriesRef}

theorem JobSound.emptyBatch {server server' : Server} {ownedSlots importingSlots : Finset Nat}
    {dbs dbs' : Option (List Nat)}
    {cursor' : SeriesRef} (h : JobSound slotOf first n server ownedSlots importingSlots
    (.cleanup slots dbs cursor batch)) :
    JobSound slotOf first n server' ownedSlots importingSlots (.cleanup slots dbs' cursor' []) :=
  ⟨h.1, h.2.1, fun _ hid => absurd hid not_mem_nil⟩

section

variable (h : Sound slotOf first n shard)
include h

theorem Sound.setCleanup {dbs : Option (List Nat)} (hi : shard.jobs[i]? = some (.cleanup slots dbs cursor batch))
    (hjob : JobSound slotOf first n shard.server shard.ownedSlots shard.importingSlots job) :
    Sound slotOf first n { shard with jobs := replaced shard.jobs i (some job) } := by
  refine h.setJob hi (some job) (fun job' hjob' => ?_) fun _ _ => nofun
  rw [← mem_some.mp hjob']
  exact hjob

theorem Sound.workBatch (hn : n + batchSize < 2 ^ 64) {keys : List KeyType}
    (hi : shard.jobs[i]? = some (.delayedIndexing slots dbs db keys)) :
    ∃ server' n', Ends (fun fuel => indexTimeseriesInBatch fuel shard.server db (keys.take batchSize)) server' ∧
      Sound slotOf first n' { shard with
        server := server'
        jobs := replaced shard.jobs i (some (.delayedIndexing slots dbs db (keys.drop batchSize))) } ∧
      n' ≤ n + batchSize := by
  have hsound := h.jobs _ (mem_of_getElem? hi)
  have hlength : (keys.take batchSize).length ≤ batchSize := length_take_le _ _
  have hslots : ∀ key ∈ keys.take batchSize, slotOf key ∉ shard.importingSlots :=
    fun key hkey => Finset.disjoint_left.mp hsound.1 (hsound.2 key (mem_of_mem_take hkey))
  obtain ⟨server', n', hends, hsound', hle, hge, hnew, hframe, hidx⟩ :=
    h.indexBatch db (keys.take batchSize) (by omega) hslots
  refine ⟨server', n', hends, ?_, by omega⟩
  refine h.replace hge hsound'.server shard.delayedKeys _ hnew hsound'.queued
    (fun db' key series hseries hslot => ?_) fun job hjob => (mem_replaced hjob).imp_right fun hnext => ?_
  · rcases hsound'.indexed db' key series hseries hslot with hmap | ⟨job, hjob, hawaits⟩
    · exact .inl hmap
    · rcases mem_replaced_of_mem hi _ hjob with rfl | hjob'
      · rcases hawaits.2 with hqueue | ⟨rfl, hkey⟩
        · exact .inr ⟨_, next_mem_replaced rfl, hawaits.1, .inl hqueue⟩
        · rw [← List.take_append_drop batchSize keys, List.mem_append] at hkey
          rcases hkey with hdone | hleft
          · exact .inl (hidx key hdone series hseries)
          · exact .inr ⟨_, next_mem_replaced rfl, hawaits.1, .inr ⟨rfl, hleft⟩⟩
      · exact .inr ⟨job, hjob', hawaits⟩
  · rw [← mem_some.mp hnext]
    exact ⟨hsound.1, fun key hkey => hsound.2 key (mem_of_mem_drop hkey)⟩

/-- A cleanup reads a window of the index: the ids of its slots there belong to no other keys. -/
theorem Sound.readWindow (hsound : JobSound slotOf first n shard.server shard.ownedSlots shard.importingSlots
    (.cleanup slots (some (db :: dbs)) cursor [])) (cursor' : SeriesRef) :
    JobSound slotOf first n shard.server shard.ownedSlots shard.importingSlots
    (.cleanup slots (some (db :: dbs)) cursor'
    ((((shard.server.indexes db).idToKey.batch (some cursor) batchSize).filter
    fun entry => slotOf entry.2 ∈ slots).map Prod.fst)) := by
  refine ⟨hsound.1, hsound.2.1, fun id hid => ?_⟩
  obtain ⟨entry, hentry, rfl⟩ := mem_map.mp hid
  obtain ⟨hwindow, hslot⟩ := mem_filter.mp hentry
  have hmap : (shard.server.indexes db).Maps entry.1 entry.2 := by
    have hmem := (SortedMap.mem_ahead_iff.mp (mem_of_mem_take hwindow)).1
    exact SortedMap.get?_eq_some_iff.mpr hmem
  refine ⟨h.server.issued db _ _ hmap, fun db' hdb' key hmap' => ?_⟩
  obtain rfl : db = db' := Option.some.inj hdb'
  rw [← Option.some.inj (hmap.symm.trans hmap')]
  exact of_decide_eq_true hslot

/-- A cleanup marks what it has read, none of which is owned. -/
theorem Sound.markBatch (hi : shard.jobs[i]? = some (.cleanup slots (some (db :: dbs)) cursor batch)) :
    Sound slotOf first n { shard with
      server := shard.server.setIndex db ((shard.server.indexes db).markIdsAsStale batch)
      jobs := replaced shard.jobs i (some (.cleanup slots (some (db :: dbs)) cursor [])) } := by
  have hsound := h.jobs _ (mem_of_getElem? hi)
  have hmarked : Sound slotOf first n
      { shard with server := shard.server.setIndex db ((shard.server.indexes db).markIdsAsStale batch) } := by
    refine h.setIndex ((h.server.backed db).markIdsAsStale batch)
      (fun id key hmap => (maps_markIdsAsStale.mp hmap).2) fun id key hslot hmap => ?_
    refine maps_markIdsAsStale.mpr ⟨fun hid => ?_, hmap⟩
    exact Finset.disjoint_left.mp hsound.2.1 ((hsound.2.2 id hid).2 db rfl key hmap) hslot
  exact hmarked.setCleanup hi hsound.emptyBatch

theorem Sound.advance (hn : n + batchSize < 2 ^ 64) {current : Job} (hi : shard.jobs[i]? = some current) :
    ∃ next shard' n', Ends (fun fuel => shard.advance slotOf fuel current) (next, shard') ∧
    Sound slotOf first n' { shard' with jobs := replaced shard'.jobs i next } ∧ n' ≤ n + batchSize := by
  have hsound := h.jobs current (mem_of_getElem? hi)
  have hle : n ≤ n + batchSize := Nat.le_add_right ..
  match current with
  | .delayedIndexing slots [] db [] =>
    refine ⟨none, shard, n, Ends.pure _, h.setJob hi none (fun job hjob => by cases hjob) ?_, hle⟩
    rintro db key ⟨-, ⟨hdb, -⟩ | ⟨-, hkey⟩⟩
    · cases hdb
    · cases hkey
  | .delayedIndexing slots (db :: dbs) db₀ [] =>
    have hjobs : (shard.takeDelayedKeysInSlots slotOf db slots).2.jobs = shard.jobs := by
      unfold takeDelayedKeysInSlots
      split <;> rfl
    have htaken := h.takeKeys hi
    rw [← hjobs] at htaken
    exact ⟨_, _, n, Ends.pure _, htaken, hle⟩
  | .delayedIndexing slots dbs db (key :: keys) =>
    obtain ⟨server', n', hends, hsound', hle'⟩ := h.workBatch hn hi
    refine ⟨_, { shard with server := server' }, n', ?_, hsound', hle'⟩
    simp only [Shard.advance]
    exact hends.bind (Ends.pure _)
  | .cleanup slots none cursor batch =>
    exact ⟨_, shard, n, Ends.pure _, h.setCleanup hi hsound.emptyBatch, hle⟩
  | .cleanup slots (some []) cursor batch =>
    exact ⟨none, shard, n, Ends.pure _, h.setJob hi none (fun job hjob => by cases hjob) fun _ _ => nofun, hle⟩
  | .cleanup slots (some (db :: dbs)) cursor [] =>
    cases hlast : ((shard.server.indexes db).idToKey.batch (some cursor) batchSize).getLast? with
    | none =>
      refine ⟨some (.cleanup slots (some dbs) 0 []), shard, n, ?_, h.setCleanup hi hsound.emptyBatch, hle⟩
      simp only [Shard.advance, hlast]
      exact Ends.pure _
    | some last =>
      refine ⟨_, shard, n, ?_, h.setCleanup hi (h.readWindow hsound (last.1 + 1)), hle⟩
      simp only [Shard.advance, hlast]
      exact Ends.pure _
  | .cleanup slots (some (db :: dbs)) cursor (id :: batch) =>
    exact ⟨_, { shard with server := shard.server.setIndex db ((shard.server.indexes db).markIdsAsStale (id :: batch))
      },
      n, Ends.pure _, h.markBatch hi, hle⟩

theorem Sound.work (hn : n + batchSize < 2 ^ 64) (i : Nat) :
    ∃ shard' n', Ends (fun fuel => shard.work slotOf fuel i) shard' ∧ Sound slotOf first n' shard' ∧
    n' ≤ n + batchSize := by
  unfold Shard.work
  cases hi : shard.jobs[i]? with
  | none => exact ⟨shard, n, Ends.pure _, h, Nat.le_add_right ..⟩
  | some current =>
    obtain ⟨next, shard', n', hends, hsound, hle⟩ := h.advance hn hi
    exact ⟨_, n', hends.bind (Ends.pure _), hsound, hle⟩

/-! ### Runs -/

theorem Sound.step (hn : n + batchSize < 2 ^ 64) {event : ShardEvent} (hallowed : Allowed slotOf shard event) :
    ∃ shard' n', Ends (fun fuel => shard.step slotOf fuel event) shard' ∧ Sound slotOf first n' shard' ∧
    n' ≤ n + batchSize := by
  have hle : n ≤ n + batchSize := Nat.le_add_right ..
  cases event with
  | migration event slots =>
    cases event with
    | importStarted => exact ⟨_, n, Ends.pure _, h.importStarted hallowed, hle⟩
    | importAborted => exact ⟨_, n, Ends.pure _, h.importAborted hallowed, hle⟩
    | importCompleted => exact ⟨_, n, Ends.pure _, h.importCompleted hallowed, hle⟩
    | exportCompleted => exact ⟨_, n, Ends.pure _, h.exportCompleted hallowed, hle⟩
  | keyLoaded db key value =>
    have hone : n + 1 < 2 ^ 64 := by
      have hpos : 1 ≤ batchSize := by decide
      omega
    exact h.keyLoaded hone db key value
  | keyDeleted db key => exact ⟨_, n, Ends.pure _, h.keyDeleted db key, hle⟩
  | work i => exact h.work hn i
  | removeStaleIds db start count =>
    refine ⟨_, n, Ends.pure _, h.setIndex ((h.server.backed db).removeStaleIds start count) ?_ ?_, hle⟩
    · exact fun id key hmap => Backed.maps_removeStaleIds.mp hmap
    · exact fun id key _ hmap => Backed.maps_removeStaleIds.mpr hmap
  | optimizePostings db start count =>
    exact ⟨_, n, Ends.pure _, h.setIndex ((h.server.backed db).optimizePostings start count) (fun _ _ => id)
      fun _ _ _ => id, hle⟩

end

def AllowedRun (slotOf : KeyType → Nat) (shard : Shard) : List ShardEvent → Prop
  | [] => True
  | event :: events => Allowed slotOf shard event ∧
      ∀ shard', Ends (fun fuel => shard.step slotOf fuel event) shard' → AllowedRun slotOf shard' events

theorem Sound.run (h : Sound slotOf first n shard) (events : List ShardEvent)
    (hn : n + batchSize * events.length < 2 ^ 64)
    (hallowed : AllowedRun slotOf shard events) :
    ∃ shard' n', Ends (fun fuel => shard.run slotOf fuel events) shard' ∧ Sound slotOf first n' shard' := by
  induction events generalizing shard n with
  | nil => exact ⟨shard, n, Ends.pure _, h⟩
  | cons event events ih =>
    rw [length_cons, Nat.mul_succ] at hn
    obtain ⟨shard₁, n₁, hends₁, hsound₁, hle₁⟩ := h.step (by omega) hallowed.1
    obtain ⟨shard₂, n₂, hends₂, hsound₂⟩ := ih hsound₁ (by omega) (hallowed.2 shard₁ hends₁)
    refine ⟨shard₂, n₂, ?_, hsound₂⟩
    exact hends₁.bind hends₂

def Indexed (slotOf : KeyType → Nat) (shard : Shard) : Prop :=
  ∀ db key series, shard.server.keyspaces db key = some (.series series) → slotOf key ∈ shard.ownedSlots →
    (shard.server.indexes db).Has series key ∧ ∀ id, (shard.server.indexes db).Maps id key → id = series.id

theorem Sound.indexed_of_no_jobs (h : Sound slotOf first n shard) (hjobs : shard.jobs = []) : Indexed slotOf shard := by
  intro db key series hseries hslot
  have hid : ∀ id, (shard.server.indexes db).Maps id key → id = series.id := fun _ => (h.server.backed db).id_eq hseries
  rcases h.indexed db key series hseries hslot with ⟨id, hmap⟩ | ⟨job, hjob, -⟩
  · obtain ⟨series', hseries', -, hhas⟩ := h.server.backed db id key hmap
    obtain rfl := Stored.series.inj (Option.some.inj (hseries.symm.trans hseries'))
    exact ⟨hhas, hid⟩
  · rw [hjobs] at hjob
    cases hjob

theorem sound_start (generator : SeriesRef) (dbs : List Nat) (ownedSlots : Finset Nat) :
    Sound slotOf generator 0 (start generator dbs ownedSlots) := by
  refine ⟨⟨rfl, fun db id key hmap => ?_, (Nat.mod_eq_of_lt generator.isLt).symm, fun db id key hmap => ?_⟩,
    fun db id key hslot hmap => ?_, fun db key series hseries => ?_, fun db key series hseries => ?_,
    Finset.disjoint_empty_right _, fun job hjob => ?_⟩
  · cases hmap
  · cases hmap
  · cases hmap
  · cases hseries
  · cases hseries
  · cases hjob

/-- Whatever the order of events and of the jobs' steps: no key of a slot that is imported is visible, and when no job
is pending every series of a slot owned is in the index under one live id. -/
theorem slotMigration_keeps_index (slotOf : KeyType → Nat) (generator : SeriesRef) (dbs : List Nat)
    (ownedSlots : Finset Nat) (events : List ShardEvent) (hlength : events.length < 2 ^ 56)
    (hallowed : AllowedRun slotOf (start generator dbs ownedSlots) events) :
    ∃ shard, Ends (fun fuel => (start generator dbs ownedSlots).run slotOf fuel events) shard ∧ shard.Hidden slotOf ∧
      (shard.jobs = [] → Indexed slotOf shard) := by
  obtain ⟨shard, n, hends, hsound⟩ := (sound_start generator dbs ownedSlots).run events
    (by unfold batchSize; omega) hallowed
  exact ⟨shard, hends, hsound.hidden, hsound.indexed_of_no_jobs⟩

/-- A key comes in with its slot, and is indexed when the import completes. -/
def imported : List ShardEvent :=
  let slots : Finset Nat := {calculateHashSlot [0x78]}
  [.migration .importStarted slots, .keyLoaded 0 [0x78] (.series ⟨0, []⟩), .migration .importCompleted slots, .work 0,
    .work 0,
    .work 0]

theorem slotMigration_keeps_index_imported : AllowedRun calculateHashSlot (start 0 [0] ∅) imported ∧
    ∃ shard, Ends (fun fuel => (start 0 [0] ∅).run calculateHashSlot fuel imported) shard ∧
    shard.Hidden calculateHashSlot ∧
      (shard.jobs = [] → Indexed calculateHashSlot shard) := by
  have hallowed : AllowedRun calculateHashSlot (start 0 [0] ∅) imported := by
    refine ⟨⟨Finset.disjoint_empty_right _, Finset.disjoint_empty_right _, nofun, fun _ _ _ => rfl⟩, fun shard₁ h₁ =>
      ?_⟩
    obtain rfl := h₁.unique (Ends.pure _)
    refine ⟨trivial, fun shard₂ h₂ => ?_⟩
    obtain rfl := h₂.unique (Ends.pure _)
    exact ⟨Finset.subset_union_right, fun _ _ =>
      ⟨trivial, fun _ _ => ⟨trivial, fun _ _ => ⟨trivial, fun _ _ => trivial⟩⟩⟩⟩
  exact ⟨hallowed, slotMigration_keeps_index _ _ _ _ _ (by decide) hallowed⟩

/-- A slot goes and comes back before the cleanup of its export has run. -/
def reimported : List ShardEvent :=
  let slots : Finset Nat := {calculateHashSlot [0x78]}
  let loaded := ShardEvent.keyLoaded 0 [0x78] (.series ⟨0, []⟩)
  [loaded, .migration .exportCompleted slots, .keyDeleted 0 [0x78], .migration .importStarted slots, loaded,
    .migration .importCompleted slots, .work 1, .work 1, .work 1, .work 0, .work 0, .work 0, .work 0, .work 0]

/-- The late cleanup retires the series that came back: no job is left and it is not in the index. -/
theorem late_cleanup_unindexes_reimport : ∃ shard,
    Ends (fun fuel => (start 0 [0] {calculateHashSlot [0x78]}).run calculateHashSlot fuel reimported) shard ∧
      shard.jobs = [] ∧ ¬ Indexed calculateHashSlot shard := by
  let last := ((start 0 [0] {calculateHashSlot [0x78]}).run calculateHashSlot 4 reimported).getD (start 0 [] ∅)
  refine ⟨last, ⟨4, fun fuel hfuel => ?_⟩, eq_nil_of_length_eq_zero (by decide +kernel), fun hidx => ?_⟩
  · obtain ⟨k, rfl⟩ : ∃ k, fuel = k + 4 := ⟨fuel - 4, by omega⟩
    rfl
  · have hhas := (hidx 0 [0x78] ⟨2, []⟩ (by decide +kernel) (by decide +kernel)).1
    have hmap : (last.server.indexes 0).Maps 2 [0x78] := hhas.maps
    revert hmap
    decide +kernel

end Shard

end ValkeyTimeSeries
