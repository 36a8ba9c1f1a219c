/-
Index/ServerEvents.lean

How the index follows the keyspace (`series/index/server_events.rs`, the callbacks of `series_data_type.rs`
and `create_series` of `series/utils.rs`).

Design.  A `Change` is a command of the server, as far as it moves values: it calls `unlink2` when a series
leaves a key, but not in a flush, and then sends its notifications, which the handlers of the module answer.
The handlers remember one half of a rename or a move in the state.  Ids come from a 64-bit generator that
wraps.

The argument: between changes every index agrees with its keyspace.  In a change it agrees with the keyspace
but for the key that a value has come to, and the handler of the last notification makes up for that.  A
rename from the key with the empty name is the exception: the handler takes the name it remembers for none.
-/
import ValkeyTimeSeries.Index.Agreement
import ValkeyTimeSeries.Index.Drain

namespace ValkeyTimeSeries

open Function

/-! ### The module -/

structure Server where
  keyspaces : Nat → Keyspace
  /-- `TIMESERIES_INDEX`; a database without an entry has an empty index. -/
  indexes : Nat → Postings
  /-- The last id that was issued. -/
  generator : SeriesRef
  /-- `RENAME_FROM_KEY`. -/
  renameFromKey : KeyType
  /-- `MOVE_FROM_DB`, which is -1 for none. -/
  moveFromDb : Option Nat
  /-- `IS_FLUSHING`. -/
  isFlushing : Bool

/-- `posting_id_by_labels`: the one id that has all the labels. -/
def Postings.postingIdByLabels (self : Postings) : List Label → Option SeriesRef
  | [] => none
  | first :: labels => do
      let acc ← self.labelIndex.get? (.forLabelValue first.name first.value)
      let acc ← labels.foldlM (fun acc label => do
        let bitmap ← self.labelIndex.get? (.forLabelValue label.name label.value)
        if acc ∩ bitmap = ∅ then none else some (acc ∩ bitmap)) acc
      let acc := self.staleIds.mask acc
      if acc.card = 1 then acc.ids.head? else none

def Postings.reindexTimeseries (self : Postings) (series : IndexedSeries) (oldKey newKey : KeyType) : Postings :=
  (self.removeTimeseriesForKey series oldKey).1.indexTimeseries series newKey

inductive KeyEvent where
  | moveFrom
  | moveTo
  | renameFrom
  | renameTo
  | restore
  | copyTo
deriving DecidableEq, Repr

inductive FlushSubevent where
  | started
  | ended
deriving DecidableEq, Repr

namespace Server

def setKey (self : Server) (db : Nat) (key : KeyType) (value : Option Stored) : Server :=
  { self with keyspaces := update self.keyspaces db (update (self.keyspaces db) key value) }

def setIndex (self : Server) (db : Nat) (postings : Postings) : Server :=
  { self with indexes := update self.indexes db postings }

def nextTimeseriesId (self : Server) : SeriesRef × Server :=
  (self.generator + 1, { self with generator := self.generator + 1 })

def unlink2 (self : Server) (db : Nat) (key : KeyType) (series : IndexedSeries) : Server :=
  if self.isFlushing then self else self.setIndex db ((self.indexes db).removeTimeseriesForKey series key).1

def copyValue (self : Server) : Stored → Stored × Server
  | .series series =>
    let (id, self) := self.nextTimeseriesId
    (.series { series with id }, self)
  | .other => (.other, self)

def indexLoaded (fuel : Nat) (self : Server) (db : Nat) (key : KeyType) (series : IndexedSeries) : Option Server := do
  let repair ← indexLoadedSeries fuel ⟨self.indexes db, self.keyspaces db, self.generator⟩ series key
  some
    { self with
      keyspaces := update self.keyspaces db repair.keyspace
      indexes := update self.indexes db repair.postings
      generator := repair.generator }

def handleKeyMove (fuel : Nat) (self : Server) (db : Nat) (key : KeyType) (oldDb : Nat) : Option Server :=
  match self.keyspaces db key with
  | some (.series series) =>
    let self := self.setIndex oldDb ((self.indexes oldDb).removeTimeseriesForKey series key).1
    self.indexLoaded fuel db key series
  | _ => some self

/-- The partners of compaction rules, which are linked anew, are no part of the index. -/
def handleKeyRename (self : Server) (db : Nat) (oldKey newKey : KeyType) : Server :=
  match self.keyspaces db newKey with
  | some (.series series) => self.setIndex db ((self.indexes db).reindexTimeseries series oldKey newKey)
  | _ => self

/-- `index_series_by_key`, which is all that `handle_key_restore` does outside a load and a slot import. -/
def handleKeyRestore (fuel : Nat) (self : Server) (db : Nat) (key : KeyType) : Option Server :=
  match self.keyspaces db key with
  | some (.series series) => self.indexLoaded fuel db key series
  | _ => some self

def handleKeyCopy (fuel : Nat) (self : Server) (db : Nat) (key : KeyType) : Option Server :=
  match self.keyspaces db key with
  | some (.series series) => self.indexLoaded fuel db key series
  | _ => some self

def genericKeyEventsHandler (fuel : Nat) (self : Server) (event : KeyEvent) (db : Nat) (key : KeyType) :
    Option Server :=
  match event with
  | .moveFrom => some { self with moveFromDb := some db }
  | .moveTo =>
    match self.moveFromDb with
    | some oldDb => { self with moveFromDb := none }.handleKeyMove fuel db key oldDb
    | none => some self
  | .renameFrom => some { self with renameFromKey := key }
  | .renameTo =>
    if self.renameFromKey ≠ [] then
      some { self.handleKeyRename db self.renameFromKey key with renameFromKey := [] }
    else some self
  | .restore => self.handleKeyRestore fuel db key
  | .copyTo => self.handleKeyCopy fuel db key

/-- `on_flush_event`; no database is all of them. -/
def onFlushEvent (self : Server) (subevent : FlushSubevent) (db : Option Nat) : Server :=
  match subevent with
  | .started => { self with isFlushing := true }
  | .ended =>
    match db with
    | none => { self with indexes := fun _ => .default, isFlushing := false }
    | some db => { self.setIndex db .default with isFlushing := false }

def swapTimeseriesIndexDbs (self : Server) (db db' : Nat) : Server :=
  { self with indexes := self.indexes ∘ Equiv.swap db db' }

def createSeries (self : Server) (db : Nat) (key : KeyType) (labels : List Label) : Server :=
  let (id, self) := self.nextTimeseriesId
  if labels.any (·.name = metricNameLabel) ∧ ((self.indexes db).postingIdByLabels labels).isSome then self
  else
    let ts : IndexedSeries := ⟨id, labels⟩
    (self.setIndex db ((self.indexes db).indexTimeseries ts key)).setKey db key (some (.series ts))

end Server

/-! ### The server -/

inductive Change where
  /-- A series is created, by `TS.CREATE` or by a write to a key that does not exist. -/
  | create (db : Nat) (key : KeyType) (labels : List Label)
  /-- A key is deleted, or expires. -/
  | delete (db : Nat) (key : KeyType)
  /-- A value of another type is set. -/
  | overwrite (db : Nat) (key : KeyType)
  | rename (db : Nat) (key newKey : KeyType)
  | move (key : KeyType) (db newDb : Nat)
  | copy (db : Nat) (key : KeyType) (newDb : Nat) (newKey : KeyType) (replace : Bool)
  | restore (db : Nat) (key : KeyType) (value : Stored) (replace : Bool)
  | swapDb (db db' : Nat)
  | flushDb (db : Nat)
  | flushAll
deriving DecidableEq

namespace Server

def vacate (self : Server) (db : Nat) (key : KeyType) : Server :=
  match self.keyspaces db key with
  | some (.series series) => (self.unlink2 db key series).setKey db key none
  | _ => self.setKey db key none

def renameKey (fuel : Nat) (self : Server) (db : Nat) (key newKey : KeyType) : Option Server :=
  match self.keyspaces db key with
  | none => some self
  | some value =>
    if key = newKey then some self
    else do
      let self := ((self.vacate db newKey).vacate db key).setKey db newKey (some value)
      let self ← self.genericKeyEventsHandler fuel .renameFrom db key
      self.genericKeyEventsHandler fuel .renameTo db newKey

def moveKey (fuel : Nat) (self : Server) (key : KeyType) (db newDb : Nat) : Option Server :=
  match self.keyspaces db key with
  | none => some self
  | some value =>
    if db = newDb ∨ (self.keyspaces newDb key).isSome then some self
    else do
      let self := (self.vacate db key).setKey newDb key (some value)
      let self ← self.genericKeyEventsHandler fuel .moveFrom db key
      self.genericKeyEventsHandler fuel .moveTo newDb key

def copyKey (fuel : Nat) (self : Server) (db : Nat) (key : KeyType) (newDb : Nat) (newKey : KeyType) (replace : Bool) :
    Option Server :=
  match self.keyspaces db key with
  | none => some self
  | some value =>
    if (db = newDb ∧ key = newKey) ∨ ((self.keyspaces newDb newKey).isSome ∧ replace = false) then some self
    else
      let (value, self) := self.copyValue value
      ((self.vacate newDb newKey).setKey newDb newKey (some value)).genericKeyEventsHandler fuel .copyTo newDb newKey

def restoreKey (fuel : Nat) (self : Server) (db : Nat) (key : KeyType) (value : Stored) (replace : Bool) :
    Option Server :=
  if (self.keyspaces db key).isSome ∧ replace = false then some self
  else ((self.vacate db key).setKey db key (some value)).genericKeyEventsHandler fuel .restore db key

def swapDbs (self : Server) (db db' : Nat) : Server :=
  { self with keyspaces := self.keyspaces ∘ Equiv.swap db db' }.swapTimeseriesIndexDbs db db'

def flush (self : Server) (db : Option Nat) : Server :=
  let self := self.onFlushEvent .started db
  { self with keyspaces := fun db' => if db = none ∨ db = some db' then fun _ =>
    none else self.keyspaces db' }.onFlushEvent
    .ended db

def apply (fuel : Nat) (self : Server) : Change → Option Server
  | .create db key labels => some (if (self.keyspaces db key).isSome then self else self.createSeries db key labels)
  | .delete db key => some (self.vacate db key)
  | .overwrite db key => some ((self.vacate db key).setKey db key (some .other))
  | .rename db key newKey => self.renameKey fuel db key newKey
  | .move key db newDb => self.moveKey fuel key db newDb
  | .copy db key newDb newKey replace => self.copyKey fuel db key newDb newKey replace
  | .restore db key value replace => self.restoreKey fuel db key value replace
  | .swapDb db db' => some (self.swapDbs db db')
  | .flushDb db => some (self.flush (some db))
  | .flushAll => some (self.flush none)

def run (fuel : Nat) (self : Server) (changes : List Change) : Option Server := changes.foldlM (apply fuel) self

def start (generator : SeriesRef) : Server := ⟨fun _ _ => none, fun _ => .default, generator, [], none, false⟩

/-- Between two changes: every index agrees with its keyspace, and nothing is remembered. -/
structure Settled (server : Server) : Prop where
  agrees : ∀ db, Agrees (server.indexes db) (server.keyspaces db)
  notFlushing : server.isFlushing = false
  noRename : server.renameFromKey = []
  noMove : server.moveFromDb = none

/-- The generator has issued the ids up to the `n`-th behind `first`, and all ids in the keyspaces are among them. -/
structure Issued (first : SeriesRef) (n : Nat) (server : Server) : Prop where
  generator : server.generator.val = (first.val + n) % 2 ^ 64
  ids : ∀ db id key, (server.keyspaces db).Carries id key → ∃ m, m ≤ n ∧ 0 < m ∧ id.val = (first.val + m) % 2 ^ 64

section

variable {self : Server} {db : Nat} {key : KeyType} {first : SeriesRef} {n : Nat}

/-! ### Keys that come and go -/

theorem keyspaces_setKey (value : Option Stored) (db' : Nat) : (self.setKey db key value).keyspaces db' =
    if db' = db then update (self.keyspaces db) key value else self.keyspaces db' := by
  by_cases hdb : db' = db
  · rw [if_pos hdb, hdb]
    exact update_self ..
  · rw [if_neg hdb]
    exact update_of_ne hdb ..

theorem keyspaces_vacate : (self.vacate db key).keyspaces = (self.setKey db key none).keyspaces := by
  unfold vacate
  split
  · unfold unlink2
    split_ifs <;> rfl
  · rfl

theorem generator_vacate : (self.vacate db key).generator = self.generator := by
  unfold vacate
  split
  · unfold unlink2
    split_ifs <;> rfl
  · rfl

theorem vacate_none : (self.vacate db key).keyspaces db key = none := by
  rw [keyspaces_vacate, keyspaces_setKey, if_pos rfl, update_self]

theorem vacate_other {db' : Nat} {key' : KeyType} (h : db' ≠ db ∨ key' ≠ key) :
    (self.vacate db key).keyspaces db' key' = self.keyspaces db' key' := by
  rw [keyspaces_vacate, keyspaces_setKey]
  split_ifs with hdb
  · subst hdb
    exact update_of_ne (h.resolve_left fun hne => hne rfl) ..
  · rfl

theorem Settled.setKey (h : Settled self) {value : Option Stored}
    (hold : ∀ series, self.keyspaces db key ≠ some (.series series)) (hnew : ∀ series, value ≠ some (.series series)) :
    Settled (self.setKey db key value) := by
  refine ⟨fun db' => ?_, h.notFlushing, h.noRename, h.noMove⟩
  rw [keyspaces_setKey]
  split_ifs with hdb
  · subst hdb
    refine (h.agrees db').congr fun key' series => ?_
    by_cases hkey : key' = key
    · subst hkey
      rw [update_self]
      exact ⟨fun heq => absurd heq (hnew series), fun heq => absurd heq (hold series)⟩
    · rw [update_of_ne hkey]
  · exact h.agrees db'

theorem Settled.vacate (h : Settled self) (db : Nat) (key : KeyType) : Settled (self.vacate db key) := by
  unfold Server.vacate
  split
  · next series hseries =>
      have hunlink : self.unlink2 db key series =
          self.setIndex db ((self.indexes db).removeTimeseriesForKey series key).1 := by
        rw [unlink2, h.notFlushing]
        rfl
      rw [hunlink]
      refine ⟨fun db' => ?_, h.notFlushing, h.noRename, h.noMove⟩
      by_cases hdb : db' = db
      · subst hdb
        have hagrees := (h.agrees db').retire hseries
        simpa only [setIndex, Server.setKey, update_self] using hagrees
      · simpa only [setIndex, Server.setKey, update_of_ne hdb] using h.agrees db'
  · next hnone => exact h.setKey hnone nofun

section

variable (h : Issued first n self)
include h

theorem Issued.mono {n' : Nat} {self' : Server} (hgen : self'.generator.val = (first.val + n') % 2 ^ 64) (hn : n ≤ n')
    (hids : ∀ db id key, (self'.keyspaces db).Carries id key →
    (∃ db key, (self.keyspaces db).Carries id key) ∨ id = self'.generator ∧ n < n') : Issued first n' self' := by
  refine ⟨hgen, fun db id key hcarry => ?_⟩
  rcases hids db id key hcarry with ⟨db', key', hold⟩ | ⟨rfl, hlt⟩
  · obtain ⟨m, hm, hpos, hid⟩ := h.ids db' id key' hold
    exact ⟨m, hm.trans hn, hpos, hid⟩
  · exact ⟨n', le_rfl, by omega, hgen⟩

theorem Issued.vacate (db : Nat) (key : KeyType) : Issued first n (self.vacate db key) := by
  refine h.mono (by rw [generator_vacate]; exact h.generator) le_rfl fun db' id key' hcarry => .inl ?_
  rw [keyspaces_vacate, keyspaces_setKey] at hcarry
  split_ifs at hcarry with hdb
  · exact ⟨db, key', (Agrees.carries_update_none _ _).mp hcarry |>.2⟩
  · exact ⟨db', key', hcarry⟩

theorem val_succ_generator : (self.generator + 1).val = (first.val + (n + 1)) % 2 ^ 64 := by
  have hg := h.generator
  rw [Fin.val_add, hg]
  change ((first.val + n) % 2 ^ 64 + 1 % 2 ^ 64) % 2 ^ 64 = _
  omega

theorem Issued.free (hn : n + 1 < 2 ^ 64) (db : Nat) (key : KeyType) :
    ¬ (self.keyspaces db).Carries (self.generator + 1) key := by
  intro hcarry
  obtain ⟨m, hm, hpos, hid⟩ := h.ids db _ key hcarry
  rw [val_succ_generator h] at hid
  omega

end

/-! ### A series that is indexed -/

def arrive (self : Server) (db : Nat) (key : KeyType) (series : IndexedSeries) : Server :=
  { (self.setIndex db ((self.indexes db).indexTimeseries { series with id := self.generator + 1 } key)).setKey db key
      (some (.series { series with id := self.generator + 1 })) with generator := self.generator + 1 }

section

variable (h : Settled self) (hkey : ∀ s, self.keyspaces db key ≠ some (.series s))
include h hkey

theorem Settled.put (series : IndexedSeries) (hfree : ∀ key', ¬ (self.keyspaces db).Carries series.id key') :
    Settled ((self.setIndex db ((self.indexes db).indexTimeseries series key)).setKey db key (some (.series series)))
    := by
  refine ⟨fun db' => ?_, h.notFlushing, h.noRename, h.noMove⟩
  by_cases hdb : db' = db
  · subst hdb
    simpa only [setIndex, Server.setKey, update_self] using (h.agrees db').add hkey hfree
  · simpa only [setIndex, Server.setKey, update_of_ne hdb] using h.agrees db'

theorem Settled.arrive (series : IndexedSeries)
    (hfree : ∀ key', ¬ (self.keyspaces db).Carries (self.generator + 1) key') :
    Settled (self.arrive db key series) := by
  have hput := h.put hkey { series with id := self.generator + 1 } hfree
  exact ⟨hput.agrees, hput.notFlushing, hput.noRename, hput.noMove⟩

end

theorem Issued.arrive (h : Issued first n self) (db : Nat) (key : KeyType) (series : IndexedSeries) :
    Issued first (n + 1) (self.arrive db key series) := by
  refine h.mono (val_succ_generator h) (Nat.le_succ n) fun db' id key' hcarry => ?_
  by_cases hdb : db' = db
  · subst hdb
    have hupdate : (self.arrive db' key series).keyspaces db' =
        update (self.keyspaces db') key (some (.series { series with id := self.generator + 1 })) :=
      update_self ..
    rw [hupdate] at hcarry
    rcases (Agrees.carries_update_series ..).mp hcarry with ⟨-, rfl⟩ | ⟨-, hold⟩
    · exact .inr ⟨rfl, Nat.lt_succ_self n⟩
    · exact .inl ⟨db', key', hold⟩
  · have hsame : (self.arrive db key series).keyspaces db' = self.keyspaces db' := update_of_ne hdb ..
    rw [hsame] at hcarry
    exact .inl ⟨db', key', hcarry⟩

/-- A series that has come to a free key is indexed under the next id, whatever id it came with. -/
theorem indexLoaded_ends (h : Settled self) (hissued : Issued first n self) (hn : n + 1 < 2 ^ 64)
    (hkey : self.keyspaces db key = none) (series : IndexedSeries) :
    Ends (fun fuel => (self.setKey db key (some (.series series))).indexLoaded fuel db key series)
    (self.arrive db key series) := by
  have hmaps := (h.agrees db).not_maps_of_vacant hkey series.id
  have hid : (self.indexes db).hasId (self.generator + 1) = false := by
    unfold Postings.hasId SortedMap.contains
    cases hget : (self.indexes db).idToKey.get? (self.generator + 1) with
    | none => rfl
    | some owner => exact absurd (((h.agrees db).pairs _ owner).mp hget) (hissued.free hn db owner)
  refine Ends.last fun fuel => ?_
  have hfresh : freshId (self.indexes db) (fuel + 1) self.generator = some (self.generator + 1) := by
    rw [freshId, hid]
    rfl
  have hspace : (self.setKey db key (some (.series series))).keyspaces db =
      update (self.keyspaces db) key (some (.series series)) := update_self ..
  unfold indexLoaded indexLoadedSeries
  have hremove : ((self.setKey db key (some (.series series))).indexes db).removeTimeseriesForKey series key =
      ((self.indexes db).removeTimeseriesForKey series key) := rfl
  have hgen : (self.setKey db key (some (.series series))).generator = self.generator := rfl
  simp only [hremove, Agrees.removeTimeseriesForKey_of_not_maps hmaps, hgen, hfresh, hspace, Option.bind_eq_bind,
    Option.bind_some]
  simp only [Server.arrive, setIndex, setKey, update_idem]

theorem setIndex_self (self : Server) (db : Nat) : self.setIndex db (self.indexes db) = self := by
  unfold setIndex
  rw [update_eq_self]

/-! ### One change -/

/-- What a change leads to: the indexes agree again, and it has drawn two ids at most. -/
def Leads (first : SeriesRef) (n : Nat) (p : Nat → Option Server) : Prop :=
  ∃ server' n', Ends p server' ∧ Settled server' ∧ Issued first n' server' ∧ n' ≤ n + 2

theorem Leads.stay (h : Settled self) (hissued : Issued first n self) : Leads first n fun _ => some self :=
  ⟨self, n, Ends.pure self, h, hissued, Nat.le_add_right n 2⟩

theorem Settled.draw (h : Settled self) : Settled self.nextTimeseriesId.2 :=
  ⟨h.agrees, h.notFlushing, h.noRename, h.noMove⟩

theorem Issued.draw (h : Issued first n self) : Issued first (n + 1) self.nextTimeseriesId.2 :=
  h.mono (val_succ_generator h) (Nat.le_succ n) fun db _ key hcarry => .inl ⟨db, key, hcarry⟩

theorem Issued.setKey_other (h : Issued first n self) (db : Nat) (key : KeyType) :
    Issued first n (self.setKey db key (some .other)) := by
  refine h.mono h.generator le_rfl fun db' _ key' hcarry => .inl ?_
  rw [keyspaces_setKey] at hcarry
  split_ifs at hcarry with hdb
  · by_cases hkey : key' = key
    · rw [hkey, Keyspace.Carries, update_self] at hcarry
      cases hcarry
    · rw [Keyspace.Carries, update_of_ne hkey] at hcarry
      exact ⟨db, key', hcarry⟩
  · exact ⟨db', key', hcarry⟩

theorem leads_handleKeyRestore (h : Settled self) (hissued : Issued first n self) (hn : n + 1 < 2 ^ 64)
    (hkey : self.keyspaces db key = none) (value : Stored) :
    ∃ server', Ends (fun fuel => (self.setKey db key (some value)).handleKeyRestore fuel db key) server' ∧
    Settled server' ∧ ∃ n', Issued first n' server' ∧ n' ≤ n + 1 := by
  have hvalue : (self.setKey db key (some value)).keyspaces db key = some value := by
    rw [keyspaces_setKey, if_pos rfl, update_self]
  have hold : ∀ s, self.keyspaces db key ≠ some (.series s) := fun s => by rw [hkey]; exact nofun
  unfold handleKeyRestore
  rw [hvalue]
  cases value with
  | series series =>
    exact ⟨_, indexLoaded_ends h hissued hn hkey series, h.arrive hold series (hissued.free hn db), n + 1,
      hissued.arrive db key series, le_rfl⟩
  | other =>
    exact ⟨_, Ends.pure _, h.setKey hold nofun, n, hissued.setKey_other db key, Nat.le_succ n⟩

theorem leads_create (h : Settled self) (hissued : Issued first n self) (hn : n + 2 < 2 ^ 64) (labels : List Label) :
    Leads first n fun _ => some (if (self.keyspaces db key).isSome then self else self.createSeries db key labels) := by
  cases hkey : self.keyspaces db key with
  | some value => exact .stay h hissued
  | none =>
    refine ⟨_, n + 1, Ends.pure _, ?_, ?_, Nat.le_succ (n + 1)⟩ <;> rw [Option.isSome_none, if_neg Bool.false_ne_true]
      <;>
      unfold createSeries <;> dsimp only
    · split_ifs with hdup
      · exact h.draw
      · have hold : ∀ s, self.keyspaces db key ≠ some (.series s) := fun s => by rw [hkey]; exact nofun
        exact h.arrive hold ⟨0, labels⟩ (hissued.free (by omega) db)
    · split_ifs with hdup
      · exact hissued.draw
      · exact hissued.arrive db key ⟨0, labels⟩

theorem keyspaces_handleKeyRename (oldKey newKey : KeyType) :
    (self.handleKeyRename db oldKey newKey).keyspaces = self.keyspaces := by
  unfold handleKeyRename
  split <;> rfl

theorem generator_handleKeyRename (oldKey newKey : KeyType) :
    (self.handleKeyRename db oldKey newKey).generator = self.generator := by
  unfold handleKeyRename
  split <;> rfl

section

variable (h : Settled self)
include h

theorem Settled.handleKeyRename {newKey : KeyType} (hkey : self.keyspaces db key = none)
    (hnew : self.keyspaces db newKey = none) {value : Stored}
    (hfree : ∀ series, value = .series series → ∀ key', ¬ (self.keyspaces db).Carries series.id key') :
    Settled { { self.setKey db newKey (some value) with renameFromKey := key }.handleKeyRename db key newKey with
      renameFromKey := [] } := by
  have hold : ∀ s, self.keyspaces db newKey ≠ some (.series s) := fun s => by rw [hnew]; exact nofun
  have hnow : (self.setKey db newKey (some value)).keyspaces db newKey = some value := by
    rw [keyspaces_setKey, if_pos rfl, update_self]
  unfold Server.handleKeyRename
  rw [hnow]
  cases value with
  | other =>
    have hset : Settled (self.setKey db newKey (some .other)) := h.setKey hold nofun
    exact ⟨hset.agrees, hset.notFlushing, rfl, hset.noMove⟩
  | series series =>
    have hput := h.put hold series (hfree series rfl)
    have hmaps := (h.agrees db).not_maps_of_vacant hkey series.id
    have hreindex : (self.indexes db).reindexTimeseries series key newKey =
        (self.indexes db).indexTimeseries series newKey := by
      rw [Postings.reindexTimeseries, Agrees.removeTimeseriesForKey_of_not_maps hmaps]
    rw [← hreindex] at hput
    exact ⟨hput.agrees, hput.notFlushing, rfl, hput.noMove⟩

theorem leads_rename (hissued : Issued first n self) (hne : key ≠ []) (newKey : KeyType) :
    Leads first n fun fuel => self.renameKey fuel db key newKey := by
  unfold renameKey
  cases hvalue : self.keyspaces db key with
  | none => exact .stay h hissued
  | some value =>
    by_cases hsame : key = newKey
    · simp only [if_pos hsame]
      exact .stay h hissued
    · simp only [if_neg hsame]
      have hsettled := (h.vacate db newKey).vacate db key
      have hnew : ((self.vacate db newKey).vacate db key).keyspaces db newKey = none := by
        rw [vacate_other (.inr (Ne.symm hsame)), vacate_none]
      have hgone : ((self.vacate db newKey).vacate db key).keyspaces db key = none := vacate_none
      have hids := (hissued.vacate db newKey).vacate db key
      -- a key that is left has the value it had
      have hleft : ∀ {db' id key'}, (((self.vacate db newKey).vacate db key).keyspaces db').Carries id key' →
          (self.keyspaces db').Carries id key' := fun {db' id key'} hcarry => by
        simp only [keyspaces_vacate, keyspaces_setKey] at hcarry
        by_cases hdb : db' = db
        · subst hdb
          rw [if_pos rfl, if_true, Agrees.carries_update_none, Agrees.carries_update_none] at hcarry
          exact hcarry.2.2
        · rwa [if_neg hdb, if_neg hdb] at hcarry
      generalize (self.vacate db newKey).vacate db key = cleared at hsettled hnew hgone hids hleft
      have hevents : ∀ fuel, ((cleared.setKey db newKey (some value)).genericKeyEventsHandler fuel .renameFrom db key
        >>=
          fun server => server.genericKeyEventsHandler fuel .renameTo db newKey) =
            some { { cleared.setKey db newKey (some value) with renameFromKey := key }.handleKeyRename db key newKey
              with
              renameFromKey := [] } := fun fuel => if_pos hne
      have hfree : ∀ series, value = .series series → ∀ key', ¬ (cleared.keyspaces db).Carries series.id key' := by
        rintro series rfl key' hcarry
        have hkey' := (h.agrees db).unique (hleft hcarry) (Keyspace.carries_iff.mpr ⟨series, hvalue, rfl⟩)
        rw [hkey', Keyspace.Carries, hgone] at hcarry
        cases hcarry
      refine ⟨_, n, (funext hevents) ▸ Ends.pure _, hsettled.handleKeyRename hgone hnew hfree, ?_, Nat.le_add_right n 2⟩
      refine hissued.mono ?_ le_rfl fun db' id key' hcarry => .inl ?_
      · rw [generator_handleKeyRename]
        exact hids.generator
      · rw [keyspaces_handleKeyRename, keyspaces_setKey] at hcarry
        split_ifs at hcarry with hdb
        · by_cases hkey' : key' = newKey
          · rw [hkey', Keyspace.Carries, update_self] at hcarry
            exact ⟨db, key, by rw [Keyspace.Carries, hvalue]; exact hcarry⟩
          · rw [Keyspace.Carries, update_of_ne hkey'] at hcarry
            exact ⟨db, key', hleft hcarry⟩
        · exact ⟨db', key', hleft hcarry⟩

theorem leads_move (hissued : Issued first n self) (hn : n + 2 < 2 ^ 64) (newDb : Nat) :
    Leads first n fun fuel => self.moveKey fuel key db newDb := by
  unfold moveKey
  cases hvalue : self.keyspaces db key with
  | none => exact .stay h hissued
  | some value =>
    by_cases href : db = newDb ∨ (self.keyspaces newDb key).isSome = true
    · simp only [if_pos href]
      exact .stay h hissued
    · simp only [if_neg href]
      rw [not_or] at href
      have hsettled := h.vacate db key
      have hids := hissued.vacate db key
      have hgone : (self.vacate db key).keyspaces db key = none := vacate_none
      have hnew : (self.vacate db key).keyspaces newDb key = none := by
        rw [vacate_other (.inl (Ne.symm href.1))]
        simpa using href.2
      generalize self.vacate db key = cleared at hsettled hids hgone hnew
      -- the handler finds nothing under the old key, and indexes the series like one that is restored
      have hevents : ∀ fuel, ((cleared.setKey newDb key (some value)).genericKeyEventsHandler fuel .moveFrom db key >>=
          fun server => server.genericKeyEventsHandler fuel .moveTo newDb key) =
            (cleared.setKey newDb key (some value)).handleKeyRestore fuel newDb key := by
        intro fuel
        have hnone : { cleared.setKey newDb key (some value) with moveFromDb := none } =
            cleared.setKey newDb key (some value) := by
          rw [← hsettled.noMove]
          rfl
        change { cleared.setKey newDb key (some value) with moveFromDb := none }.handleKeyMove fuel newDb key db = _
        rw [hnone]
        unfold handleKeyMove handleKeyRestore
        split
        · next series hseries =>
            have hmaps := (hsettled.agrees db).not_maps_of_vacant hgone series.id
            have hindex : ((cleared.setKey newDb key (some value)).indexes db).removeTimeseriesForKey series key =
              (cleared.indexes db).removeTimeseriesForKey series key := rfl
            rw [hindex, Agrees.removeTimeseriesForKey_of_not_maps hmaps]
            exact congrArg (indexLoaded fuel · newDb key series)
              (setIndex_self (cleared.setKey newDb key (some value)) db)
        · rfl
      obtain ⟨server', hends, hsettled', n', hids', hle⟩ :=
        leads_handleKeyRestore hsettled hids (by omega) hnew value
      exact ⟨server', n', (funext hevents) ▸ hends, hsettled', hids', by omega⟩

theorem copyValue_spec (hissued : Issued first n self) (value : Stored) :
    Settled (self.copyValue value).2 ∧ ∃ n', Issued first n' (self.copyValue value).2 ∧ n' ≤ n + 1 := by
  cases value with
  | series series => exact ⟨h.draw, n + 1, hissued.draw, le_rfl⟩
  | other => exact ⟨h, n, hissued, Nat.le_succ n⟩

theorem leads_copy (hissued : Issued first n self) (hn : n + 2 < 2 ^ 64) (newDb : Nat)
    (newKey : KeyType) (replace : Bool) : Leads first n fun fuel => self.copyKey fuel db key newDb newKey replace := by
  unfold copyKey
  cases hvalue : self.keyspaces db key with
  | none => exact .stay h hissued
  | some value =>
    by_cases href : db = newDb ∧ key = newKey ∨ (self.keyspaces newDb newKey).isSome = true ∧ replace = false
    · simp only [if_pos href]
      exact .stay h hissued
    · simp only [if_neg href]
      obtain ⟨hsettled, n₁, hids, hn₁⟩ := copyValue_spec h hissued value
      obtain ⟨server', hends, hsettled', n', hids', hle⟩ := leads_handleKeyRestore (hsettled.vacate newDb newKey)
        (hids.vacate newDb newKey) (by omega) vacate_none (self.copyValue value).1
      exact ⟨server', n', hends, hsettled', hids', by omega⟩

theorem leads_restore (hissued : Issued first n self) (hn : n + 2 < 2 ^ 64) (value : Stored)
    (replace : Bool) : Leads first n fun fuel => self.restoreKey fuel db key value replace := by
  unfold restoreKey
  by_cases href : (self.keyspaces db key).isSome = true ∧ replace = false
  · simp only [if_pos href]
    exact .stay h hissued
  · simp only [if_neg href]
    obtain ⟨server', hends, hsettled', n', hids', hle⟩ := leads_handleKeyRestore (h.vacate db key)
      (hissued.vacate db key) (by omega) vacate_none value
    exact ⟨server', n', hends, hsettled', hids', by omega⟩

theorem Settled.swapDbs (db db' : Nat) : Settled (self.swapDbs db db') :=
  ⟨fun d => h.agrees (Equiv.swap db db' d), h.notFlushing, h.noRename, h.noMove⟩

end

theorem Issued.swapDbs (h : Issued first n self) (db db' : Nat) : Issued first n (self.swapDbs db db') :=
  h.mono h.generator le_rfl fun _ _ key hcarry => .inl ⟨_, key, hcarry⟩

theorem Settled.flush (h : Settled self) (db : Option Nat) : Settled (self.flush db) := by
  cases db with
  | none => exact ⟨fun _ => Agrees.default _ nofun, rfl, h.noRename, h.noMove⟩
  | some db =>
    refine ⟨fun db' => ?_, rfl, h.noRename, h.noMove⟩
    by_cases hdb : db' = db
    · subst hdb
      simpa [Server.flush, onFlushEvent, setIndex] using Agrees.default (fun _ => none) nofun
    · simpa [Server.flush, onFlushEvent, setIndex, hdb, Ne.symm hdb] using h.agrees db'

theorem Issued.flush (h : Issued first n self) (db : Option Nat) : Issued first n (self.flush db) := by
  have hgen : (self.flush db).generator = self.generator := by cases db <;> rfl
  have hspaces : (self.flush db).keyspaces =
      fun db' => if db = none ∨ db = some db' then fun _ => none else self.keyspaces db' := by cases db <;> rfl
  refine h.mono (hgen ▸ h.generator) le_rfl fun db' id key hcarry => .inl ⟨db', key, ?_⟩
  rw [hspaces] at hcarry
  dsimp only at hcarry
  split_ifs at hcarry with hflushed
  · cases hcarry
  · exact hcarry

/-- After any change but a rename from the empty key the indexes agree with the keyspaces, if they did before. -/
theorem leads_apply (h : Settled self) (hissued : Issued first n self) (hn : n + 2 < 2 ^ 64) (change : Change)
    (hrename : ∀ db newKey, change ≠ .rename db [] newKey) : Leads first n fun fuel => self.apply fuel change := by
  cases change with
  | create db key labels => exact leads_create h hissued hn labels
  | delete db key => exact .stay (h.vacate db key) (hissued.vacate db key)
  | overwrite db key =>
    have hold : ∀ s, (self.vacate db key).keyspaces db key ≠ some (.series s) := fun s => by
      rw [vacate_none]
      exact nofun
    exact .stay ((h.vacate db key).setKey hold nofun) ((hissued.vacate db key).setKey_other db key)
  | rename db key newKey =>
    exact leads_rename h hissued (fun hempty => hrename db newKey (hempty ▸ rfl)) newKey
  | move key db newDb => exact leads_move h hissued hn newDb
  | copy db key newDb newKey replace => exact leads_copy h hissued hn newDb newKey replace
  | restore db key value replace => exact leads_restore h hissued hn value replace
  | swapDb db db' => exact .stay (h.swapDbs db db') (hissued.swapDbs db db')
  | flushDb db => exact .stay (h.flush (some db)) (hissued.flush (some db))
  | flushAll => exact .stay (h.flush none) (hissued.flush none)

theorem run_settles (changes : List Change) (h : Settled self) (hissued : Issued first n self)
    (hn : n + 2 * changes.length < 2 ^ 64) (hrename : ∀ db newKey, Change.rename db [] newKey ∉ changes) :
    ∃ server, Ends (fun fuel => self.run fuel changes) server ∧ Settled server := by
  induction changes generalizing self n with
  | nil => exact ⟨self, Ends.pure self, h⟩
  | cons change changes ih =>
    rw [List.length_cons] at hn
    obtain ⟨next, n', hends, hnext, hids, hle⟩ := leads_apply h hissued (by omega) change
      fun db newKey heq => hrename db newKey (heq ▸ List.mem_cons_self)
    obtain ⟨server, hends', hsettled⟩ := ih hnext hids (by omega)
      fun db newKey hmem => hrename db newKey (List.mem_cons_of_mem _ hmem)
    exact ⟨server, hends.bind hends', hsettled⟩

end

theorem settled_start (generator : SeriesRef) : Settled (start generator) :=
  ⟨fun _ => Agrees.default _ nofun, rfl, rfl, rfl⟩

/-- After any changes, none of which renames the empty key, every index agrees with its keyspace. -/
theorem index_follows_keyspace (generator : SeriesRef) (changes : List Change)
    (hrename : ∀ db newKey, Change.rename db [] newKey ∉ changes) (hlength : changes.length < 2 ^ 63) :
    ∃ server, Ends (fun fuel => (start generator).run fuel changes) server ∧
      ∀ db, Agrees (server.indexes db) (server.keyspaces db) := by
  have hissued : Issued generator 0 (start generator) :=
    ⟨(Nat.mod_eq_of_lt generator.isLt).symm, fun db id key hcarry => by cases hcarry⟩
  obtain ⟨server, hends, hsettled⟩ := run_settles changes (settled_start generator) hissued (by omega) hrename
  exact ⟨server, hends, hsettled.agrees⟩

/-- Two series that share a label are created, one is renamed, the other one copied to another database and
overwritten; a dump is restored that has an id and a label of its own. -/
def labelledChanges : List Change :=
  [.create 0 [0x61] [labelA, labelB], .create 0 [0x62] [labelA], .rename 0 [0x61] [],
    .copy 0 [0x62] 1 [0x62] false, .overwrite 0 [0x62], .restore 1 [0x61] (.series ⟨7, [labelB]⟩) true]

theorem index_follows_keyspace_rename : ∃ server, Ends (fun fuel => (start 0).run fuel labelledChanges) server ∧
    ∀ db, Agrees (server.indexes db) (server.keyspaces db) :=
  index_follows_keyspace 0 _ (by simp [labelledChanges]) (by decide)

/-- A series at the empty key is renamed: it is no longer in the index. -/
theorem rename_empty_key_unindexed : ∃ (changes : List Change) (server : Server),
    changes.length = 2 ∧ Ends (fun fuel => (start 0).run fuel changes) server ∧
      (server.keyspaces 0).Carries 1 [0x78] ∧ ¬ (server.indexes 0).Maps 1 [0x78] := by
  refine ⟨[.create 0 [] [], .rename 0 [] [0x78]], _, rfl, Ends.pure _, by decide, by decide⟩

end Server

end ValkeyTimeSeries
