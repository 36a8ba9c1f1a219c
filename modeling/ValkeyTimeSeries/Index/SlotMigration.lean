/-
Index/SlotMigration.lean

Atomic slot migration (`series/index/asm.rs`): keys of a slot that is imported wait to be indexed until
its import completes, and the index entries of a slot that was exported are retired.

Design.  The events of a migration come from the server; a completed import starts a background job that
indexes the keys that were queued, a completed export one that marks the ids of the slots stale.  A job is
what it has still to do, and takes one step between two locks at a time: it takes the queued keys of one
database, indexes a batch of them, reads a window of the index or marks what it has read.  Any job may take
its next step between any two events.  The upkeep of the index may run at any time.
-/
import ValkeyTimeSeries.Index.ServerEvents

namespace ValkeyTimeSeries

/-! ### Hash slots -/

def crc16Xmodem (bytes : Bytes) : BitVec 16 :=
  bytes.foldl (fun (crc : BitVec 16) (byte : BitVec 8) => (List.range 8).foldl
    (fun crc _ => if crc.msb then (crc <<< 1) ^^^ 0x1021 else crc <<< 1) (crc ^^^ (byte.zeroExtend 16 <<< 8))) 0

/-- What stands between the first `{` and the next `}`, unless it is empty. -/
def getHashTag (key : KeyType) : Option Bytes :=
  match key.dropWhile (· ≠ 0x7B) with
  | [] => none
  | _ :: rest =>
    let tag := rest.takeWhile (· ≠ 0x7D)
    if tag.length < rest.length ∧ tag ≠ [] then some tag else none

def calculateHashSlot (key : KeyType) : Nat := (crc16Xmodem ((getHashTag key).getD key)).toNat % 16384

/-! ### Jobs -/

/-- A background job, as what it has still to do. -/
inductive Job where
  /-- `process_delayed_indexing`: the databases to come, the database at hand and the keys taken from it. -/
  | delayedIndexing (slots : Finset Nat) (dbs : List Nat) (db : Nat) (keys : List KeyType)
  /-- `handle_post_migration_cleanup`: the databases, once it has listed them, and for the first of them the place
  it has come to and the ids read that are not yet marked. -/
  | cleanup (slots : Finset Nat) (dbs : Option (List Nat)) (cursor : SeriesRef) (batch : List SeriesRef)

def Job.slots : Job → Finset Nat
  | delayedIndexing slots .. => slots
  | cleanup slots .. => slots

structure Shard where
  server : Server
  /-- The databases of the server.  One without an index has nothing that a cleanup could find. -/
  dbs : List Nat
  ownedSlots : Finset Nat
  /-- `IMPORTING_SLOTS`. -/
  importingSlots : Finset Nat
  /-- `DELAYED_KEYS_MAP`. -/
  delayedKeys : SortedMap Nat (List KeyType)
  jobs : List Job

inductive AtomicSlotMigrationEvent where
  | importStarted
  | importAborted
  | importCompleted
  | exportCompleted
deriving DecidableEq, Repr

def batchSize : Nat := 256

namespace Shard

variable (slotOf : KeyType → Nat)

/-! ### Queued keys -/

def delayed (self : Shard) (db : Nat) : List KeyType := (self.delayedKeys.get? db).getD []

def addDelayedIndexingKey (self : Shard) (db : Nat) (key : KeyType) : Shard :=
  { self with delayedKeys := self.delayedKeys.alter db fun keys => some (keys.getD [] ++ [key]) }

def takeDelayedKeysInSlots (self : Shard) (db : Nat) (slots : Finset Nat) : List KeyType × Shard :=
  match self.delayedKeys.get? db with
  | none => ([], self)
  | some keys =>
    (keys.filter (slotOf · ∈ slots),
      { self with delayedKeys := self.delayedKeys.insert db (keys.filter (slotOf · ∉ slots)) })

def discardDelayedKeysInSlots (self : Shard) (slots : Finset Nat) : Shard :=
  self.delayedKeys.keys.foldl (fun self db => (self.takeDelayedKeysInSlots slotOf db slots).2) self

/-! ### Indexing -/

def indexTimeseriesInBatch (fuel : Nat) (server : Server) (db : Nat) (batch : List KeyType) : Option Server :=
  batch.foldlM (fun server key => server.handleKeyRestore fuel db key) server

def handleKeyRestore (fuel : Nat) (self : Shard) (db : Nat) (key : KeyType) : Option Shard :=
  if slotOf key ∈ self.importingSlots then some (self.addDelayedIndexingKey db key)
  else do
    let server ← self.server.handleKeyRestore fuel db key
    some { self with server }

def processDelayedIndexing (self : Shard) (slots : Finset Nat) : Shard :=
  { self with jobs := self.jobs ++ [.delayedIndexing slots self.delayedKeys.keys 0 []] }

def handlePostMigrationCleanup (self : Shard) (slots : Finset Nat) : Shard :=
  { self with jobs := self.jobs ++ [.cleanup slots none 0 []] }

/-- The next step of a job, and what is left of the job. -/
def advance (fuel : Nat) (self : Shard) : Job → Option (Option Job × Shard)
  | .delayedIndexing _ [] _ [] => some (none, self)
  | .delayedIndexing slots (db :: dbs) _ [] =>
    let (keys, self) := self.takeDelayedKeysInSlots slotOf db slots
    some (some (.delayedIndexing slots dbs db keys), self)
  | .delayedIndexing slots dbs db (key :: keys) => do
      let server ← indexTimeseriesInBatch fuel self.server db ((key :: keys).take batchSize)
      some (some (.delayedIndexing slots dbs db ((key :: keys).drop batchSize)), { self with server })
  | .cleanup slots none _ _ => some (some (.cleanup slots (some self.dbs) 0 []), self)
  | .cleanup _ (some []) _ _ => some (none, self)
  | .cleanup slots (some (db :: dbs)) cursor [] =>
    let window := (self.server.indexes db).idToKey.batch (some cursor) batchSize
    match window.getLast? with
    | none => some (some (.cleanup slots (some dbs) 0 []), self)
    | some last =>
      some (some (.cleanup slots (some (db :: dbs)) (last.1 + 1)
        ((window.filter fun entry => slotOf entry.2 ∈ slots).map Prod.fst)), self)
  | .cleanup slots (some (db :: dbs)) cursor (id :: batch) =>
    let postings := (self.server.indexes db).markIdsAsStale (id :: batch)
    some (some (.cleanup slots (some (db :: dbs)) cursor []), { self with server := self.server.setIndex db postings })

def slotMigrationEventHandler (self : Shard) (event : AtomicSlotMigrationEvent) (slots : Finset Nat) : Shard :=
  match event with
  | .exportCompleted => self.handlePostMigrationCleanup slots
  | .importStarted => { self with importingSlots := self.importingSlots ∪ slots }
  | .importCompleted => { self with importingSlots := self.importingSlots \ slots }.processDelayedIndexing slots
  | .importAborted => { self with importingSlots := self.importingSlots \ slots }.discardDelayedKeysInSlots slotOf slots

end Shard

/-! ### Runs -/

inductive ShardEvent where
  | migration (event : AtomicSlotMigrationEvent) (slots : Finset Nat)
  /-- A value is loaded or restored, in place of the one there was. -/
  | keyLoaded (db : Nat) (key : KeyType) (value : Stored)
  /-- A key is deleted, be it by a client or as its slot was exported or its import aborted. -/
  | keyDeleted (db : Nat) (key : KeyType)
  /-- A job takes its next step. -/
  | work (job : Nat)
  | removeStaleIds (db : Nat) (start : Option IndexKey) (count : Nat)
  | optimizePostings (db : Nat) (start : Option IndexKey) (count : Nat)

namespace Shard

variable (slotOf : KeyType → Nat)

def owns (self : Shard) (event : AtomicSlotMigrationEvent) (slots : Finset Nat) : Finset Nat :=
  match event with
  | .importCompleted => self.ownedSlots ∪ slots
  | .exportCompleted => self.ownedSlots \ slots
  | _ => self.ownedSlots

def work (fuel : Nat) (self : Shard) (job : Nat) : Option Shard :=
  match self.jobs[job]? with
  | none => some self
  | some current => do
      let (next, self) ← self.advance slotOf fuel current
      some { self with jobs := self.jobs.take job ++ next.toList ++ self.jobs.drop (job + 1) }

def step (fuel : Nat) (self : Shard) : ShardEvent → Option Shard
  | .migration event slots =>
      some ({ self with ownedSlots := self.owns event slots }.slotMigrationEventHandler slotOf event slots)
  | .keyLoaded db key value =>
    { self with server := (self.server.vacate db key).setKey db key (some value) }.handleKeyRestore slotOf fuel db key
  | .keyDeleted db key => some { self with server := self.server.vacate db key }
  | .work job => self.work slotOf fuel job
  | .removeStaleIds db start count =>
    some { self with server := self.server.setIndex db ((self.server.indexes db).removeStaleIds start count).1 }
  | .optimizePostings db start count =>
    some { self with server := self.server.setIndex db ((self.server.indexes db).optimizePostings start count).1 }

def run (fuel : Nat) (self : Shard) (events : List ShardEvent) : Option Shard := events.foldlM (step slotOf fuel) self

def start (generator : SeriesRef) (dbs : List Nat) (ownedSlots : Finset Nat) : Shard :=
  ⟨.start generator, dbs, ownedSlots, ∅, .empty, []⟩

/-- No key of a slot that is imported is visible. -/
def Hidden (self : Shard) : Prop :=
  ∀ db id key, slotOf key ∈ self.importingSlots → ¬ (self.server.indexes db).Maps id key

end Shard

end ValkeyTimeSeries
