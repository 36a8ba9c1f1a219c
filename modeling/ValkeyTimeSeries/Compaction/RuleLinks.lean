/-
Compaction/RuleLinks.lean

The links of compaction rules: `TS.CREATERULE` and `TS.DELETERULE`, the search for circular rules, and what
the commands of the server that carry series around do to them (`series/compaction.rs`,
`commands/ts_createrule.rs`, `commands/ts_deleterule.rs`, `series/utils.rs`, `series/index/server_events.rs`).

Design.  A series is what the links see of it: its own idea of its key, the source it names and the
destinations its rules name.  A rule is live while the destination it names is a series that names the owner
back.  The search for a cycle runs on fuel.  A dump is a value as it was when it was taken and may be restored
at any time, under any key, in any database.
-/
import ValkeyTimeSeries.Library.Fuel
import ValkeyTimeSeries.Index.Postings

namespace ValkeyTimeSeries

open Function

/-- A series, as far as compaction links go. -/
structure LinkedSeries where
  key : KeyType
  srcSeries : Option KeyType
  /-- The destination that each rule names. -/
  rules : List KeyType
deriving DecidableEq

inductive LinkedValue where
  | series (series : LinkedSeries)
  | other
deriving DecidableEq

abbrev Links := KeyType → Option LinkedValue

inductive RuleError where
  | sameKey
  | keyNotFound
  | wrongType
  | hasSource
  | circularDependency
  | ruleNotFound
  | duplicateKey
deriving DecidableEq, Repr

namespace LinkedSeries

def addCompactionRule (self : LinkedSeries) (dest : KeyType) : LinkedSeries :=
  { self with rules := self.rules ++ [dest] }

def removeCompactionRule (self : LinkedSeries) (dest : KeyType) : Option LinkedSeries :=
  if dest ∈ self.rules then some { self with rules := self.rules.erase dest } else none

end LinkedSeries

namespace Links

def tryGetTimeseries (links : Links) (key : KeyType) : Except RuleError (Option LinkedSeries) :=
  match links key with
  | none => .ok none
  | some (.series series) => .ok (some series)
  | some .other => .error .wrongType

def getTimeseries (links : Links) (key : KeyType) : Except RuleError LinkedSeries :=
  match links key with
  | none => .error .keyNotFound
  | some (.series series) => .ok series
  | some .other => .error .wrongType

def set (links : Links) (key : KeyType) (series : LinkedSeries) : Links := update links key (some (.series series))

/-! ### Circular rules -/

def liveSourceKey (links : Links) (series : LinkedSeries) : Option KeyType :=
  match series.srcSeries with
  | none => none
  | some sourceKey =>
    match links sourceKey with
    | some (.series source) => if series.key ∈ source.rules then some sourceKey else none
    | _ => none

/-- Whether the target was found, and the keys visited; `none` when the fuel ran out. -/
abbrev Search := Option (Except RuleError (Bool × Finset KeyType))

def reachesAny (reaches : KeyType → Finset KeyType → Search) : List KeyType → Finset KeyType → Search
  | [], visited => some (.ok (false, visited))
  | dest :: rules, visited =>
    reaches dest visited >>= fun
      | .ok (false, visited) => reachesAny reaches rules visited
      | found => some found

def dependencyReaches (links : Links) (target : KeyType) : Nat → KeyType → Option KeyType → Finset KeyType → Search
  | 0, _, _, _ => none
  | fuel + 1, current, source, visited =>
    match links.tryGetTimeseries current with
    | .error e => some (.error e)
    | .ok none => some (.ok (false, visited))
    | .ok (some series) =>
      if ∃ key ∈ source, series.srcSeries ≠ some key then some (.ok (false, visited))
      else if current = target then some (.ok (true, visited))
      else if current ∈ visited then some (.ok (false, visited))
      else reachesAny (fun dest visited => dependencyReaches links target fuel dest (some series.key) visited)
        series.rules (insert current visited)

def checkNewRuleCircularDependency (fuel : Nat) (links : Links) (source dest : KeyType) : Option
    (Except RuleError Unit) :=
  dependencyReaches links source fuel dest none ∅ >>= fun
    | .error e => some (.error e)
    | .ok (true, _) => some (.error .circularDependency)
    | .ok (false, _) => some (.ok ())

/-! ### Commands -/

/-- What `TS.CREATERULE` writes, once its checks have passed. -/
def addRule (links : Links) (source dest : KeyType) (sourceSeries destSeries : LinkedSeries) : Links :=
  (links.set source (((sourceSeries.removeCompactionRule dest).getD sourceSeries).addCompactionRule dest)).set dest
    { destSeries with srcSeries := some source }

/-- The rule itself is taken as parsed. -/
def createRule (fuel : Nat) (links : Links) (source dest : KeyType) : Option (Except RuleError Links) :=
  if source = dest then some (.error .sameKey)
  else
    match links.getTimeseries source, links.getTimeseries dest with
    | .error e, _ => some (.error e)
    | .ok _, .error e => some (.error e)
    | .ok sourceSeries, .ok destSeries =>
      if (links.liveSourceKey destSeries).isSome then some (.error .hasSource)
      else checkNewRuleCircularDependency fuel links source dest >>= fun
        | .error e => some (.error e)
        | .ok () => some (.ok (links.addRule source dest sourceSeries destSeries))

def deleteRule (links : Links) (source dest : KeyType) : Except RuleError Links :=
  if source = dest then .error .ruleNotFound
  else do
    let sourceSeries ← links.getTimeseries source
    match ← links.tryGetTimeseries dest with
    | none => .error .ruleNotFound
    | some destSeries =>
      match sourceSeries.removeCompactionRule dest with
      | none => .error .ruleNotFound
      | some sourceSeries =>
        let links := links.set source sourceSeries
        if destSeries.srcSeries = some source then .ok (links.set dest { destSeries with srcSeries := none })
        else .ok links

def createDestinations (key : KeyType) (links : Links) : List KeyType → Links × List KeyType
  | [] => (links, [])
  | dest :: dests =>
    match links dest with
    | some _ => createDestinations key links dests
    | none =>
      let (links, rules) := createDestinations key (links.set dest ⟨dest, some key, []⟩) dests
      (links, dest :: rules)

/-- A series, with the destinations that the configured compactions name for it. -/
def createAndStoreSeries (links : Links) (key : KeyType) (dests : List KeyType) : Except RuleError Links :=
  match links key with
  | some _ => .error .duplicateKey
  | none =>
    let (links, rules) := createDestinations key (links.set key ⟨key, none, []⟩) dests
    .ok (links.set key ⟨key, none, rules⟩)

/-! ### Key events -/

/-- The source that the renamed series names gets its rules for it renamed. -/
def relinkSource (links : Links) (series : LinkedSeries) (oldKey : KeyType) : Links :=
  match series.srcSeries with
  | none => links
  | some sourceKey =>
    if sourceKey = series.key then links
    else
      match links sourceKey with
      | some (.series source) =>
        links.set sourceKey { source with rules := source.rules.map fun dest =>
          if dest = oldKey then series.key else dest }
      | _ => links

def relinkDestination (newKey oldKey : KeyType) (links : Links) (dest : KeyType) : Links :=
  match links dest with
  | some (.series series) =>
    if series.srcSeries = some oldKey then links.set dest { series with srcSeries := some newKey } else links
  | _ => links

def relinkRenamedSeries (links : Links) (series : LinkedSeries) (oldKey : KeyType) : Links :=
  (series.rules.filter (· ≠ series.key)).foldl (relinkDestination series.key oldKey) (links.relinkSource series oldKey)

def handleKeyRename (links : Links) (oldKey newKey : KeyType) : Links :=
  match links newKey with
  | some (.series series) =>
    let series := { series with key := newKey }
    (links.set newKey series).relinkRenamedSeries series oldKey
  | _ => links

/-- What `index_loaded_series` does to the links of the series it indexes, when it is moved or restored. -/
def indexLoadedSeries (links : Links) (key : KeyType) : Links :=
  match links key with
  | some (.series series) => links.set key { series with key }
  | _ => links

/-- `RENAME`: the value is stored in place of what the new key held.  The event of the old key is forgotten if it is
empty. -/
def rename (links : Links) (oldKey newKey : KeyType) : Links :=
  match links oldKey with
  | none => links
  | some value =>
    if oldKey = newKey then links
    else
      let links := update (update links oldKey none) newKey (some value)
      if oldKey = [] then links else handleKeyRename links oldKey newKey

def arrive (links : Links) (key : KeyType) (value : LinkedValue) : Links :=
  indexLoadedSeries (update links key (some value)) key

end Links

/-! ### Runs -/

structure RuleStore where
  dbs : Nat → Links
  dumps : List LinkedValue

inductive RuleChange where
  /-- A series is created, with the default compactions that are configured for it. -/
  | create (db : Nat) (key : KeyType) (dests : List KeyType)
  | createRule (db : Nat) (source dest : KeyType)
  | deleteRule (db : Nat) (source dest : KeyType)
  | delete (db : Nat) (key : KeyType)
  /-- A value of another type is stored. -/
  | put (db : Nat) (key : KeyType)
  | rename (db : Nat) (oldKey newKey : KeyType)
  | move (db : Nat) (key : KeyType) (newDb : Nat)
  | dump (db : Nat) (key : KeyType)
  | restore (db : Nat) (key : KeyType) (dump : Nat) (replace : Bool)
deriving DecidableEq

namespace RuleStore

def start : RuleStore := ⟨fun _ _ => none, []⟩

def setDb (self : RuleStore) (db : Nat) (links : Links) : RuleStore := { self with dbs := update self.dbs db links }

def setOk (self : RuleStore) (db : Nat) : Except RuleError Links → RuleStore
  | .ok links => self.setDb db links
  | .error _ => self

def move (self : RuleStore) (db : Nat) (key : KeyType) (newDb : Nat) : RuleStore :=
  match self.dbs db key, self.dbs newDb key with
  | some value, none =>
    if db = newDb then self
    else (self.setDb db (update (self.dbs db) key none)).setDb newDb ((self.dbs newDb).arrive key value)
  | _, _ => self

def restore (self : RuleStore) (db : Nat) (key : KeyType) (dump : Nat) (replace : Bool) : RuleStore :=
  match self.dumps[dump]? with
  | none => self
  | some value =>
    if (self.dbs db key).isSome ∧ replace = false then self else self.setDb db ((self.dbs db).arrive key value)

def apply (fuel : Nat) (self : RuleStore) : RuleChange → Option RuleStore
  | .create db key dests => some (self.setOk db ((self.dbs db).createAndStoreSeries key dests))
  | .createRule db source dest => ((self.dbs db).createRule fuel source dest).map (self.setOk db)
  | .deleteRule db source dest => some (self.setOk db ((self.dbs db).deleteRule source dest))
  | .delete db key => some (self.setDb db (update (self.dbs db) key none))
  | .put db key => some (self.setDb db (update (self.dbs db) key (some .other)))
  | .rename db oldKey newKey => some (self.setDb db ((self.dbs db).rename oldKey newKey))
  | .move db key newDb => some (self.move db key newDb)
  | .dump db key => some { self with dumps := self.dumps ++ (self.dbs db key).toList }
  | .restore db key dump replace => some (self.restore db key dump replace)

def run (fuel : Nat) (self : RuleStore) (changes : List RuleChange) : Option RuleStore := changes.foldlM
    (apply fuel) self

end RuleStore

/-- The rule of the series at `source` for `dest` is live. -/
def Links.Live (links : Links) (source dest : KeyType) : Prop :=
  ∃ series destination, links source = some (.series series) ∧ dest ∈ series.rules ∧
    links dest = some (.series destination) ∧ destination.srcSeries = some source

end ValkeyTimeSeries
