/-
Fanout/ClusterMap.lean

The map of a cluster, built from the text of `CLUSTER NODES`, from `fanout/cluster_map.rs`.

Design.  A node id is the text of its 40 bytes, which the order and the equality of the byte buffer agree
with; ids are *told apart* by these bytes in the hash map of the shards, and by `asStr` in the ordered set
they are moved to.  The order in which a hash map gives out its entries is a parameter (`HashOrder`), and so
is the IPv6 grammar of the standard library.
-/
import ValkeyTimeSeries.Fanout.FanoutCommand
import ValkeyTimeSeries.Library.HashOrder
import ValkeyTimeSeries.Library.RangeMap

namespace ValkeyTimeSeries.Cluster

open List

def numSlots : Nat := 16384

def nodeIdLen : Nat := 40

abbrev Text := List Char

/-! ### What the standard library does with text -/

def len (s : Text) : Nat := (s.map fun c => c.utf8Size).sum

def isAsciiWhitespace (c : Char) : Bool := c = ' ' || c = '\t' || c = '\n' || c = '\x0c' || c = '\r'

/-- The characters with the property `White_Space`. -/
def isWhitespace (c : Char) : Bool :=
  let n := c.toNat
  (0x09 ≤ n && n ≤ 0x0D) || n = 0x20 || n = 0x85 || n = 0xA0 || n = 0x1680 || (0x2000 ≤ n && n ≤ 0x200A)
    || n = 0x2028 || n = 0x2029 || n = 0x202F || n = 0x205F || n = 0x3000

def trim (s : Text) : Text := (s.dropWhile isWhitespace).rdropWhile isWhitespace

def stripCr (s : Text) : Text := if s.getLast? = some '\r' then s.dropLast else s

/-- The lines of a text, without their ends; an end of line at the end begins no further line. -/
def lines (s : Text) : List Text :=
  let pieces := s.splitOnP (· = '\n')
  pieces.dropLast.map stripCr ++ (pieces.getLast?.toList.filter (· ≠ []))

def splitAsciiWhitespace (s : Text) : List Text := (s.splitOnP isAsciiWhitespace).filter (· ≠ [])

def splitOnce (c : Char) (s : Text) : Option (Text × Text) :=
  match s.span (· ≠ c) with
  | (a, _ :: b) => some (a, b)
  | (_, []) => none

def rsplitOnce (c : Char) (s : Text) : Option (Text × Text) :=
  (splitOnce c s.reverse).map fun (b, a) => (a.reverse, b.reverse)

/-- Decimal digits, at least one, of a number below `bound`. -/
def parseDigits (bound : Nat) : Text → Option Nat
  | [] => none
  | s => s.foldlM (fun n c => if c.isDigit ∧ 10 * n + (c.toNat - 48) < bound then some (10 * n + (c.toNat - 48))
      else none) 0

/-- `str::parse::<u16>`, which takes a sign. -/
def parseU16 : Text → Option Nat
  | '+' :: s => parseDigits 65536 s
  | s => parseDigits 65536 s

/-- One number of an IPv4 address: one to three digits and no needless zero. -/
def parseOctet (s : Text) : Option Nat :=
  if s.length ≤ 3 ∧ ¬ (s.head? = some '0' ∧ 1 < s.length) then parseDigits 256 s else none

def parseIpv4 (s : Text) : Option (List Nat) :=
  let parts := s.splitOnP (· = '.')
  if parts.length = 4 then parts.mapM parseOctet else none

inductive IpAddr where
  | v4 (octets : List Nat)
  | v6 (segments : List Nat)
deriving DecidableEq, Repr

/-- The grammar of IPv6 addresses. -/
abbrev Ipv6Parser := Text → Option (List Nat)

def parseIpAddr (ipv6 : Ipv6Parser) (s : Text) : Option IpAddr :=
  match parseIpv4 s with
  | some octets => some (.v4 octets)
  | none => (ipv6 s).map .v6

/-! ### Nodes and shards -/

inductive NodeRole where
  | primary
  | replica
deriving DecidableEq, Repr

structure SocketAddress where
  primaryEndpoint : IpAddr
  port : Nat
deriving DecidableEq, Repr

/-- The text in the buffer of a node id. -/
abbrev NodeId := Text

namespace NodeId

def default : NodeId := List.replicate nodeIdLen '\x00'

def isEmpty (id : NodeId) : Bool := id.head? = some '\x00'

/-- The text by which ids are ordered: an id that begins with a zero byte counts as none. -/
def asStr (id : NodeId) : Text := if isEmpty id then [] else id

end NodeId

structure NodeInfo where
  id : NodeId
  shardId : NodeId
  socketAddress : SocketAddress
  role : NodeRole
  location : NodeLocation
deriving DecidableEq, Repr

structure ShardInfo where
  id : NodeId
  primary : Option NodeInfo
  replicas : List NodeInfo
  ownedSlots : RangeSet
  isLocal : Bool

def ShardInfo.new (id : NodeId) : ShardInfo :=
  { id, primary := none, replicas := [], ownedSlots := RangeMap.empty, isLocal := false }

def ShardInfo.Owns (shard : ShardInfo) (slot : Nat) : Prop := (shard.ownedSlots.get slot).isSome

/-! ### One line -/

structure ParsedNodeLine where
  id : NodeId
  socketAddress : Option SocketAddress
  isMaster : Bool
  isLocal : Bool
  hasMaster : Bool
  masterId : NodeId
  slotRanges : List (Nat × Nat)
deriving DecidableEq, Repr

def ParsedNodeLine.location (rec : ParsedNodeLine) : NodeLocation := if rec.isLocal then .here else .remote

/-- The address of a node; a node without one is kept only if it is this one. -/
def parseNodeAddress (ipv6 : Ipv6Parser) (field : Text) (noaddr isLocal : Bool) : Option SocketAddress :=
  let addr := (field.splitOnP (· = ',')).headD field
  let hostPort := (addr.splitOnP (· = '@')).headD addr
  let (ipStr, port) := match rsplitOnce ':' hostPort with
    | some (ip, port) => (ip, (parseU16 port).getD 0)
    | none => (hostPort, 0)
  let localPlaceholder := if isLocal then some ⟨.v4 [0, 0, 0, 0], port⟩ else none
  if noaddr ∨ ipStr = [] then localPlaceholder
  else match parseIpAddr ipv6 ipStr with
    | some primaryEndpoint => some ⟨primaryEndpoint, port⟩
    | none => localPlaceholder

/-- One slot or one range of slots; nothing for the marker of a slot on its way. -/
def parseSlotSpec (spec : Text) : Option (Nat × Nat) :=
  if spec.head? = some '[' then none
  else match splitOnce '-' spec with
    | some (a, b) =>
      match parseU16 a, parseU16 b with
      | some a, some b => some (a, b)
      | _, _ => none
    | none => (parseU16 spec).map fun n => (n, n)

def parseNodeLine (ipv6 : Ipv6Parser) (line : Text) (myNodeId : NodeId) : Option ParsedNodeLine :=
  match splitAsciiWhitespace line with
  | id :: addrField :: flagsField :: masterField :: _ :: _ :: _ :: _ :: specs =>
    let flags := flagsField.splitOnP (· = ',')
    let isMaster : Bool := "master".toList ∈ flags
    let isReplica : Bool := "slave".toList ∈ flags ∨ "replica".toList ∈ flags
    let isLocal : Bool := "myself".toList ∈ flags ∨ id = myNodeId
    let hasMaster : Bool := isReplica ∧ len masterField = nodeIdLen
    if len id ≠ nodeIdLen ∨ isMaster = isReplica then none
    else some
      { id
        socketAddress := parseNodeAddress ipv6 addrField ("noaddr".toList ∈ flags) isLocal
        isMaster, isLocal, hasMaster
        masterId := if hasMaster then masterField else NodeId.default
        slotRanges := if isMaster then specs.filterMap parseSlotSpec else [] }
  | _ => none

/-! ### The whole text -/

/-- The lines that are read: trimmed, and not empty. -/
def nodeLines (text : Text) : List Text := ((lines text).map trim).filter (· ≠ [])

def parseRecords (ipv6 : Ipv6Parser) (text : Text) (myNodeId : NodeId) : List ParsedNodeLine :=
  (nodeLines text).filterMap (parseNodeLine ipv6 · myNodeId)

def allParsed (ipv6 : Ipv6Parser) (text : Text) (myNodeId : NodeId) : Bool :=
  (nodeLines text).all fun line => (parseNodeLine ipv6 line myNodeId).isSome

/-- Whether no two ids share an address, after the lines that put `seen`. -/
def noCollision : List (SocketAddress × NodeId) → List ParsedNodeLine → Bool
  | _, [] => true
  | seen, rec :: records =>
    match rec.socketAddress with
    | none => noCollision seen records
    | some addr =>
      match seen.lookup addr with
      | some existing => existing = rec.id && noCollision seen records
      | none => noCollision ((addr, rec.id) :: seen) records

structure SlotRangeInfo where
  startSlot : Nat
  endSlot : Nat
  shardId : NodeId
deriving DecidableEq, Repr

/-- What the two passes over the lines build; the shards are the entries of a hash map by id. -/
structure Assembly where
  shardMap : List ShardInfo
  slotRanges : List SlotRangeInfo
  localShardId : Option NodeId
  isConsistent : Bool

def Assembly.start (isConsistent : Bool) : Assembly :=
  { shardMap := [], slotRanges := [], localShardId := none, isConsistent }

/-- The shard of an id, made if there is none, changed by `f`. -/
def updateEntry (id : NodeId) (f : ShardInfo → ShardInfo) : List ShardInfo → List ShardInfo
  | [] => [f (.new id)]
  | shard :: shards => if shard.id = id then f shard :: shards else shard :: updateEntry id f shards

/-- The shard of an id, if there is one, changed by `f`. -/
def updateExisting (id : NodeId) (f : ShardInfo → ShardInfo) (shards : List ShardInfo) : List ShardInfo :=
  shards.map fun shard => if shard.id = id then f shard else shard

def validRange (range : Nat × Nat) : Bool := range.1 ≤ range.2 && range.2 < numSlots

def ownRanges (slots : RangeSet) (ranges : List (Nat × Nat)) : RangeSet :=
  ranges.foldl (fun slots range => slots.insert range.1 range.2 ()) slots

def ShardInfo.serve (rec : ParsedNodeLine) (socketAddress : SocketAddress) (ranges : List (Nat × Nat))
    (shard : ShardInfo) : ShardInfo :=
  { shard with
    primary := some ⟨rec.id, rec.id, socketAddress, .primary, rec.location⟩
    isLocal := shard.isLocal || rec.isLocal
    ownedSlots := ownRanges shard.ownedSlots ranges }

def ShardInfo.attach (rec : ParsedNodeLine) (socketAddress : SocketAddress) (shard : ShardInfo) : ShardInfo :=
  { shard with
    replicas := shard.replicas ++ [⟨rec.id, shard.id, socketAddress, .replica, rec.location⟩]
    isLocal := shard.isLocal || rec.isLocal }

/-- Pass 1: masters become shards. -/
def addMaster (a : Assembly) (rec : ParsedNodeLine) : Assembly :=
  if ¬ rec.isMaster then a
  else match rec.socketAddress with
    | none => if rec.slotRanges = [] then a else { a with isConsistent := false }
    | some socketAddress =>
      let ranges := rec.slotRanges.filter validRange
      { shardMap := updateEntry rec.id (.serve rec socketAddress ranges) a.shardMap
        slotRanges := a.slotRanges ++ ranges.map fun range => ⟨range.1, range.2, rec.id⟩
        localShardId := if rec.isLocal then some rec.id else a.localShardId
        isConsistent := a.isConsistent && rec.slotRanges.all validRange }

/-- Pass 2: replicas are attached to the shard of their master. -/
def attachReplica (a : Assembly) (rec : ParsedNodeLine) : Assembly :=
  if rec.isMaster ∨ ¬ rec.hasMaster then a
  else match rec.socketAddress with
    | none => a
    | some socketAddress =>
      if rec.masterId ∈ a.shardMap.map (·.id) then
        { a with
          shardMap := updateExisting rec.masterId (.attach rec socketAddress) a.shardMap
          localShardId := if rec.isLocal then some rec.masterId else a.localShardId }
      else { a with isConsistent := false }

def assemble (isConsistent : Bool) (records : List ParsedNodeLine) : Assembly :=
  records.foldl attachReplica (records.foldl addMaster (.start isConsistent))

/-- A shard put into the ordered set; one that counts as equal stays. -/
def insertShard (shard : ShardInfo) : List ShardInfo → List ShardInfo
  | [] => [shard]
  | s :: shards =>
    if NodeId.asStr shard.id = NodeId.asStr s.id then s :: shards
    else if NodeId.asStr shard.id < NodeId.asStr s.id then shard :: s :: shards
    else s :: insertShard shard shards

def finalize (shard : ShardInfo) : ShardInfo :=
  { shard with
    primary := shard.primary.map fun primary => { primary with shardId := shard.id }
    replicas := shard.replicas.map fun replica => { replica with shardId := shard.id } }

def shardSet (shards : List ShardInfo) : List ShardInfo :=
  shards.foldl (fun set shard => insertShard (finalize shard) set) []

def buildSlotToShardMap (slotRanges : List SlotRangeInfo) : RangeMap NodeId :=
  slotRanges.foldl (fun m r => m.insert r.startSlot r.endSlot r.shardId) RangeMap.empty

structure ClusterMap where
  localNodeId : NodeId
  ownedSlots : RangeSet
  shards : List ShardInfo
  slotToShardMap : RangeMap NodeId
  isConsistent : Bool

def checkRanges : Nat → List (Run Unit) → Bool
  | expectedNext, [] => expectedNext = numSlots
  | expectedNext, range :: ranges => range.lo = expectedNext && checkRanges ((range.hi + 1) % 65536) ranges

namespace ClusterMap

def getShardBySlot (m : ClusterMap) (slot : Nat) : Option ShardInfo := do
  let shardId ← m.slotToShardMap.get slot
  m.shards.find? fun shard => NodeId.asStr shard.id = NodeId.asStr shardId

def checkClusterMapFull (m : ClusterMap) : Bool := !m.slotToShardMap.isEmpty && checkRanges 0 m.slotToShardMap.ranges

def append (slots other : RangeSet) : RangeSet :=
  other.ranges.foldl (fun slots range => slots.insert range.lo range.hi ()) slots

/-- The map of a text; `order` is that in which the shards leave the hash map. -/
def fromClusterNodes (ipv6 : Ipv6Parser) (order : HashOrder ShardInfo) (text : Text) (myNodeId : NodeId) : ClusterMap :=
  let records := parseRecords ipv6 text myNodeId
  let a := assemble (allParsed ipv6 text myNodeId && noCollision [] records) records
  let localShard := a.localShardId.bind fun id => a.shardMap.find? (·.id = id)
  let m : ClusterMap :=
    { localNodeId := myNodeId
      ownedSlots := match localShard with
        | some shard => append RangeMap.empty shard.ownedSlots
        | none => RangeMap.empty
      shards := shardSet (order.order a.shardMap)
      slotToShardMap := buildSlotToShardMap a.slotRanges
      isConsistent := a.isConsistent }
  { m with isConsistent := m.isConsistent && m.checkClusterMapFull }

end ClusterMap

/-! ### What the lines claim -/

def ParsedNodeLine.Serves (rec : ParsedNodeLine) : Prop := rec.isMaster = true ∧ rec.socketAddress.isSome = true

def ParsedNodeLine.Lists (rec : ParsedNodeLine) (slot : Nat) : Prop :=
  ∃ range ∈ rec.slotRanges, validRange range = true ∧ range.1 ≤ slot ∧ slot ≤ range.2

def IsShard (records : List ParsedNodeLine) (id : NodeId) : Prop := ∃ rec ∈ records, rec.Serves ∧ rec.id = id

def Claims (records : List ParsedNodeLine) (id : NodeId) (slot : Nat) : Prop :=
  ∃ rec ∈ records, rec.Serves ∧ rec.id = id ∧ rec.Lists slot

variable {records : List ParsedNodeLine} {id : NodeId} {slot : Nat}

theorem Claims.isShard (h : Claims records id slot) : IsShard records id := by
  obtain ⟨rec, hrec, hserves, hid, -⟩ := h
  exact ⟨rec, hrec, hserves, hid⟩

theorem Claims.lt (h : Claims records id slot) : slot < numSlots := by
  obtain ⟨rec, -, -, -, range, -, hvalid, -, hle⟩ := h
  simp only [validRange, Bool.and_eq_true, decide_eq_true_eq] at hvalid
  omega

variable {rec : ParsedNodeLine}

theorem isShard_concat : IsShard (records ++ [rec]) id ↔ IsShard records id ∨ rec.Serves ∧ rec.id = id := by
  simp only [IsShard, mem_append, mem_singleton, or_and_right, exists_or, exists_eq_left]

theorem claims_concat :
    Claims (records ++ [rec]) id slot ↔ Claims records id slot ∨ rec.Serves ∧ rec.id = id ∧ rec.Lists slot := by
  simp only [Claims, mem_append, mem_singleton, or_and_right, exists_or, exists_eq_left]

/-! ### Pass 1 and pass 2 -/

/-- What the passes have built of the lines so far. -/
structure Assembled (records : List ParsedNodeLine) (a : Assembly) : Prop where
  nodup : (a.shardMap.map (·.id)).Nodup
  ids : ∀ id, id ∈ a.shardMap.map (·.id) ↔ IsShard records id
  owns : ∀ shard ∈ a.shardMap, ∀ slot, shard.Owns slot ↔ Claims records shard.id slot
  ranges : ∀ id slot, (∃ r ∈ a.slotRanges, r.shardId = id ∧ r.startSlot ≤ slot ∧ slot ≤ r.endSlot)
    ↔ Claims records id slot

theorem Assembled.start (isConsistent : Bool) : Assembled [] (.start isConsistent) where
  nodup := nodup_nil
  ids id := by simp [Assembly.start, IsShard]
  owns shard hshard := by simp [Assembly.start] at hshard
  ranges id slot := by simp [Assembly.start, Claims]

theorem ids_updateEntry {f : ShardInfo → ShardInfo} (hf : ∀ shard, (f shard).id = shard.id)
    (shards : List ShardInfo) : (updateEntry id f shards).map (·.id) =
    if id ∈ shards.map (·.id) then shards.map (·.id) else shards.map (·.id) ++ [id] := by
  induction shards with
  | nil => simp [updateEntry, hf, ShardInfo.new]
  | cons shard shards ih =>
    unfold updateEntry
    by_cases hid : shard.id = id
    · simp [hid, hf]
    · rw [if_neg hid, map_cons, ih, map_cons]
      simp only [mem_cons, Ne.symm hid, false_or]
      split_ifs <;> rfl

variable {shards : List ShardInfo}

theorem mem_updateEntry {f : ShardInfo → ShardInfo}
    (hnodup : (shards.map (·.id)).Nodup) {shard : ShardInfo} (h : shard ∈ updateEntry id f shards) :
    shard ∈ shards ∧ shard.id ≠ id ∨ ∃ old, shard = f old ∧ old.id = id ∧
    (old ∈ shards ∨ old = .new id ∧ id ∉ shards.map (·.id)) := by
  induction shards with
  | nil =>
    rw [updateEntry, mem_singleton] at h
    exact .inr ⟨.new id, h, rfl, .inr ⟨rfl, by simp⟩⟩
  | cons s shards ih =>
    rw [map_cons, nodup_cons] at hnodup
    unfold updateEntry at h
    split_ifs at h with hid
    · rcases mem_cons.mp h with rfl | hmem
      · exact .inr ⟨s, rfl, hid, .inl mem_cons_self⟩
      · refine .inl ⟨mem_cons_of_mem _ hmem, fun heq => hnodup.1 ?_⟩
        rw [hid, ← heq]
        exact mem_map_of_mem hmem
    · rcases mem_cons.mp h with rfl | hmem
      · exact .inl ⟨mem_cons_self, hid⟩
      · rcases ih hnodup.2 hmem with ⟨hold, hne⟩ | ⟨old, rfl, hoid, hold | ⟨hnew, hnot⟩⟩
        · exact .inl ⟨mem_cons_of_mem _ hold, hne⟩
        · exact .inr ⟨old, rfl, hoid, .inl (mem_cons_of_mem _ hold)⟩
        · refine .inr ⟨old, rfl, hoid, .inr ⟨hnew, ?_⟩⟩
          rw [map_cons, mem_cons]
          exact not_or.mpr ⟨Ne.symm hid, hnot⟩

theorem get_ownRanges (ranges : List (Nat × Nat)) (slots : RangeSet) (slot : Nat) :
    ((ownRanges slots ranges).get slot).isSome = true ↔
    (slots.get slot).isSome = true ∨ ∃ range ∈ ranges, range.1 ≤ slot ∧ slot ≤ range.2 := by
  unfold ownRanges
  induction ranges generalizing slots with
  | nil => simp
  | cons range ranges ih =>
    rw [foldl_cons, ih, RangeMap.get_insert]
    by_cases hin : range.1 ≤ slot ∧ slot ≤ range.2
    · simp [hin]
    · simp only [hin, if_false, mem_cons, exists_eq_or_imp, false_or]

theorem serve_owns (rec : ParsedNodeLine) (socketAddress : SocketAddress) (shard : ShardInfo) (slot : Nat) :
    (shard.serve rec socketAddress (rec.slotRanges.filter validRange)).Owns slot ↔ shard.Owns slot ∨
    rec.Lists slot := by
  unfold ShardInfo.Owns ShardInfo.serve ParsedNodeLine.Lists
  rw [get_ownRanges]
  simp only [mem_filter, and_assoc]

theorem Assembled.keep {a a' : Assembly} (h : Assembled records a)
    (hserves : ¬ rec.Serves) (hmap : a'.shardMap = a.shardMap)
    (hranges : a'.slotRanges = a.slotRanges) : Assembled (records ++ [rec]) a' where
  nodup := by rw [hmap]; exact h.nodup
  ids id := by rw [hmap, h.ids, isShard_concat]; simp [hserves]
  owns shard hshard slot := by rw [hmap] at hshard; rw [h.owns shard hshard, claims_concat]; simp [hserves]
  ranges id slot := by rw [hranges, h.ranges, claims_concat]; simp [hserves]

theorem Assembled.serve {a a' : Assembly} (h : Assembled records a) (hserves : rec.Serves)
    {socketAddress : SocketAddress}
    (hmap : a'.shardMap = updateEntry rec.id (.serve rec socketAddress (rec.slotRanges.filter validRange)) a.shardMap)
    (hranges : a'.slotRanges = a.slotRanges ++ (rec.slotRanges.filter validRange).map fun range =>
    ⟨range.1, range.2, rec.id⟩) :
    Assembled (records ++ [rec]) a' := by
  have hids : a'.shardMap.map (·.id) =
      if rec.id ∈ a.shardMap.map (·.id) then a.shardMap.map (·.id) else a.shardMap.map (·.id) ++ [rec.id] := by
    rw [hmap]
    exact ids_updateEntry (f := .serve rec socketAddress (rec.slotRanges.filter validRange)) (fun _ => rfl) a.shardMap
  refine ⟨?_, fun id => ?_, fun shard hshard slot => ?_, fun id slot => ?_⟩
  · rw [hids]
    split_ifs with hmem
    · exact h.nodup
    · exact concat_eq_append ▸ List.Nodup.concat hmem h.nodup
  · rw [hids, isShard_concat, ← h.ids]
    split_ifs with hmem
    · constructor
      · exact Or.inl
      · rintro (hold | ⟨-, rfl⟩)
        · exact hold
        · exact hmem
    · simp only [mem_append, mem_singleton, hserves, true_and, eq_comm]
  · rw [claims_concat]
    rw [hmap] at hshard
    rcases mem_updateEntry h.nodup hshard with ⟨hold, hne⟩ | ⟨old, rfl, hid, hold⟩
    · rw [h.owns shard hold]
      simp [Ne.symm hne]
    · rw [serve_owns]
      have hself : (ShardInfo.serve rec socketAddress (rec.slotRanges.filter validRange) old).id = rec.id := hid
      simp only [hself, hserves, true_and]
      refine or_congr ?_ Iff.rfl
      rcases hold with hold | ⟨rfl, hnot⟩
      · rw [← hid]
        exact h.owns old hold slot
      · have hnone : ¬ Claims records rec.id slot := fun hc => hnot ((h.ids _).mpr hc.isShard)
        simp [ShardInfo.Owns, ShardInfo.new, hnone]
  · rw [hranges, claims_concat, ← h.ranges]
    simp only [mem_append, or_and_right, exists_or, mem_map, hserves, true_and]
    refine or_congr Iff.rfl ⟨?_, ?_⟩
    · rintro ⟨_, ⟨range, hrange, rfl⟩, hid, hle⟩
      obtain ⟨hmem, hvalid⟩ := mem_filter.mp hrange
      exact ⟨hid, range, hmem, hvalid, hle⟩
    · rintro ⟨hid, range, hmem, hvalid, hle⟩
      exact ⟨_, ⟨range, mem_filter.mpr ⟨hmem, hvalid⟩, rfl⟩, hid, hle⟩

theorem Assembled.addMaster {a : Assembly} (h : Assembled records a)
    (rec : ParsedNodeLine) : Assembled (records ++ [rec]) (addMaster a rec) := by
  unfold Cluster.addMaster
  by_cases hmaster : rec.isMaster = true
  · rw [if_neg (not_not.mpr hmaster)]
    cases haddr : rec.socketAddress with
    | none =>
      have hserves : ¬ rec.Serves := fun hs => by rw [ParsedNodeLine.Serves, haddr] at hs; simp at hs
      dsimp only
      split_ifs
      · exact h.keep hserves rfl rfl
      · exact h.keep hserves rfl rfl
    | some socketAddress => exact h.serve ⟨hmaster, by rw [haddr]; rfl⟩ rfl rfl
  · rw [if_pos hmaster]
    exact h.keep (fun hs => hmaster hs.1) rfl rfl

/-- Replicas change neither the ids nor the slots of the shards. -/
theorem Assembled.attachReplica {a : Assembly} (h : Assembled records a)
    (rec : ParsedNodeLine) : Assembled records (attachReplica a rec) := by
  unfold Cluster.attachReplica
  by_cases hskip : rec.isMaster = true ∨ ¬ rec.hasMaster = true
  · rw [if_pos hskip]
    exact h
  rw [if_neg hskip]
  cases rec.socketAddress with
  | none => exact h
  | some socketAddress =>
    by_cases hknown : rec.masterId ∈ a.shardMap.map (·.id)
    · have hentry : ∀ shard : ShardInfo,
          (if shard.id = rec.masterId then ShardInfo.attach rec socketAddress shard else shard).id = shard.id := by
        intro shard
        split_ifs <;> rfl
      have hids : (updateExisting rec.masterId (.attach rec socketAddress) a.shardMap).map (·.id)
          = a.shardMap.map (·.id) := by
        rw [updateExisting, map_map]
        exact map_congr_left fun shard _ => hentry shard
      simp only [if_pos hknown]
      refine ⟨?_, fun id => ?_, fun shard hshard slot => ?_, h.ranges⟩
      · exact hids ▸ h.nodup
      · exact hids ▸ h.ids id
      · obtain ⟨old, hold, rfl⟩ := mem_map.mp hshard
        rw [hentry, ← h.owns old hold]
        split_ifs <;> rfl
    · simp only [if_neg hknown]
      exact { h with }

theorem assembled_assemble (isConsistent : Bool) (records : List ParsedNodeLine) :
    Assembled records (assemble isConsistent records) := by
  have hmasters : Assembled records (records.foldl Cluster.addMaster (.start isConsistent)) := by
    induction records using List.reverseRecOn with
    | nil => exact .start isConsistent
    | append_singleton records rec ih =>
      rw [foldl_append]
      exact ih.addMaster rec
  have hreplicas : ∀ (rest : List ParsedNodeLine) (a : Assembly), Assembled records a →
      Assembled records (rest.foldl Cluster.attachReplica a) := by
    intro rest
    induction rest with
    | nil => exact fun a h => h
    | cons rec rest ih => exact fun a h => ih _ (h.attachReplica rec)
  exact hreplicas records _ hmasters

/-! ### The ordered set of the shards -/

/-- In the order of what the ids count as, and each only once. -/
def Sorted (set : List ShardInfo) : Prop := set.Pairwise fun a b => NodeId.asStr a.id < NodeId.asStr b.id

theorem mem_insertShard {shard s : ShardInfo} {set : List ShardInfo} (h : s ∈ insertShard shard set) :
    s = shard ∨ s ∈ set := by
  induction set with
  | nil => exact .inl (mem_singleton.mp h)
  | cons t set ih =>
    unfold insertShard at h
    split_ifs at h
    · exact .inr h
    · exact mem_cons.mp h
    · rcases mem_cons.mp h with rfl | hs
      · exact .inr mem_cons_self
      · exact (ih hs).imp_right (mem_cons_of_mem _)

theorem subset_insertShard (shard : ShardInfo) (set : List ShardInfo) : set ⊆ insertShard shard set := by
  intro s hs
  induction set with
  | nil => cases hs
  | cons t set ih =>
    unfold insertShard
    split_ifs
    · exact hs
    · exact mem_cons_of_mem _ hs
    · rcases mem_cons.mp hs with rfl | hs
      · exact mem_cons_self
      · exact mem_cons_of_mem _ (ih hs)

theorem insertShard_has (shard : ShardInfo) (set : List ShardInfo) :
    shard ∈ insertShard shard set ∨ ∃ s ∈ set, NodeId.asStr s.id = NodeId.asStr shard.id := by
  induction set with
  | nil => exact .inl (mem_singleton_self _)
  | cons t set ih =>
    unfold insertShard
    split_ifs with heq
    · exact .inr ⟨t, mem_cons_self, heq.symm⟩
    · exact .inl mem_cons_self
    · rcases ih with hmem | ⟨s, hs, hse⟩
      · exact .inl (mem_cons_of_mem _ hmem)
      · exact .inr ⟨s, mem_cons_of_mem _ hs, hse⟩

theorem Sorted.insertShard {set : List ShardInfo} (h : Sorted set) (shard : ShardInfo) :
    Sorted (insertShard shard set) := by
  induction set with
  | nil => exact pairwise_singleton ..
  | cons t set ih =>
    obtain ⟨ht, hset⟩ := pairwise_cons.mp h
    unfold Cluster.insertShard
    split_ifs with heq hlt
    · exact h
    · refine pairwise_cons.mpr ⟨fun s hs => ?_, h⟩
      rcases mem_cons.mp hs with rfl | hs
      · exact hlt
      · exact hlt.trans (ht s hs)
    · refine pairwise_cons.mpr ⟨fun s hs => ?_, ih hset⟩
      rcases mem_insertShard hs with rfl | hs
      · exact lt_of_le_of_ne (not_lt.mp hlt) (Ne.symm heq)
      · exact ht s hs

/-- The set that the shards make, in whatever order they come. -/
structure SetOf (shards set : List ShardInfo) : Prop where
  sorted : Sorted set
  sound : ∀ s ∈ set, ∃ shard ∈ shards, s = finalize shard
  complete : ∀ shard ∈ shards, ∃ s ∈ set, NodeId.asStr s.id = NodeId.asStr shard.id

theorem setOf_shardSet (shards : List ShardInfo) : SetOf shards (shardSet shards) := by
  unfold shardSet
  induction shards using List.reverseRecOn with
  | nil => exact ⟨List.Pairwise.nil, by simp, by simp⟩
  | append_singleton shards shard ih =>
    rw [foldl_append]
    refine ⟨ih.sorted.insertShard _, fun s hs => ?_, fun x hx => ?_⟩
    · rcases mem_insertShard hs with rfl | hs
      · exact ⟨shard, by simp, rfl⟩
      · obtain ⟨x, hx, rfl⟩ := ih.sound s hs
        exact ⟨x, mem_append_left _ hx, rfl⟩
    · rcases mem_append.mp hx with hx | hx
      · obtain ⟨s, hs, hse⟩ := ih.complete x hx
        exact ⟨s, subset_insertShard _ _ hs, hse⟩
      · obtain rfl := mem_singleton.mp hx
        rcases insertShard_has (finalize x) (shards.foldl (fun set shard => insertShard (finalize shard) set) [])
          with hmem | ⟨s, hs, hse⟩
        · exact ⟨_, hmem, rfl⟩
        · exact ⟨s, subset_insertShard _ _ hs, hse⟩

theorem SetOf.eq_of_asStr {set : List ShardInfo} (h : SetOf shards set) {s t : ShardInfo} (hs : s ∈ set)
    (ht : t ∈ set) (heq : NodeId.asStr s.id = NodeId.asStr t.id) : s = t := by
  have hnodup : (set.map fun shard => NodeId.asStr shard.id).Nodup :=
    pairwise_map.mpr (h.sorted.imp fun hlt => hlt.ne)
  exact inj_on_of_nodup_map hnodup hs ht heq

theorem subset_foldl_insertShard (rest set : List ShardInfo) :
    set ⊆ rest.foldl (fun set shard => insertShard (finalize shard) set) set := by
  induction rest generalizing set with
  | nil => exact List.Subset.refl _
  | cons shard rest ih => exact List.Subset.trans (subset_insertShard _ _) (ih _)

theorem mem_shardSet_first (a : ShardInfo) (rest : List ShardInfo) : finalize a ∈ shardSet (a :: rest) :=
  subset_foldl_insertShard rest [finalize a] (mem_singleton_self _)

theorem mem_shardSet_second {a b : ShardInfo} (rest : List ShardInfo)
    (hne : NodeId.asStr a.id ≠ NodeId.asStr b.id) : finalize b ∈ shardSet (a :: b :: rest) := by
  refine subset_foldl_insertShard rest (insertShard (finalize b) [finalize a]) ?_
  rcases insertShard_has (finalize b) [finalize a] with hmem | ⟨s, hs, hse⟩
  · exact hmem
  · obtain rfl := mem_singleton.mp hs
    exact absurd hse hne

theorem exists_perm_first {a : ShardInfo} (ha : a ∈ shards) : ∃ rest, (a :: rest).Perm shards := by
  obtain ⟨front, back, rfl⟩ := append_of_mem ha
  exact ⟨front ++ back, perm_middle.symm⟩

/-! ### Lookup -/

theorem get_buildSlotToShardMap (ranges : List SlotRangeInfo) (slot : Nat) :
    (∀ id, (buildSlotToShardMap ranges).get slot = some id →
    ∃ r ∈ ranges, r.shardId = id ∧ r.startSlot ≤ slot ∧ slot ≤ r.endSlot) := by
  unfold buildSlotToShardMap
  induction ranges using List.reverseRecOn with
  | nil => intro id hid; simp at hid
  | append_singleton ranges r ih =>
    intro id hid
    rw [foldl_append, foldl_cons, foldl_nil, RangeMap.get_insert] at hid
    split_ifs at hid with hin
    · exact ⟨r, by simp, Option.some.inj hid, hin⟩
    · obtain ⟨r', hr', h⟩ := ih id hid
      exact ⟨r', mem_append_left _ hr', h⟩

theorem lookup_of_checkRanges {expectedNext : Nat} {ranges : List (Run Unit)}
    (hordered : Run.OrderedFrom expectedNext ranges) (hcheck : checkRanges expectedNext ranges = true)
    (hle : expectedNext ≤ slot) (hlt : slot < numSlots) : (Run.lookup ranges slot).isSome = true := by
  induction ranges generalizing expectedNext with
  | nil =>
    simp only [checkRanges, decide_eq_true_eq] at hcheck
    omega
  | cons range ranges ih =>
    simp only [checkRanges, Bool.and_eq_true, decide_eq_true_eq] at hcheck
    rw [Run.lookup]
    split_ifs with hin
    · rfl
    · -- the slot is behind this range, which therefore ends before the last slot
      have hbehind : range.hi + 1 ≤ slot := by omega
      have hmod : (range.hi + 1) % 65536 = range.hi + 1 := by unfold numSlots at hlt; omega
      exact ih hordered.2.2 (hmod ▸ hcheck.2) hbehind

theorem ClusterMap.get_isSome_of_full {m : ClusterMap} (h : m.checkClusterMapFull = true)
    (hlt : slot < numSlots) : ∃ id, m.slotToShardMap.get slot = some id := by
  have hlookup := lookup_of_checkRanges m.slotToShardMap.ordered_ranges (Bool.and_eq_true_iff.mp h).2
    (Nat.zero_le slot) hlt
  rw [RangeMap.lookup_ranges, Option.isSome_map] at hlookup
  exact Option.isSome_iff_exists.mp hlookup

theorem ClusterMap.getShardBySlot_eq {m : ClusterMap} {shard : ShardInfo}
    (hget : m.slotToShardMap.get slot = some id) (h : m.getShardBySlot slot = some shard) :
    shard ∈ m.shards ∧ NodeId.asStr shard.id = NodeId.asStr id := by
  unfold getShardBySlot at h
  rw [hget, Option.bind_eq_bind, Option.bind_some] at h
  have hfound := find?_some h
  exact ⟨mem_of_find?_eq_some h, of_decide_eq_true hfound⟩

/-! ### One owner for each slot -/

/-- Each slot has exactly one owner, and the lookup finds it. -/
structure OneOwner (m : ClusterMap) : Prop where
  disjoint : ∀ a ∈ m.shards, ∀ b ∈ m.shards, a ≠ b → ∀ slot, ¬ (a.Owns slot ∧ b.Owns slot)
  all : ∀ slot, (∃ shard ∈ m.shards, shard.Owns slot) ↔ slot < numSlots
  lookup : ∀ slot < numSlots, ∃ shard ∈ m.shards, m.getShardBySlot slot = some shard ∧ shard.Owns slot

/-- Ids that claim a common slot count as the same, and ids that count as the same claim the same slots. -/
def NoSlotClaimedTwice (records : List ParsedNodeLine) : Prop :=
  ∀ id id', IsShard records id → IsShard records id' → ∀ slot, Claims records id slot →
    (Claims records id' slot ↔ NodeId.asStr id = NodeId.asStr id')

/-- What a map made of the lines is, in whatever order the shards were taken. -/
structure MapOf (records : List ParsedNodeLine) (m : ClusterMap) : Prop where
  owns : ∀ shard ∈ m.shards, ∀ slot, shard.Owns slot ↔ Claims records shard.id slot
  isShard : ∀ shard ∈ m.shards, IsShard records shard.id
  complete : ∀ id, IsShard records id → ∃ shard ∈ m.shards, NodeId.asStr shard.id = NodeId.asStr id
  unique : ∀ a ∈ m.shards, ∀ b ∈ m.shards, NodeId.asStr a.id = NodeId.asStr b.id → a = b
  get : ∀ slot id, m.slotToShardMap.get slot = some id → Claims records id slot
  full : m.isConsistent = true → ∀ slot < numSlots, ∃ id, m.slotToShardMap.get slot = some id

section

variable (ipv6 : Ipv6Parser) (text : Text) (myNodeId : NodeId)

def assembly : Assembly :=
  assemble (allParsed ipv6 text myNodeId && noCollision [] (parseRecords ipv6 text myNodeId))
    (parseRecords ipv6 text myNodeId)

theorem mapOf_fromClusterNodes (order : HashOrder ShardInfo) :
    MapOf (parseRecords ipv6 text myNodeId) (ClusterMap.fromClusterNodes ipv6 order text myNodeId) := by
  have ha : Assembled (parseRecords ipv6 text myNodeId) (assembly ipv6 text myNodeId) := assembled_assemble _ _
  have hperm := order.perm (assembly ipv6 text myNodeId).shardMap
  have hset : SetOf (order.order (assembly ipv6 text myNodeId).shardMap)
    (ClusterMap.fromClusterNodes ipv6 order text myNodeId).shards := setOf_shardSet _
  refine ⟨fun shard hshard slot => ?_, fun shard hshard => ?_, fun id hid => ?_, fun a ha b hb =>
    hset.eq_of_asStr ha hb,
    fun slot id hget => ?_, fun hc slot hlt => ?_⟩
  · obtain ⟨old, hold, rfl⟩ := hset.sound shard hshard
    exact ha.owns old (hperm.mem_iff.mp hold) slot
  · obtain ⟨old, hold, rfl⟩ := hset.sound shard hshard
    exact (ha.ids old.id).mp (mem_map_of_mem (hperm.mem_iff.mp hold))
  · obtain ⟨shard, hshard, rfl⟩ := mem_map.mp ((ha.ids id).mpr hid)
    exact hset.complete shard (hperm.mem_iff.mpr hshard)
  · exact (ha.ranges id slot).mp (get_buildSlotToShardMap _ slot id hget)
  · exact ClusterMap.get_isSome_of_full (m := { ClusterMap.fromClusterNodes ipv6 order text myNodeId with })
      (Bool.and_eq_true_iff.mp hc).2 hlt

end

theorem MapOf.oneOwner {m : ClusterMap} (h : MapOf records m)
    (hc : m.isConsistent = true) (honce : NoSlotClaimedTwice records) : OneOwner m := by
  have hlookup : ∀ slot < numSlots, ∃ shard ∈ m.shards, m.getShardBySlot slot = some shard ∧ shard.Owns slot := by
    intro slot hlt
    obtain ⟨id, hget⟩ := h.full hc slot hlt
    have hclaims := h.get slot id hget
    obtain ⟨shard, hshard, hstr⟩ := h.complete id hclaims.isShard
    obtain ⟨found, hfound⟩ := Option.isSome_iff_exists.mp
      (find?_isSome (p := fun s => decide (NodeId.asStr s.id = NodeId.asStr id)).mpr
        ⟨shard, hshard, decide_eq_true hstr⟩)
    have hsome : m.getShardBySlot slot = some found := by
      unfold ClusterMap.getShardBySlot
      rw [hget]
      exact hfound
    obtain ⟨hmem, heq⟩ := ClusterMap.getShardBySlot_eq hget hsome
    refine ⟨found, hmem, hsome, (h.owns found hmem slot).mpr ?_⟩
    exact (honce id found.id hclaims.isShard (h.isShard found hmem) slot hclaims).mpr heq.symm
  refine ⟨fun a ha b hb hne slot hboth => hne (h.unique a ha b hb ?_), fun slot => ⟨?_, fun hlt => ?_⟩, hlookup⟩
  · have hclaims := (h.owns a ha slot).mp hboth.1
    exact (honce a.id b.id (h.isShard a ha) (h.isShard b hb) slot hclaims).mp ((h.owns b hb slot).mp hboth.2)
  · rintro ⟨shard, hshard, howns⟩
    exact ((h.owns shard hshard slot).mp howns).lt
  · obtain ⟨shard, hshard, -, howns⟩ := hlookup slot hlt
    exact ⟨shard, hshard, howns⟩

/-- If the owners are unique whatever the order of the hash map, no slot is claimed twice. -/
theorem noSlotClaimedTwice_of_oneOwner (ipv6 : Ipv6Parser) (text : Text) (myNodeId : NodeId)
    (h : ∀ order, OneOwner (ClusterMap.fromClusterNodes ipv6 order text myNodeId)) :
    NoSlotClaimedTwice (parseRecords ipv6 text myNodeId) := by
  have ha : Assembled (parseRecords ipv6 text myNodeId) (assembly ipv6 text myNodeId) := assembled_assemble _ _
  -- two ids that count as different and claim a common slot may both come first
  have hsame : ∀ id id' slot, Claims (parseRecords ipv6 text myNodeId) id slot →
      Claims (parseRecords ipv6 text myNodeId) id' slot → NodeId.asStr id = NodeId.asStr id' := by
    intro id id' slot hid hid'
    by_contra hne
    obtain ⟨a, hamem, rfl⟩ := mem_map.mp ((ha.ids id).mpr hid.isShard)
    obtain ⟨b, hbmem, rfl⟩ := mem_map.mp ((ha.ids id').mpr hid'.isShard)
    obtain ⟨rest, hrest⟩ := exists_perm_first hamem
    have hbrest : b ∈ rest := by
      rcases mem_cons.mp (hrest.mem_iff.mpr hbmem) with rfl | hb
      · exact absurd rfl hne
      · exact hb
    obtain ⟨rest', hrest'⟩ := exists_perm_first hbrest
    obtain ⟨order, horder⟩ := HashOrder.exists_order ((hrest'.cons a).trans hrest)
    have hshards : (ClusterMap.fromClusterNodes ipv6 order text myNodeId).shards = shardSet (a :: b :: rest') :=
      congrArg shardSet horder
    have hids : (finalize a).id ≠ (finalize b).id := fun heq => hne (congrArg NodeId.asStr heq)
    exact (h order).disjoint (finalize a) (hshards ▸ mem_shardSet_first a _) (finalize b)
      (hshards ▸ mem_shardSet_second rest' hne) (fun heq => hids (congrArg ShardInfo.id heq)) slot
      ⟨(ha.owns a hamem slot).mpr hid, (ha.owns b hbmem slot).mpr hid'⟩
  intro id id' hshard hshard' slot hclaims
  refine ⟨hsame id id' slot hclaims, fun heq => ?_⟩
  -- the shard of `id'` may come first, and is then what the lookup finds
  obtain ⟨b, hbmem, rfl⟩ := mem_map.mp ((ha.ids id').mpr hshard')
  obtain ⟨rest, hrest⟩ := exists_perm_first hbmem
  obtain ⟨order, horder⟩ := HashOrder.exists_order hrest
  have hshards : (ClusterMap.fromClusterNodes ipv6 order text myNodeId).shards = shardSet (b :: rest) :=
    congrArg shardSet horder
  have hmap := mapOf_fromClusterNodes ipv6 text myNodeId order
  obtain ⟨shard, hmem, hget, howns⟩ := (h order).lookup slot hclaims.lt
  have hown := (hmap.owns shard hmem slot).mp howns
  have hstr : NodeId.asStr shard.id = NodeId.asStr (finalize b).id :=
    (hsame shard.id id slot hown hclaims).trans heq
  obtain rfl : shard = finalize b := hmap.unique _ hmem _ (hshards ▸ mem_shardSet_first b rest) hstr
  exact hown

/-- In a consistent map each slot has one owner, whatever the order of the hash map, exactly if the
masters' lines claim no slot twice. -/
theorem consistent_oneOwner_iff (ipv6 : Ipv6Parser) (text : Text) (myNodeId : NodeId)
    (hc : ∀ order, (ClusterMap.fromClusterNodes ipv6 order text myNodeId).isConsistent = true) :
    (∀ order, OneOwner (ClusterMap.fromClusterNodes ipv6 order text myNodeId)) ↔
      NoSlotClaimedTwice (parseRecords ipv6 text myNodeId) :=
  ⟨noSlotClaimedTwice_of_oneOwner ipv6 text myNodeId, fun honce order =>
    (mapOf_fromClusterNodes ipv6 text myNodeId order).oneOwner (hc order) honce⟩

theorem isConsistent_order (ipv6 : Ipv6Parser) (text : Text) (myNodeId : NodeId) (order order' : HashOrder ShardInfo) :
    (ClusterMap.fromClusterNodes ipv6 order text myNodeId).isConsistent =
      (ClusterMap.fromClusterNodes ipv6 order' text myNodeId).isConsistent := rfl

section

def nodeOne : NodeId := List.replicate 40 '1'

def nodeTwo : NodeId := List.replicate 40 '2'

def twoShards : Text :=
  nodeOne ++ " 127.0.0.1:7001@17001 myself,master - 0 0 1 connected 0-8191\n".toList
    ++ nodeTwo ++ " 127.0.0.1:7002@17002 master - 0 0 2 connected 8192-16383\n".toList

def twoOwners : Text :=
  nodeOne ++ " 127.0.0.1:7001@17001 myself,master - 0 0 1 connected 0-16383\n".toList
    ++ nodeTwo ++ " 127.0.0.1:7002@17002 master - 0 0 2 connected 0-16383\n".toList

theorem consistent_oneOwner_iff_twoShards :
    (∀ order, OneOwner (ClusterMap.fromClusterNodes (fun _ => none) order twoShards nodeOne)) ↔
      NoSlotClaimedTwice (parseRecords (fun _ => none) twoShards nodeOne) :=
  consistent_oneOwner_iff _ twoShards nodeOne fun order => by
    rw [isConsistent_order _ _ _ order .insertion]
    decide +kernel

/-- The map of two masters that claim the same slots is consistent, and both of them own slot 0. -/
theorem consistent_with_two_owners :
    (ClusterMap.fromClusterNodes (fun _ => none) .insertion twoOwners nodeOne).isConsistent = true ∧
      ¬ OneOwner (ClusterMap.fromClusterNodes (fun _ => none) .insertion twoOwners nodeOne) := by
  refine ⟨by decide +kernel, fun h => ?_⟩
  have hshards : (ClusterMap.fromClusterNodes (fun _ => none) .insertion twoOwners nodeOne).shards.map
      (fun shard => (shard.id, (shard.ownedSlots.get 0).isSome)) = [(nodeOne, true), (nodeTwo, true)] := by
    decide +kernel
  have hone := hshards ▸ mem_cons_self (a := (nodeOne, true)) (l := [(nodeTwo, true)])
  have htwo := hshards ▸ mem_cons_of_mem (nodeOne, true) (mem_singleton_self (nodeTwo, true))
  obtain ⟨a, ha, hae⟩ := mem_map.mp hone
  obtain ⟨b, hb, hbe⟩ := mem_map.mp htwo
  obtain ⟨haid, haowns⟩ := Prod.mk.inj hae
  obtain ⟨hbid, hbowns⟩ := Prod.mk.inj hbe
  refine h.disjoint a ha b hb (fun hab => ?_) 0 ⟨haowns, hbowns⟩
  rw [hab, hbid] at haid
  exact absurd haid (by decide)

end

end ValkeyTimeSeries.Cluster
