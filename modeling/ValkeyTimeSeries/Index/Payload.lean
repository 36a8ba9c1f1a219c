/-
Index/Payload.lean

The RDB aux payload of the index (`series/index/persistence.rs`): the frame around the index bodies, and what
a payload from anywhere can make of them.

Design.  Two judgements go through the whole reader: what it returns is consistent (`Sound`), and what it
allocates is paid for by the bytes it has read.  Each label list is checked against `all_postings`; nothing
checks the lists or `all_postings` against the id directory.  What a payload says is read by a reader of its
own, which takes the fields off the bytes and checks nothing (`payloadFields`); the ids of the lists have keys
exactly where the directory field of each section names them (`Covered`).
-/
import ValkeyTimeSeries.Index.Serialization

namespace ValkeyTimeSeries

open MeteredReader

namespace Postings

/-! ### The frame -/

section Frame

variable [BitmapCodec] [HeapSizes]

def indexAuxMagic : Bytes := [0x54, 0x53, 0x49, 0x58]

def indexAuxVersion : BitVec 8 := 1

def tryReadByteSliceExact (len : Nat) : StateT Bytes (Except String) Bytes := fun buf =>
  if buf.length < len then .error s!"not enough bytes: {buf.length} available, {len} requested"
  else .ok (buf.take len, buf.drop len)

def deserializePostingsSection (sections : List (DbId × Postings)) : Decoder (List (DbId × Postings)) := do
  let db ← Decoder.uvarint
  require (db.toNat < 2 ^ 31) s!"invalid db number {db.toNat}"
  let postings ← deserialize
  allocate HeapSizes.element
  pure (sections ++ [((db.toNat : Int), postings)])

def parseAuxPayload : Decoder (List (DbId × Postings)) := do
  let magic ← lift id (tryReadByteSliceExact indexAuxMagic.length)
  require (magic = indexAuxMagic) "bad magic"
  let version ← Decoder.u8
  require (version = indexAuxVersion)
    s!"unsupported index payload version {version.toNat} (expected {indexAuxVersion.toNat})"
  let sectionCount ← Decoder.uvarint
  allocate (min sectionCount.toNat 16 * HeapSizes.element)
  let sections ← iterate sectionCount.toNat deserializePostingsSection []
  let trailing ← remaining
  require (trailing = 0) s!"{trailing} trailing bytes after payload"
  pure sections

end Frame

/-! ### What is loaded -/

/-- Every list has an id, its ids are live, and its key is well-formed text. -/
def Sound (p : Postings) : Prop :=
  ∀ key bitmap, p.labelIndex.get? key = some bitmap →
    bitmap ≠ ∅ ∧ bitmap ⊆ p.allPostings ∧ Utf8.valid key.text.bytes = true

section Loaded

variable [BitmapCodec] [HeapSizes]

def LabelAcc.Sound (allPostings : PostingsBitmap) (acc : LabelAcc) : Prop :=
  ∀ key bitmap, acc.labelIndex.get? key = some bitmap → bitmap ≠ ∅ ∧ bitmap ⊆ allPostings

theorem readEntry_sound {keyBudget : Nat} {allPostings : PostingsBitmap} {group : Bytes} {acc : LabelAcc}
    (hacc : acc.Sound allPostings) : Ensures (readEntry keyBudget allPostings group acc) (·.Sound allPostings) := by
  refine (Ensures.trivial _).bind fun suffix _ => (Ensures.trivial _).bind fun _ _ =>
    (Ensures.trivial _).bind fun _ _ => (Ensures.trivial _).bind fun _ _ => (Ensures.trivial _).bind fun _ _ =>
    (Ensures.trivial _).bind fun bitmap _ => (Ensures.require _ _).bind fun _ hne =>
    (Ensures.require _ _).bind fun _ hsub => (Ensures.trivial _).bind fun _ _ => (Ensures.trivial _).bind fun _ _ =>
    Ensures.pure ?_
  intro key bitmap' hget
  rw [SortedMap.get?_insert] at hget
  split at hget
  · cases hget
    exact ⟨hne, hsub⟩
  · exact hacc key bitmap' hget

theorem readEntries_sound {keyBudget : Nat} {allPostings : PostingsBitmap} (groups : List (Bytes × Nat))
    {acc : LabelAcc} (hacc : acc.Sound allPostings) :
    Ensures (readEntries keyBudget allPostings groups acc) (·.Sound allPostings) := by
  induction groups generalizing acc with
  | nil => exact Ensures.pure hacc
  | cons group groups ih =>
    exact (Ensures.iterate (fun acc hacc => readEntry_sound hacc) group.2 hacc).bind fun acc hacc => ih hacc

theorem deserialize_sound : Ensures deserialize Sound := by
  refine (Ensures.trivial _).bind fun _ _ => (Ensures.trivial _).bind fun _ _ => (Ensures.trivial _).bind fun _ _ =>
    (Ensures.trivial _).bind fun allPostings _ => ?_
  refine Ensures.bind (Q := (·.Sound allPostings)) ?_ fun labels hlabels => (Ensures.trivial _).bind fun _ _ =>
    Ensures.pure fun key bitmap hget => ?_
  · refine (Ensures.trivial _).bind fun _ _ => (Ensures.trivial _).bind fun _ _ => (Ensures.trivial _).bind fun _ _ =>
      (Ensures.trivial _).bind fun groups _ => (Ensures.trivial _).bind fun _ _ => readEntries_sound groups ?_
    intro key bitmap hget
    cases hget
  · exact ⟨(hlabels key bitmap hget).1, (hlabels key bitmap hget).2, key.text.valid⟩

theorem parseAuxPayload_ensures : Ensures parseAuxPayload fun sections => ∀ e ∈ sections, e.2.Sound := by
  refine (Ensures.trivial _).bind fun _ _ => (Ensures.trivial _).bind fun _ _ => (Ensures.trivial _).bind fun _ _ =>
    (Ensures.trivial _).bind fun _ _ => (Ensures.trivial _).bind fun count _ => (Ensures.trivial _).bind fun _ _ => ?_
  refine (Ensures.iterate (R := fun sections => ∀ e ∈ sections, e.2.Sound) (fun sections hsecs => ?_) count.toNat
    (by simp)).bind fun sections hsecs => (Ensures.trivial _).bind fun _ _ => (Ensures.trivial _).bind fun _ _ =>
      Ensures.pure hsecs
  refine (Ensures.trivial _).bind fun _ _ => (Ensures.trivial _).bind fun _ _ => deserialize_sound.bind fun p hp =>
    (Ensures.trivial _).bind fun _ _ => Ensures.pure fun e he => ?_
  rcases List.mem_append.mp he with he | he
  · exact hsecs e he
  · rw [List.mem_singleton.mp he]
    exact hp

end Loaded

/-! ### The fields of a payload -/

namespace Field

def u8 : PlainReader (BitVec 8) (BitVec 8) := fun buf => (tryReadU8 buf).toOption

def uvarint : PlainReader (BitVec 8) (BitVec 64) := fun buf => (tryReadUvarint buf).toOption

def byteSlice : PlainReader (BitVec 8) Bytes := fun buf => (tryReadByteSlice buf).toOption

/-- A label group: its name, and how many lists it has. -/
def group : PlainReader (BitVec 8) (Bytes × Nat) := do
  let name ← byteSlice
  let count ← uvarint
  pure (name, count.toNat)

/-- An id, as the distance from the one before it, and its key. -/
def seriesKey : PlainReader (BitVec 8) (BitVec 64 × KeyType) := do
  let delta ← uvarint
  let key ← byteSlice
  pure (delta, key)

section

variable [BitmapCodec]

def bitmap : PlainReader (BitVec 8) PostingsBitmap := do
  let blob ← byteSlice
  fun buf => (BitmapCodec.decode blob).map (·, buf)

def list (group : Bytes) : PlainReader (BitVec 8) (Bytes × PostingsBitmap) := do
  let suffix ← byteSlice
  let ids ← bitmap
  pure (group ++ suffix, ids)

def lists : List (Bytes × Nat) → PlainReader (BitVec 8) (List (Bytes × PostingsBitmap))
  | [] => pure []
  | (name, count) :: groups => do
      let front ← (list name).times count
      let back ← lists groups
      pure (front ++ back)

end

end Field

/-- What a section says of one database: its label lists and its id directory. -/
structure SectionFields where
  lists : List (Bytes × PostingsBitmap)
  directory : List (BitVec 64 × KeyType)

namespace SectionFields

/-- The list written last under a key. -/
def lastList (lists : List (Bytes × PostingsBitmap)) (key : IndexKey) : Option PostingsBitmap :=
  (lists.reverse.find? fun list => IndexKey.fromBytes list.1 = key).map Prod.snd

def directoryIds (prev : Nat) : List (BitVec 64 × KeyType) → List SeriesRef
  | [] => []
  | (delta, _) :: directory =>
    Fin.ofNat _ (prev + delta.toNat) :: directoryIds (prev + delta.toNat) directory

/-- The directory names every id of every list. -/
def Covered (fields : SectionFields) : Prop :=
  ∀ list ∈ fields.lists, ∀ ids ∈ lastList fields.lists (.fromBytes list.1), ∀ id ∈ ids,
    id ∈ directoryIds 0 fields.directory

theorem lastList_concat (lists : List (Bytes × PostingsBitmap)) (list : Bytes × PostingsBitmap) (key : IndexKey) :
    lastList (lists ++ [list]) key = if key = .fromBytes list.1 then some list.2 else lastList lists key := by
  rw [lastList, List.reverse_concat, List.find?_cons]
  by_cases hkey : IndexKey.fromBytes list.1 = key
  · simp [hkey]
  · simp [hkey, Ne.symm hkey, lastList]

theorem directoryIds_concat (prev : Nat) (directory : List (BitVec 64 × KeyType)) (e : BitVec 64 × KeyType) :
    directoryIds prev (directory ++ [e]) =
      directoryIds prev directory ++ [Fin.ofNat _ (prev + (directory.map (·.1.toNat)).sum + e.1.toNat)] := by
  induction directory generalizing prev with
  | nil => simp [directoryIds]
  | cons e directory ih =>
    simp only [List.cons_append, directoryIds, ih, List.map_cons, List.sum_cons, Nat.add_assoc]

end SectionFields

section Fields

variable [BitmapCodec] [HeapSizes]

def labelFields : PlainReader (BitVec 8) (List (Bytes × PostingsBitmap)) := do
  let groupCount ← Field.uvarint
  let groups ← Field.group.times groupCount.toNat
  Field.lists groups

def directoryFields : PlainReader (BitVec 8) (List (BitVec 64 × KeyType)) := do
  let idCount ← Field.uvarint
  Field.seriesKey.times idCount.toNat

def bodyFields : PlainReader (BitVec 8) SectionFields := do
  let _version ← Field.u8
  let _allPostings ← Field.bitmap
  let lists ← labelFields
  let directory ← directoryFields
  pure ⟨lists, directory⟩

def sectionFields : PlainReader (BitVec 8) SectionFields := do
  let _db ← Field.uvarint
  bodyFields

def payloadFields : PlainReader (BitVec 8) (List SectionFields) := do
  let _magic ← fun buf => (tryReadByteSliceExact indexAuxMagic.length buf).toOption
  let _version ← Field.u8
  let sectionCount ← Field.uvarint
  sectionFields.times sectionCount.toNat

/-- The section is loaded as the index. -/
structure SectionFields.Loads (p : Postings) (fields : SectionFields) : Prop where
  lists : ∀ key, p.labelIndex.get? key = lastList fields.lists key
  ids : ∀ id, (p.getKeyById id).isSome ↔ id ∈ directoryIds 0 fields.directory

omit [BitmapCodec] [HeapSizes] in
theorem stays_checkDeclaredCount {what : String} {count minBytes : Nat} :
    Stays (checkDeclaredCount what count minBytes) := Stays.remaining.bind fun _ => Stays.require _ _

omit [HeapSizes] in
theorem readBitmap_follows : Follows Eq readBitmap Field.bitmap := by
  refine (Follows.lift _ _).bind fun blob _ hblob => Follows.skip (Stays.require _ _) fun _ =>
    Follows.skip (Stays.allocate _) fun _ => ?_
  subst hblob
  intro s a s' heq
  cases hdecode : BitmapCodec.decode blob with
  | none =>
    rw [hdecode] at heq
    cases heq
  | some ids =>
    rw [hdecode] at heq
    cases heq
    exact ⟨_, rfl, rfl⟩

omit [BitmapCodec] in
theorem readGroup_follows (groups : List (Bytes × Nat)) :
    Follows (fun groups' group => groups' = groups ++ [group]) (readGroup groups) Field.group := by
  refine (Follows.lift _ _).bind fun name _ hname => Follows.skip (Stays.require _ _) fun _ => ?_
  refine (Follows.lift _ _).bind fun count _ hcount => Follows.skip (Stays.allocate _) fun _ => ?_
  subst hname hcount
  exact Follows.pure rfl

def LabelAcc.Holds (acc : LabelAcc) (lists : List (Bytes × PostingsBitmap)) : Prop :=
  ∀ key, acc.labelIndex.get? key = SectionFields.lastList lists key

theorem readEntry_follows {keyBudget : Nat} {allPostings : PostingsBitmap} {group : Bytes} {acc : LabelAcc}
    {lists : List (Bytes × PostingsBitmap)} (hacc : acc.Holds lists) :
    Follows (fun acc list => acc.Holds (lists ++ [list])) (readEntry keyBudget allPostings group acc)
      (Field.list group) := by
  refine (Follows.lift _ _).bind fun suffix _ hsuffix => Follows.skip (Stays.require _ _) fun _ => ?_
  refine Follows.skip (Stays.allocate _) fun _ => Follows.skip (Stays.allocate _) fun _ =>
    Follows.skip (Stays.require _ _) fun _ => readBitmap_follows.bind fun ids _ hids => ?_
  refine Follows.skip (Stays.require _ _) fun _ => Follows.skip (Stays.require _ _) fun _ =>
    Follows.skip (Stays.require _ _) fun _ => Follows.skip (Stays.allocate _) fun _ => Follows.pure fun key => ?_
  subst hsuffix hids
  rw [SortedMap.get?_insert, hacc, SectionFields.lastList_concat]
  split_ifs <;> rfl

theorem readEntries_follows {keyBudget : Nat} {allPostings : PostingsBitmap} (groups : List (Bytes × Nat))
    {acc : LabelAcc} (lists : List (Bytes × PostingsBitmap)) (hacc : acc.Holds lists) :
    Follows (fun acc more => acc.Holds (lists ++ more)) (readEntries keyBudget allPostings groups acc)
      (Field.lists groups) := by
  induction groups generalizing acc lists with
  | nil => exact Follows.pure (by rwa [List.append_nil])
  | cons group groups ih =>
    refine (Follows.iterate (fun acc lists hacc => readEntry_follows hacc) group.2 lists hacc).bind fun acc front
      hfront => ?_
    intro s acc' s' heq
    obtain ⟨back, hback, hholds⟩ := ih _ hfront s acc' s' heq
    refine ⟨front ++ back, ?_, by rwa [List.append_assoc] at hholds⟩
    change (Field.lists groups s.buf).bind _ = _
    rw [hback]
    rfl

structure IdAcc.Holds (acc : IdAcc) (directory : List (BitVec 64 × KeyType)) : Prop where
  prev : acc.prevId = Fin.ofNat _ (directory.map (·.1.toNat)).sum
  ids : ∀ id, (acc.idToKey.get? id).isSome ↔ id ∈ SectionFields.directoryIds 0 directory

omit [BitmapCodec] in
theorem readId_follows {acc : IdAcc} {directory : List (BitVec 64 × KeyType)} (hacc : acc.Holds directory) :
    Follows (fun acc e => acc.Holds (directory ++ [e])) (readId acc) Field.seriesKey := by
  refine (Follows.lift _ _).bind fun delta _ hdelta => Follows.skip (Stays.require _ _) fun _ => ?_
  refine (Follows.lift _ _).bind fun key _ hkey => Follows.skip (Stays.require _ _) fun _ =>
    Follows.skip (Stays.allocate _) fun _ => Follows.pure ?_
  subst hdelta hkey
  have hid : Fin.ofNat (2 ^ 64) (acc.prevId.val + delta.toNat) =
      Fin.ofNat (2 ^ 64) (0 + (directory.map (·.1.toNat)).sum + delta.toNat) := by
    rw [hacc.prev, Fin.val_ofNat, Nat.zero_add]
    exact Fin.ext (Nat.mod_add_mod _ _ _)
  refine ⟨?_, fun id => ?_⟩
  · rw [List.map_append, List.sum_append]
    exact hid.trans (by simp)
  · rw [SectionFields.directoryIds_concat, ← hid, List.mem_append, ← hacc.ids, List.mem_singleton,
      SortedMap.get?_insert]
    generalize Fin.ofNat (2 ^ 64) (acc.prevId.val + delta.toNat) = new
    by_cases hnew : id = new <;> simp [hnew]

theorem readLabelIndex_follows {keyBudget : Nat} {allPostings : PostingsBitmap} :
    Follows LabelAcc.Holds (readLabelIndex keyBudget allPostings) labelFields := by
  refine (Follows.lift _ _).bind fun count _ hcount => Follows.skip stays_checkDeclaredCount fun _ =>
    Follows.skip (Stays.allocate _) fun _ => ?_
  subst hcount
  refine (Follows.iterate (C := Eq) (fun groups items hgroups => hgroups ▸ readGroup_follows groups) _
    [] rfl).bind fun groups _ hgroups => Follows.skip stays_checkDeclaredCount fun _ => ?_
  subst hgroups
  exact readEntries_follows _ [] fun key => rfl

omit [BitmapCodec] in
theorem readIdDirectory_follows : Follows IdAcc.Holds readIdDirectory directoryFields := by
  refine (Follows.lift _ _).bind fun count _ hcount => Follows.skip stays_checkDeclaredCount fun _ => ?_
  subst hcount
  refine Follows.iterate (C := IdAcc.Holds) (fun acc items hacc => readId_follows hacc) _ [] ⟨rfl, fun id => ?_⟩
  exact iff_of_false Bool.false_ne_true List.not_mem_nil

theorem deserialize_follows : Follows SectionFields.Loads deserialize bodyFields := by
  refine (Follows.lift _ _).bind fun _ _ _ => Follows.skip (Stays.require _ _) fun _ =>
    Follows.skip Stays.remaining fun _ => readBitmap_follows.bind fun _ _ _ => ?_
  refine readLabelIndex_follows.bind fun labels lists hlists => ?_
  refine readIdDirectory_follows.bind fun ids directory hids => ?_
  exact Follows.pure ⟨hlists, hids.ids⟩

theorem deserializePostingsSection_follows {sections : List (DbId × Postings)} {fields : List SectionFields}
    (h : List.Forall₂ (fun e => SectionFields.Loads e.2) sections fields) :
    Follows (fun sections one => List.Forall₂ (fun e => SectionFields.Loads e.2) sections (fields ++ [one]))
      (deserializePostingsSection sections) sectionFields := by
  refine (Follows.lift _ _).bind fun _ _ _ => Follows.skip (Stays.require _ _) fun _ => ?_
  refine deserialize_follows.bind_last fun p one hone => Follows.skip (Stays.allocate _) fun _ => Follows.pure ?_
  exact List.rel_append h (.cons hone .nil)

theorem parseAuxPayload_follows :
    Follows (List.Forall₂ fun e => SectionFields.Loads e.2) parseAuxPayload payloadFields := by
  refine (Follows.lift _ _).bind fun _ _ _ => Follows.skip (Stays.require _ _) fun _ => ?_
  refine (Follows.lift _ _).bind fun _ _ _ => Follows.skip (Stays.require _ _) fun _ => ?_
  refine (Follows.lift _ _).bind fun count _ hcount => Follows.skip (Stays.allocate _) fun _ => ?_
  subst hcount
  refine (Follows.iterate (C := List.Forall₂ fun e => SectionFields.Loads e.2)
    (fun sections fields h => deserializePostingsSection_follows h) _ [] .nil).bind_last
    fun sections fields h => ?_
  exact Follows.skip Stays.remaining fun _ => Follows.skip (Stays.require _ _) fun _ => Follows.pure h

end Fields

/-! ### What loading allocates -/

variable {k i : Nat}

theorem uvarint_pays : Pays k i Decoder.uvarint fun _ => i + k := by
  refine (Pays.lift (w := fun _ => 1) _ fun _ _ _ => tryReadUvarint_consumes).weaken fun _ => ?_
  rw [Nat.mul_one]

theorem byteSlice_pays : Pays k i Decoder.byteSlice fun slice => i + k * (1 + slice.length) :=
  Pays.lift (w := fun slice : Bytes => 1 + slice.length) _ fun _ _ _ => tryReadByteSlice_consumes

theorem u8_pays : Pays k i Decoder.u8 fun _ => i := by
  refine (Pays.lift (w := fun _ => 0) _ fun buf a rest h => ?_).weaken fun _ => Nat.le_add_right _ _
  cases buf with
  | nil => cases h
  | cons b buf =>
    cases h
    exact Nat.le_succ _

theorem checkDeclaredCount_pays {what : String} {count minBytes : Nat} :
    Pays k i (checkDeclaredCount what count minBytes) fun _ => i :=
  Pays.remaining.bind fun _ => Pays.require _ _

section Allocated

variable [BitmapCodec] [HeapSizes]

/-- What a byte has to pay for. -/
def byteWorth : Nat :=
  maxIndexKeyLen + 4 * (3 * maxIndexKeyLen + 1) + HeapSizes.node + BitmapCodec.heap + 64 * HeapSizes.element + 1

omit [HeapSizes] in
theorem readBitmap_pays (hk : BitmapCodec.heap ≤ k) : Pays k i readBitmap fun _ => i + k := by
  refine byteSlice_pays.bind fun blob => (Pays.require _ _).bind fun _ => ?_
  have hle : BitmapCodec.heap * blob.length ≤ k * blob.length := Nat.mul_le_mul_right _ hk
  refine (Pays.allocate (by rw [Nat.mul_add]; omega)).bind fun _ => ?_
  cases BitmapCodec.decode blob with
  | none => exact Pays.fail _
  | some bitmap => exact Pays.pure _ (by rw [Nat.mul_add]; omega)

omit [BitmapCodec] in
theorem readGroup_pays (hk : HeapSizes.element ≤ k) (groups : List (Bytes × Nat)) :
    Pays k i (readGroup groups) fun _ => i := by
  refine byteSlice_pays.bind fun group => (Pays.require _ _).bind fun _ => uvarint_pays.bind fun _ => ?_
  exact (Pays.allocate (by omega)).bind fun _ => Pays.pure _ (by omega)

theorem readEntry_pays (hk : byteWorth ≤ k) {keyBudget : Nat} {allPostings : PostingsBitmap}
    {group : Bytes} (acc : LabelAcc) : Pays k i (readEntry keyBudget allPostings group acc) fun _ => i := by
  unfold byteWorth at hk
  refine byteSlice_pays.bind fun suffix => Pays.require_bind fun hlen => ?_
  -- the byte that ends the suffix's length pays for the key
  have hkey : (IndexKey.fromBytes (group ++ suffix)).text.bytes.length ≤ 3 * maxIndexKeyLen := by
    refine (Utf8.length_lossy_le _).trans ?_
    rw [List.length_append]
    omega
  have hworth : k ≤ k * (1 + suffix.length) := Nat.le_mul_of_pos_right _ (by omega)
  refine (Pays.allocate (by omega)).bind fun _ => (Pays.allocate (by omega)).bind fun _ => ?_
  refine (Pays.require _ _).bind fun _ => (readBitmap_pays (by omega)).bind fun _ => ?_
  refine (Pays.require _ _).bind fun _ => (Pays.require _ _).bind fun _ => (Pays.require _ _).bind fun _ => ?_
  exact (Pays.allocate (by omega)).bind fun _ => Pays.pure _ (by omega)

theorem readEntries_pays (hk : byteWorth ≤ k) {keyBudget : Nat} {allPostings : PostingsBitmap}
    (groups : List (Bytes × Nat)) (acc : LabelAcc) :
    Pays k i (readEntries keyBudget allPostings groups acc) fun _ => i := by
  induction groups generalizing acc with
  | nil => exact Pays.pure _ le_rfl
  | cons group groups ih => exact (Pays.iterate (fun acc => readEntry_pays hk acc) group.2 acc).bind fun acc => ih acc

omit [BitmapCodec] in
theorem readId_pays (hk : HeapSizes.node + 1 ≤ k) (acc : IdAcc) : Pays k i (readId acc) fun _ => i := by
  refine uvarint_pays.bind fun _ => (Pays.require _ _).bind fun _ => byteSlice_pays.bind fun key => ?_
  have hle : key.length ≤ k * key.length := Nat.le_mul_of_pos_left _ (by omega)
  refine (Pays.require _ _).bind fun _ => (Pays.allocate (by rw [Nat.mul_add]; omega)).bind fun _ => ?_
  exact Pays.pure _ (by rw [Nat.mul_add]; omega)

theorem deserialize_pays (hk : byteWorth ≤ k) : Pays k i deserialize fun _ => i := by
  have hworth := hk
  unfold byteWorth at hworth
  refine u8_pays.bind fun _ => (Pays.require _ _).bind fun _ => Pays.remaining.bind fun _ => ?_
  refine (readBitmap_pays (by omega)).bind fun allPostings => ?_
  refine Pays.bind (o := fun _ => i) ?_ fun labels => Pays.bind (o := fun _ => i) ?_ fun ids => Pays.pure _ le_rfl
  · refine uvarint_pays.bind fun count => checkDeclaredCount_pays.bind fun _ => ?_
    have hmin : min count.toNat 64 * HeapSizes.element ≤ 64 * HeapSizes.element :=
      Nat.mul_le_mul_right _ (min_le_right _ _)
    refine (Pays.allocate (by omega)).bind fun _ => ?_
    refine (Pays.iterate (readGroup_pays (by omega)) count.toNat []).bind fun groups => ?_
    exact checkDeclaredCount_pays.bind fun _ => (readEntries_pays hk groups _).weaken fun _ => by omega
  · refine uvarint_pays.bind fun count => checkDeclaredCount_pays.bind fun _ => ?_
    exact (Pays.iterate (readId_pays (by omega)) count.toNat _).weaken fun _ => by omega

theorem parseAuxPayload_pays : Pays byteWorth 0 parseAuxPayload fun _ => 0 := by
  have hworth : 64 * HeapSizes.element ≤ byteWorth := by
    unfold byteWorth
    omega
  refine Pays.bind (o := fun _ => 0) ((Pays.lift (w := fun _ => 0) _ fun buf a rest h => ?_).weaken (by simp))
    fun _ => (Pays.require _ _).bind fun _ => ?_
  · rw [tryReadByteSliceExact] at h
    split at h
    · cases h
    · cases h
      rw [List.length_drop]
      omega
  refine u8_pays.bind fun _ => (Pays.require _ _).bind fun _ => uvarint_pays.bind fun count => ?_
  have hmin : min count.toNat 16 * HeapSizes.element ≤ 16 * HeapSizes.element :=
    Nat.mul_le_mul_right _ (min_le_right _ _)
  refine (Pays.allocate (by omega)).bind fun _ => ?_
  refine (Pays.iterate (fun sections => ?_) count.toNat []).bind fun sections =>
    Pays.remaining.bind fun _ => (Pays.require _ _).bind fun _ => Pays.pure _ (Nat.zero_le _)
  refine uvarint_pays.bind fun _ => (Pays.require _ _).bind fun _ => (deserialize_pays le_rfl).bind fun _ => ?_
  exact (Pays.allocate (by omega)).bind fun _ => Pays.pure _ (by omega)

/-! ### Hostile payloads -/

/-- Every id of a list has a key. -/
def IdsHaveKeys (p : Postings) : Prop :=
  ∀ key bitmap, p.labelIndex.get? key = some bitmap → ∀ id ∈ bitmap, (p.getKeyById id).isSome

/-- In each section of the payload the id directory names every id of the lists. -/
def DirectoriesCover (payload : Bytes) : Prop :=
  ∀ read ∈ payloadFields payload, ∀ fields ∈ read.1, fields.Covered

omit [BitmapCodec] [HeapSizes] in
theorem SectionFields.Loads.idsHaveKeys_iff {p : Postings} {fields : SectionFields} (h : fields.Loads p) :
    p.IdsHaveKeys ↔ fields.Covered := by
  constructor
  · intro hkeys list _ ids hids id hid
    exact (h.ids id).mp (hkeys _ ids ((h.lists _).trans hids) id hid)
  · intro hcovered key ids hget id hid
    have hlast := (h.lists key).symm.trans hget
    obtain ⟨list, hfind, -⟩ := Option.map_eq_some_iff.mp hlast
    have hkey : IndexKey.fromBytes list.1 = key := by simpa using List.find?_some hfind
    have hmem := List.mem_reverse.mp (List.mem_of_find?_eq_some hfind)
    exact (h.ids id).mpr (hcovered list hmem ids (hkey ▸ hlast) id hid)

/-- **Whatever the bytes are**, loading them allocates at most a fixed multiple of their length and lets in
no empty list, no list beyond `all_postings` and no malformed key; every id of a list has a key exactly where
the payload's own id directories name the ids of its lists. -/
theorem parseAuxPayload_consistent : ∃ k, ∀ payload : Bytes,
    (parseAuxPayload ⟨payload, 0⟩).2.used ≤ k * payload.length
      ∧ ∀ sections, (parseAuxPayload ⟨payload, 0⟩).1 = .ok sections → (∀ e ∈ sections, e.2.Sound)
        ∧ ((∀ e ∈ sections, e.2.IdsHaveKeys) ↔ DirectoriesCover payload) := by
  refine ⟨byteWorth, fun payload => ⟨parseAuxPayload_pays.bound payload, fun sections hparse => ?_⟩⟩
  refine ⟨parseAuxPayload_ensures _ _ _ (Prod.ext hparse rfl), ?_⟩
  obtain ⟨fields, hfields, hloads⟩ := parseAuxPayload_follows _ _ _ (Prod.ext hparse rfl)
  have hcover : DirectoriesCover payload ↔ ∀ one ∈ fields, one.Covered := by simp [DirectoriesCover, hfields]
  rw [hcover]
  clear hcover hfields hparse
  induction hloads with
  | nil => simp
  | cons hone _ ih =>
    rw [List.forall_mem_cons, List.forall_mem_cons]
    exact and_congr hone.idsHaveKeys_iff ih

end Allocated

/-- One section whose `all_postings` and list `a=1` hold the id 5, with the given id directory. -/
def fivePayload (idDirectory : Bytes) : Bytes :=
  let ids : Bytes := 30 :: (List.replicate 22 0 ++ [5, 0, 0, 0, 0, 0, 0, 0])
  indexAuxMagic ++ [1, 1, 0, 1] ++ ids ++ [1, 2, 0x61, 0x3D, 1, 1, 0x31] ++ ids ++ idDirectory

theorem fivePayload_covered :
    letI := plainCodec
    letI := plainSizes
    ∃ p : Postings, (parseAuxPayload ⟨fivePayload [1, 5, 1, 0x6B], 0⟩).1 = .ok [(0, p)]
    ∧ p.labelIndex.get? (.forLabelValue textA textOne) = some {5}
    ∧ p.allPostings = {5} ∧ p.getKeyById 5 = some [0x6B] :=
  ⟨_, rfl, by decide, by decide, by decide⟩

theorem parseAuxPayload_consistent_five :
    letI := plainCodec
    letI := plainSizes
    ∃ p : Postings, (parseAuxPayload ⟨fivePayload [1, 5, 1, 0x6B], 0⟩).1 = .ok [(0, p)]
      ∧ p.labelIndex.get? (.forLabelValue textA textOne) = some {5} ∧ p.IdsHaveKeys := by
  let := plainCodec
  let := plainSizes
  obtain ⟨k, hk⟩ := parseAuxPayload_consistent
  obtain ⟨p, hp, hget, -⟩ := fivePayload_covered
  have hcover : DirectoriesCover (fivePayload [1, 5, 1, 0x6B]) := by
    have hfields : payloadFields (fivePayload [1, 5, 1, 0x6B]) =
        some ([⟨[([0x61, 0x3D, 0x31], {5})], [(5, [0x6B])]⟩], []) := rfl
    have hlast : SectionFields.lastList [([0x61, 0x3D, 0x31], {5})] (.fromBytes [0x61, 0x3D, 0x31]) = some {5} := rfl
    simp only [DirectoriesCover, hfields, Option.mem_some_iff, forall_eq', List.forall_mem_singleton,
      SectionFields.Covered, hlast, Finset.mem_singleton, forall_eq]
    decide
  exact ⟨p, hp, hget, ((hk _).2 _ hp).2.mpr hcover (0, p) (List.mem_singleton_self _)⟩

/-- With an empty directory the same section is let in, and its list names a series without a key. -/
theorem fivePayload_loads_without_key :
    letI := plainCodec
    letI := plainSizes
    ∃ p : Postings, (parseAuxPayload ⟨fivePayload [0], 0⟩).1 = .ok [(0, p)]
      ∧ p.labelIndex.get? (.forLabelValue textA textOne) = some {5} ∧ p.getKeyById 5 = none :=
  ⟨_, rfl, by decide, by decide⟩

end Postings

end ValkeyTimeSeries
