/-
Index/Serialization.lean

The wire format of one index (`postings/serialization.rs`).

Design.  The format of a bitmap is a codec that is taken as faithful.  The writer groups the lists by the part
of their keys up to the first `=`.  The reader is metered: a vector element, a tree node and a byte of a blob
cost what the codec and `HeapSizes` say, a key what its copies take.

The round trip is one `ReadsIf` judgement: every check of the reader that can fail on what the writer wrote is
a conjunct of its condition, and the checks of declared counts are none of them.
-/
import ValkeyTimeSeries.Library.Metered
import ValkeyTimeSeries.Common.Encoding
import ValkeyTimeSeries.Index.Drain

namespace ValkeyTimeSeries

open List MeteredReader

/-! ### Bitmaps, sizes and errors -/

class BitmapCodec where
  encode : PostingsBitmap → Bytes
  decode : Bytes → Option PostingsBitmap
  decode_encode : ∀ bitmap, decode (encode bitmap) = some bitmap
  /-- A bucket count, the high word of one bucket and a set of one element. -/
  min_length : ∀ bitmap, bitmap ≠ ∅ → 30 ≤ (encode bitmap).length
  /-- What a bitmap takes in memory for each byte it is decoded from. -/
  heap : Nat

class HeapSizes where
  /-- An element of a vector, with the room a vector keeps to grow. -/
  element : Nat
  /-- A node of a tree. -/
  node : Nat
  /-- What the tree says of a key that it cannot hold beside the others. -/
  prefixError : IndexKey → String

def DecodeError.message : DecodeError → String
  | .overflow => "decoded value would overflow the target type"
  | .insufficientData available requested =>
    s!"not enough bytes to decode value: {available} available, but {requested} requested"
  | .invalidUTF8 => "invalid UTF-8 sequence"

def Str.toText (s : Str) : String :=
  (String.fromUTF8? ⟨(s.bytes.map UInt8.ofBitVec).toArray⟩).getD ""

abbrev Decoder (α : Type) := MeteredReader String (BitVec 8) α

namespace Decoder

def u8 : Decoder (BitVec 8) := lift DecodeError.message tryReadU8

def uvarint : Decoder (BitVec 64) := lift DecodeError.message tryReadUvarint

def byteSlice : Decoder Bytes := lift DecodeError.message tryReadByteSlice

end Decoder

namespace Postings

/-! ### Limits -/

def bodyVersion : BitVec 8 := 1

def maxIndexKeyLen : Nat := 64 * 1024

def maxSeriesKeyLen : Nat := 64 * 1024

def maxBitmapBlobBytes : Nat := 256 * 1024 * 1024

def maxKeyExpansionRatio : Nat := 16

def minGroupBytes : Nat := 2

def minEntryBytes : Nat := 1 + 1 + 30

def minIdEntryBytes : Nat := 2

def checkDeclaredCount (what : String) (count minBytes : Nat) : Decoder Unit := do
  let len ← remaining
  let capacity := len / minBytes
  require (count ≤ capacity)
    s!"{what}: declared count {count} exceeds what the remaining {len} bytes can hold ({capacity})"

/-! ### Writing -/

section Format

variable [BitmapCodec]

def bitmapBytes (bitmap : PostingsBitmap) : Bytes := byteSliceBytes (BitmapCodec.encode bitmap)

/-- A key cut behind its first `=`. -/
def splitKey : Bytes → Bytes × Bytes
  | [] => ([], [])
  | b :: s => if b = 0x3D then ([b], s) else ((b :: (splitKey s).1), (splitKey s).2)

structure Entry where
  group : Bytes
  suffix : Bytes
  bitmap : PostingsBitmap

def writtenEntries (self : Postings) : List Entry :=
  self.labelIndex.entries.filterMap fun (key, bitmap) =>
    if bitmap = ∅ then none
    else
      let cleaned := self.staleIds.mask bitmap
      if cleaned = ∅ then none
      else some ⟨(splitKey key.text.bytes).1, (splitKey key.text.bytes).2, cleaned⟩

def groupEntries : List Entry → List (Bytes × List Entry)
  | [] => []
  | entry :: entries =>
    match groupEntries entries with
    | [] => [(entry.group, [entry])]
    | (group, run) :: groups =>
      if entry.group = group then (group, entry :: run) :: groups
      else (entry.group, [entry]) :: (group, run) :: groups

def groupBytes (group : Bytes × List Entry) : Bytes :=
  byteSliceBytes group.1 ++ uvarintBytes (BitVec.ofNat 64 group.2.length)

def entryBytes (entry : Entry) : Bytes := byteSliceBytes entry.suffix ++ bitmapBytes entry.bitmap

def idBytes : SeriesRef → List (SeriesRef × KeyType) → Bytes
  | _, [] => []
  | prev, (id, key) :: entries =>
    uvarintBytes (BitVec.ofFin (id - prev)) ++ (byteSliceBytes key ++ idBytes id entries)

def labelIndexBytes (self : Postings) : Bytes :=
  let groups := groupEntries self.writtenEntries
  uvarintBytes (BitVec.ofNat 64 groups.length) ++
    (groups.flatMap groupBytes ++ groups.flatMap fun group => group.2.flatMap entryBytes)

def idDirectoryBytes (self : Postings) : Bytes :=
  uvarintBytes (BitVec.ofNat 64 self.idToKey.length) ++ idBytes 0 self.idToKey.entries

def bodyBytes (self : Postings) : Bytes :=
  bitmapBytes self.allPostings ++ (self.labelIndexBytes ++ self.idDirectoryBytes)

def serialize (self : Postings) : Bytes := bodyVersion :: self.bodyBytes

/-! ### Reading -/

variable [HeapSizes]

def readBitmap : Decoder PostingsBitmap := do
  let blob ← Decoder.byteSlice
  require (blob.length ≤ maxBitmapBlobBytes)
    s!"bitmap blob of {blob.length} bytes exceeds maximum {maxBitmapBlobBytes}"
  allocate (BitmapCodec.heap * blob.length)
  match BitmapCodec.decode blob with
  | some bitmap => pure bitmap
  | none => fail "corrupt roaring bitmap blob"

def readGroup (groups : List (Bytes × Nat)) : Decoder (List (Bytes × Nat)) := do
  let group ← Decoder.byteSlice
  require (group.length ≤ maxIndexKeyLen)
    s!"label group prefix of {group.length} bytes exceeds maximum {maxIndexKeyLen}"
  let count ← Decoder.uvarint
  allocate HeapSizes.element
  pure (groups ++ [(group, count.toNat)])

structure LabelAcc where
  labelIndex : SortedMap IndexKey PostingsBitmap
  keyBytesUsed : Nat

def readEntry (keyBudget : Nat) (allPostings : PostingsBitmap) (group : Bytes) (acc : LabelAcc) : Decoder LabelAcc := do
  let suffix ← Decoder.byteSlice
  let keyLen := group.length + suffix.length
  require (keyLen ≤ maxIndexKeyLen) s!"label index key of {keyLen} bytes exceeds maximum {maxIndexKeyLen}"
  allocate keyLen
  let key := IndexKey.fromBytes (group ++ suffix)
  -- the repaired text, its copy, the room the copy grows into for the last byte, the box
  allocate (4 * (key.text.bytes.length + 1))
  let keyBytesUsed := acc.keyBytesUsed + key.text.bytes.length
  require (keyBytesUsed ≤ keyBudget)
    s!"label index keys expand past {keyBudget} bytes, {maxKeyExpansionRatio}x the encoded body"
  let bitmap ← readBitmap
  require (bitmap ≠ ∅) "empty bitmap in label index entry"
  require (bitmap ⊆ allPostings) s!"label index entry {key.text.toText} holds ids absent from all_postings"
  require (∀ other ∈ acc.labelIndex.keys, key.Compatible other)
    s!"label index insert failed: {HeapSizes.prefixError key}"
  allocate HeapSizes.node
  pure ⟨acc.labelIndex.insert key bitmap, keyBytesUsed⟩

def readEntries (keyBudget : Nat) (allPostings : PostingsBitmap) :
    List (Bytes × Nat) → LabelAcc → Decoder LabelAcc
  | [], acc => pure acc
  | (group, count) :: groups, acc => do
      let acc ← iterate count (readEntry keyBudget allPostings group) acc
      readEntries keyBudget allPostings groups acc

structure IdAcc where
  idToKey : SortedMap SeriesRef KeyType
  prevId : SeriesRef

def readId (acc : IdAcc) : Decoder IdAcc := do
  let delta ← Decoder.uvarint
  require (acc.prevId.val + delta.toNat < 2 ^ 64) "series id overflow"
  let id := Fin.ofNat (2 ^ 64) (acc.prevId.val + delta.toNat)
  let key ← Decoder.byteSlice
  require (key.length ≤ maxSeriesKeyLen)
    s!"timeseries key name of {key.length} bytes exceeds maximum {maxSeriesKeyLen}"
  allocate (key.length + HeapSizes.node)
  pure ⟨acc.idToKey.insert id key, id⟩

def readLabelIndex (keyBudget : Nat) (allPostings : PostingsBitmap) : Decoder LabelAcc := do
  let groupCount ← Decoder.uvarint
  checkDeclaredCount "label group directory" groupCount.toNat minGroupBytes
  allocate (min groupCount.toNat 64 * HeapSizes.element)
  let groups ← iterate groupCount.toNat readGroup []
  checkDeclaredCount "label index entries" (groups.map Prod.snd).sum minEntryBytes
  readEntries keyBudget allPostings groups ⟨.empty, 0⟩

def readIdDirectory : Decoder IdAcc := do
  let idCount ← Decoder.uvarint
  checkDeclaredCount "id directory" idCount.toNat minIdEntryBytes
  iterate idCount.toNat readId ⟨.empty, 0⟩

def deserializeBody (keyBudget : Nat) : Decoder Postings := do
  let allPostings ← readBitmap
  let labels ← readLabelIndex keyBudget allPostings
  let ids ← readIdDirectory
  -- the stale ids were subtracted when the index was saved
  pure ⟨labels.labelIndex, ids.idToKey, .default, allPostings⟩

def deserialize : Decoder Postings := do
  let version ← Decoder.u8
  require (version = bodyVersion) s!"unsupported index body version {version.toNat} (expected {bodyVersion.toNat})"
  let len ← remaining
  deserializeBody (len * maxKeyExpansionRatio)

end Format

/-! ### What is written -/

/-- What is loaded: the lists without stale ids, and none pending. -/
def cleaned (self : Postings) : Postings :=
  { self with labelIndex := self.labelIndex.filterMap fun _ bitmap => drained self.staleIds bitmap,
              staleIds := .default }

theorem splitKey_append (s : Bytes) : (splitKey s).1 ++ (splitKey s).2 = s := by
  induction s with
  | nil => rfl
  | cons b s ih =>
    rw [splitKey]
    split
    · rfl
    · exact congrArg (b :: ·) ih

def entryOf (e : IndexKey × PostingsBitmap) : Entry :=
  ⟨(splitKey e.1.text.bytes).1, (splitKey e.1.text.bytes).2, e.2⟩

theorem writtenEntries_eq (self : Postings) :
    self.writtenEntries = self.cleaned.labelIndex.entries.map entryOf := by
  rw [writtenEntries, cleaned, SortedMap.filterMap, map_filterMap]
  refine filterMap_congr fun e _ => ?_
  obtain ⟨key, bitmap⟩ := e
  dsimp only [drained]
  by_cases hempty : bitmap = ∅
  · have hmask : self.staleIds.mask bitmap = ∅ := by
      ext id
      simp [hempty]
    rw [if_pos hempty, if_pos hmask]
    rfl
  · rw [if_neg hempty]
    split <;> rfl

/-- The groups hold the entries, in their order; a group has entries, and they carry its name. -/
theorem groupEntries_spec (entries : List Entry) : (groupEntries entries).flatMap Prod.snd = entries ∧
    ∀ group ∈ groupEntries entries, group.2 ≠ [] ∧ ∀ entry ∈ group.2, entry.group = group.1 := by
  induction entries with
  | nil => exact ⟨rfl, fun _ h => by cases h⟩
  | cons entry entries ih =>
    obtain ⟨hflat, hgroup⟩ := ih
    rw [groupEntries]
    split
    · next hnil =>
        rw [hnil] at hflat
        refine ⟨congrArg (entry :: ·) hflat, fun g hg => ?_⟩
        obtain rfl := mem_singleton.mp hg
        exact ⟨cons_ne_nil _ _, fun e he => by rw [mem_singleton.mp he]⟩
    · next group run groups hcons =>
        rw [hcons] at hflat hgroup
        split
        · next heq =>
            refine ⟨congrArg (entry :: ·) hflat, fun g hg => ?_⟩
            rcases mem_cons.mp hg with rfl | hg
            · refine ⟨cons_ne_nil _ _, fun e he => ?_⟩
              rcases mem_cons.mp he with rfl | he
              · exact heq
              · exact (hgroup _ mem_cons_self).2 e he
            · exact hgroup g (mem_cons_of_mem _ hg)
        · refine ⟨congrArg (entry :: ·) hflat, fun g hg => ?_⟩
          rcases mem_cons.mp hg with rfl | hg
          · exact ⟨cons_ne_nil _ _, fun e he => by rw [mem_singleton.mp he]⟩
          · exact hgroup g hg

theorem length_groupEntries_le (entries : List Entry) : (groupEntries entries).length ≤ entries.length := by
  induction entries with
  | nil => exact le_rfl
  | cons entry entries ih =>
    rw [groupEntries]
    split
    · simp
    · next hcons =>
        rw [hcons] at ih
        simp only [length_cons] at ih
        split <;> simp only [length_cons] <;> omega

theorem mul_length_le_length_flatMap {α β : Type} {f : α → List β} {n : Nat} {l : List α}
    (h : ∀ a ∈ l, n ≤ (f a).length) : l.length * n ≤ (l.flatMap f).length := by
  induction l with
  | nil => simp
  | cons a l ih =>
    have ha := h a mem_cons_self
    have hl := ih fun b hb => h b (mem_cons_of_mem _ hb)
    rw [flatMap_cons, length_append, length_cons, Nat.succ_mul]
    omega

theorem length_byteSliceBytes_gt (slice : Bytes) : slice.length < (byteSliceBytes slice).length := by
  have := length_uvarintBytes_pos (BitVec.ofNat 64 slice.length)
  rw [byteSliceBytes, length_append]
  omega

theorem length_idBytes_ge (prev : SeriesRef) (entries : List (SeriesRef × KeyType)) :
    entries.length * 2 ≤ (idBytes prev entries).length := by
  induction entries generalizing prev with
  | nil => simp [idBytes]
  | cons e entries ih =>
    obtain ⟨id, key⟩ := e
    have hdelta := length_uvarintBytes_pos (BitVec.ofFin (id - prev))
    have hkey := length_byteSliceBytes_gt key
    have hrest := ih id
    simp only [idBytes, length_append, length_cons]
    omega

/-! ### The round trip -/

section RoundTrip

variable [BitmapCodec]

/-- Every length and count is one that a machine word holds. -/
structure Sized (p : Postings) : Prop where
  allPostings : (BitmapCodec.encode p.allPostings).length < 2 ^ 64
  lists : ∀ e ∈ p.cleaned.labelIndex.entries,
    e.1.text.bytes.length < 2 ^ 64 ∧ (BitmapCodec.encode e.2).length < 2 ^ 64
  count : p.cleaned.labelIndex.length < 2 ^ 64
  keys : ∀ e ∈ p.idToKey.entries, e.2.length < 2 ^ 64
  ids : p.idToKey.length < 2 ^ 64

/-- The index stays within the limits of the reader, and no list holds an id that is not live. -/
structure Fits (p : Postings) (keyBudget : Nat) : Prop where
  allPostings : (BitmapCodec.encode p.allPostings).length ≤ maxBitmapBlobBytes
  lists : ∀ e ∈ p.cleaned.labelIndex.entries, e.1.text.bytes.length ≤ maxIndexKeyLen ∧
    (BitmapCodec.encode e.2).length ≤ maxBitmapBlobBytes ∧ e.2 ⊆ p.allPostings
  keyBytes : (p.cleaned.labelIndex.entries.map fun e => e.1.text.bytes.length).sum ≤ keyBudget
  /-- The tree can hold the written keys beside each other. -/
  compatible : ∀ a ∈ p.cleaned.labelIndex.keys, ∀ b ∈ p.cleaned.labelIndex.keys, a.Compatible b
  keys : ∀ e ∈ p.idToKey.entries, e.2.length ≤ maxSeriesKeyLen

theorem readBitmap_reads {bitmap : PostingsBitmap} (h : (BitmapCodec.encode bitmap).length < 2 ^ 64) :
    ReadsIf ((BitmapCodec.encode bitmap).length ≤ maxBitmapBlobBytes) readBitmap (bitmapBytes bitmap) bitmap := by
  have hdecode : ReadsIf (ε := String) True (match BitmapCodec.decode (BitmapCodec.encode bitmap) with
      | some bitmap => pure bitmap
      | none => fail "corrupt roaring bitmap blob") ([] : Bytes) bitmap := by
    rw [BitmapCodec.decode_encode]
    exact ReadsIf.pure bitmap
  refine ReadsIf.congr ((ReadsIf.lift DecodeError.message (tryReadByteSlice_reads h)).bind
    ((ReadsIf.require _ _).bind_nil ((ReadsIf.allocate _).bind_nil hdecode))) (by simp) (append_nil _)

variable [HeapSizes]

omit [BitmapCodec] in
theorem readGroup_reads {group : Bytes × List Entry} (hgroup : group.1.length < 2 ^ 64)
    (hrun : group.2.length < 2 ^ 64) (groups : List (Bytes × Nat)) :
    ReadsIf (group.1.length ≤ maxIndexKeyLen) (readGroup groups) (groupBytes group)
    (groups ++ [(group.1, group.2.length)]) := by
  have hlen : (BitVec.ofNat 64 group.2.length).toNat = group.2.length := by
    rw [BitVec.toNat_ofNat, Nat.mod_eq_of_lt hrun]
  have hpure : ReadsIf (ε := String) True
      (pure (groups ++ [(group.1, (BitVec.ofNat 64 group.2.length).toNat)])) ([] : Bytes)
      (groups ++ [(group.1, group.2.length)]) := by
    rw [hlen]
    exact ReadsIf.pure _
  refine ReadsIf.congr ((ReadsIf.lift DecodeError.message (tryReadByteSlice_reads hgroup)).bind
    ((ReadsIf.require _ _).bind_nil ((ReadsIf.lift DecodeError.message (tryReadUvarint_reads _)).bind
      ((ReadsIf.allocate _).bind_nil hpure)))) (by simp) (by rw [append_nil]; rfl)

def Entry.key (entry : Entry) : IndexKey := .fromBytes (entry.group ++ entry.suffix)

def EntryFits (keyBudget : Nat) (allPostings : PostingsBitmap) (acc : LabelAcc) (entry : Entry) : Prop :=
  entry.group.length + entry.suffix.length ≤ maxIndexKeyLen ∧
    acc.keyBytesUsed + entry.key.text.bytes.length ≤ keyBudget ∧
    (BitmapCodec.encode entry.bitmap).length ≤ maxBitmapBlobBytes ∧ entry.bitmap ≠ ∅ ∧
    entry.bitmap ⊆ allPostings ∧ ∀ other ∈ acc.labelIndex.keys, entry.key.Compatible other

def LabelAcc.next (acc : LabelAcc) (entry : Entry) : LabelAcc :=
  ⟨acc.labelIndex.insert entry.key entry.bitmap, acc.keyBytesUsed + entry.key.text.bytes.length⟩

theorem readEntry_reads {keyBudget : Nat} {allPostings : PostingsBitmap} {entry : Entry}
    (hsuffix : entry.suffix.length < 2 ^ 64) (hbitmap : (BitmapCodec.encode entry.bitmap).length < 2 ^ 64)
    (acc : LabelAcc) :
    ReadsIf (EntryFits keyBudget allPostings acc entry) (readEntry keyBudget allPostings entry.group acc)
    (entryBytes entry) (acc.next entry) := by
  refine ReadsIf.congr ((ReadsIf.lift DecodeError.message (tryReadByteSlice_reads hsuffix)).bind
    ((ReadsIf.require _ _).bind_nil ((ReadsIf.allocate _).bind_nil ((ReadsIf.allocate _).bind_nil
      ((ReadsIf.require _ _).bind_nil ((readBitmap_reads hbitmap).bind ((ReadsIf.require _ _).bind_nil
        ((ReadsIf.require _ _).bind_nil ((ReadsIf.require _ _).bind_nil
          ((ReadsIf.allocate _).bind_nil (ReadsIf.pure (acc.next entry))))))))))))
    ?_ (by rw [append_nil]; rfl)
  simp only [true_and, and_true]
  exact Iff.rfl

theorem readEntries_reads (keyBudget : Nat) (allPostings : PostingsBitmap) {groups : List (Bytes × List Entry)}
    (hgroup : ∀ group ∈ groups, ∀ entry ∈ group.2, entry.group = group.1) (hsized : ∀ group ∈ groups, ∀ entry ∈ group.2,
    entry.suffix.length < 2 ^ 64 ∧ (BitmapCodec.encode entry.bitmap).length < 2 ^ 64) (acc : LabelAcc) :
    ReadsIf (ReadsIf.Each (EntryFits keyBudget allPostings) LabelAcc.next acc (groups.flatMap Prod.snd))
    (readEntries keyBudget allPostings (groups.map fun group => (group.1, group.2.length)) acc)
    (groups.flatMap fun group => group.2.flatMap entryBytes)
    ((groups.flatMap Prod.snd).foldl LabelAcc.next acc) := by
  induction groups generalizing acc with
  | nil => exact ReadsIf.pure acc
  | cons group groups ih =>
    have hrun := ReadsIf.iterate (readEntry keyBudget allPostings group.1) (EntryFits keyBudget allPostings)
      LabelAcc.next entryBytes (fun acc entry hmem => by
        obtain ⟨hsuffix, hbitmap⟩ := hsized group mem_cons_self entry hmem
        rw [← hgroup group mem_cons_self entry hmem]
        exact readEntry_reads hsuffix hbitmap acc) acc
    have hrest := ih (fun g hg => hgroup g (mem_cons_of_mem _ hg))
      (fun g hg => hsized g (mem_cons_of_mem _ hg)) (group.2.foldl LabelAcc.next acc)
    rw [flatMap_cons, foldl_append]
    exact (hrun.bind hrest).congr ReadsIf.each_append.symm rfl

omit [BitmapCodec] in
theorem readId_reads {id : SeriesRef} {key : KeyType} (hkey : key.length < 2 ^ 64) {acc : IdAcc}
    (hle : acc.prevId ≤ id) :
    ReadsIf (key.length ≤ maxSeriesKeyLen) (readId acc)
    (uvarintBytes (BitVec.ofFin (id - acc.prevId)) ++ byteSliceBytes key) ⟨acc.idToKey.insert id key, id⟩ := by
  have hsum : acc.prevId.val + (BitVec.ofFin (id - acc.prevId)).toNat = id.val := by
    rw [BitVec.toNat_ofFin, Fin.sub_val_of_le hle]
    have : acc.prevId.val ≤ id.val := hle
    omega
  have hid : Fin.ofNat (2 ^ 64) (acc.prevId.val + (BitVec.ofFin (id - acc.prevId)).toNat) = id := by
    rw [hsum]
    exact Fin.ofNat_val_eq_self id
  have hpure : ReadsIf (ε := String) True (pure (⟨acc.idToKey.insert
        (Fin.ofNat (2 ^ 64) (acc.prevId.val + (BitVec.ofFin (id - acc.prevId)).toNat)) key,
        Fin.ofNat (2 ^ 64) (acc.prevId.val + (BitVec.ofFin (id - acc.prevId)).toNat)⟩ : IdAcc)) ([] : Bytes)
      ⟨acc.idToKey.insert id key, id⟩ := by
    rw [hid]
    exact ReadsIf.pure _
  refine ReadsIf.congr ((ReadsIf.lift DecodeError.message (tryReadUvarint_reads _)).bind
    ((ReadsIf.require _ _).bind_nil ((ReadsIf.lift DecodeError.message (tryReadByteSlice_reads hkey)).bind
      ((ReadsIf.require _ _).bind_nil ((ReadsIf.allocate _).bind_nil hpure))))) ?_ (by rw [append_nil])
  rw [hsum]
  simp

omit [BitmapCodec] in
theorem readIds_reads {entries : List (SeriesRef × KeyType)} (hsorted : SortedList.Sorted Prod.fst entries)
    (hkeys : ∀ e ∈ entries, e.2.length < 2 ^ 64) (acc : IdAcc) (hle : ∀ e ∈ entries, acc.prevId ≤ e.1) :
    ∃ prev, ReadsIf (∀ e ∈ entries, e.2.length ≤ maxSeriesKeyLen) (iterate entries.length readId acc)
    (idBytes acc.prevId entries) ⟨entries.foldl (fun m e => m.insert e.1 e.2) acc.idToKey, prev⟩ := by
  induction entries generalizing acc with
  | nil => exact ⟨acc.prevId, (ReadsIf.pure acc).congr (by simp) rfl⟩
  | cons e entries ih =>
    obtain ⟨id, key⟩ := e
    obtain ⟨hlt, hsorted⟩ := pairwise_cons.mp hsorted
    obtain ⟨prev, hrest⟩ := ih hsorted (fun e he => hkeys e (mem_cons_of_mem _ he))
      ⟨acc.idToKey.insert id key, id⟩ (fun e he => (hlt e he).le)
    have hfirst := readId_reads (hkeys _ mem_cons_self) (hle _ mem_cons_self)
    refine ⟨prev, (hfirst.bind hrest).congr ?_ ?_⟩
    · simp
    · rw [idBytes, append_assoc]

omit [BitmapCodec] [HeapSizes] in
theorem checkDeclaredCount_reads {P : Prop} (what : String) {count minBytes : Nat} {β : Type}
    {p : Unit → Decoder β} {ys : Bytes} {b : β} (hmin : 0 < minBytes) (hlen : count * minBytes ≤ ys.length)
    (h : ReadsIf P (p ()) ys b) : ReadsIf P (checkDeclaredCount what count minBytes >>= p) ys b := by
  intro rest used
  have hcount : count ≤ (ys ++ rest).length / minBytes := by
    rw [Nat.le_div_iff_mul_le hmin, length_append]
    omega
  have hcheck : checkDeclaredCount what count minBytes ⟨ys ++ rest, used⟩ = (.ok (), ⟨ys ++ rest, used⟩) := by
    change (require (count ≤ (ys ++ rest).length / minBytes) _ : Decoder Unit) ⟨ys ++ rest, used⟩ = _
    rw [require, if_pos hcount]
    rfl
  rw [bind_ok hcheck]
  exact h rest used

omit [HeapSizes] in
theorem each_entryFits_iff {keyBudget : Nat} {allPostings : PostingsBitmap} {entries : List Entry} {acc : LabelAcc}
    (hacc : acc.keyBytesUsed ≤ keyBudget) (hne : ∀ entry ∈ entries, entry.bitmap ≠ ∅) :
    ReadsIf.Each (EntryFits keyBudget allPostings) LabelAcc.next acc entries ↔
    (∀ entry ∈ entries, entry.group.length + entry.suffix.length ≤ maxIndexKeyLen ∧
    (BitmapCodec.encode entry.bitmap).length ≤ maxBitmapBlobBytes ∧ entry.bitmap ⊆ allPostings) ∧
    acc.keyBytesUsed + (entries.map fun entry => entry.key.text.bytes.length).sum ≤ keyBudget ∧
    (∀ entry ∈ entries, ∀ other ∈ acc.labelIndex.keys, entry.key.Compatible other) ∧
    entries.Pairwise fun entry later => later.key.Compatible entry.key := by
  induction entries generalizing acc with
  | nil => simpa [ReadsIf.Each] using hacc
  | cons entry entries ih =>
    have hrest := fun e he => hne e (mem_cons_of_mem _ he)
    have hkeys (other : IndexKey) : other ∈ (acc.next entry).labelIndex.keys ↔
        other = entry.key ∨ other ∈ acc.labelIndex.keys := by
      simp only [LabelAcc.next, SortedMap.mem_keys_iff, SortedMap.get?_insert]
      by_cases hother : other = entry.key <;> simp [hother]
    rw [ReadsIf.Each, EntryFits, map_cons, sum_cons, pairwise_cons]
    by_cases hbudget : acc.keyBytesUsed + entry.key.text.bytes.length ≤ keyBudget
    · rw [ih hbudget hrest]
      simp only [mem_cons, forall_eq_or_imp, ← Nat.add_assoc, hkeys, forall_and]
      tauto
    · refine iff_of_false (fun h => hbudget h.1.2.1) fun h => hbudget ?_
      omega

section

omit [BitmapCodec] [HeapSizes]

theorem key_entryOf (e : IndexKey × PostingsBitmap) : (entryOf e).key = e.1 := by
  rw [Entry.key, entryOf, splitKey_append, IndexKey.fromBytes, Str.fromUtf8Lossy_bytes]

theorem foldl_next_entryOf (entries : List (IndexKey × PostingsBitmap)) (acc : LabelAcc) :
    ((entries.map entryOf).foldl LabelAcc.next acc).labelIndex =
    entries.foldl (fun m e => m.insert e.1 e.2) acc.labelIndex := by
  induction entries generalizing acc with
  | nil => rfl
  | cons e entries ih =>
    rw [map_cons, foldl_cons, foldl_cons, ih, LabelAcc.next, key_entryOf]
    rfl

theorem cleaned_ne_empty {self : Postings} {e : IndexKey × PostingsBitmap} (h : e ∈ self.cleaned.labelIndex.entries) :
    e.2 ≠ ∅ := by
  obtain ⟨⟨key, bitmap⟩, _, hsome⟩ := mem_filterMap.mp h
  obtain ⟨b, hb, rfl⟩ := Option.map_eq_some_iff.mp hsome
  change drained self.staleIds bitmap = some b at hb
  rw [drained] at hb
  split at hb
  · cases hb
  · cases hb
    assumption

end

omit [BitmapCodec] in
theorem readGroups_reads {groups : List (Bytes × List Entry)}
    (hsized : ∀ group ∈ groups, group.1.length < 2 ^ 64 ∧ group.2.length < 2 ^ 64) :
    ReadsIf (∀ group ∈ groups, group.1.length ≤ maxIndexKeyLen) (iterate groups.length readGroup [])
    (groups.flatMap groupBytes) (groups.map fun group => (group.1, group.2.length)) := by
  have hread := ReadsIf.iterate readGroup (fun _ group => group.1.length ≤ maxIndexKeyLen)
    (fun acc group => acc ++ [(group.1, group.2.length)]) groupBytes
    (fun acc group hmem => readGroup_reads (hsized group hmem).1 (hsized group hmem).2 acc) []
  rw [foldl_append_eq_append, nil_append, ← flatMap_def, ← map_eq_flatMap] at hread
  exact hread.congr ReadsIf.each_const rfl

omit [BitmapCodec] [HeapSizes] in
theorem length_entryOf (e : IndexKey × PostingsBitmap) :
    (entryOf e).group.length + (entryOf e).suffix.length = e.1.text.bytes.length := by
  have := congrArg List.length (splitKey_append e.1.text.bytes)
  rwa [length_append] at this

omit [HeapSizes] in
theorem length_entryBytes_ge {entry : Entry} (h : entry.bitmap ≠ ∅) : 32 ≤ (entryBytes entry).length := by
  have hsuffix := length_byteSliceBytes_gt entry.suffix
  have hblob := length_byteSliceBytes_gt (BitmapCodec.encode entry.bitmap)
  have hmin := BitmapCodec.min_length entry.bitmap h
  rw [entryBytes, bitmapBytes, length_append]
  omega

omit [BitmapCodec] [HeapSizes] in
theorem mem_groupEntries {self : Postings} {group : Bytes × List Entry}
    (hg : group ∈ groupEntries self.writtenEntries) {entry : Entry} (he : entry ∈ group.2) :
    ∃ e ∈ self.cleaned.labelIndex.entries, entryOf e = entry := by
  have hin : entry ∈ self.writtenEntries :=
    (groupEntries_spec self.writtenEntries).1 ▸ mem_flatMap.mpr ⟨group, hg, he⟩
  rw [writtenEntries_eq] at hin
  exact mem_map.mp hin

omit [HeapSizes] in
theorem each_written_iff {self : Postings} {keyBudget : Nat} :
    ReadsIf.Each (EntryFits keyBudget self.allPostings) LabelAcc.next ⟨.empty, 0⟩ self.writtenEntries ↔
    (∀ e ∈ self.cleaned.labelIndex.entries, e.1.text.bytes.length ≤ maxIndexKeyLen ∧
    (BitmapCodec.encode e.2).length ≤ maxBitmapBlobBytes ∧ e.2 ⊆ self.allPostings) ∧
    (self.cleaned.labelIndex.entries.map fun e => e.1.text.bytes.length).sum ≤ keyBudget ∧
    ∀ a ∈ self.cleaned.labelIndex.keys, ∀ b ∈ self.cleaned.labelIndex.keys, a.Compatible b := by
  have hpairs : (self.cleaned.labelIndex.entries.Pairwise fun a b => b.1.Compatible a.1) ↔
      ∀ a ∈ self.cleaned.labelIndex.keys, ∀ b ∈ self.cleaned.labelIndex.keys, a.Compatible b := by
    constructor
    · intro h a ha b hb
      have hkeys : self.cleaned.labelIndex.keys.Pairwise fun a b => b.Compatible a := pairwise_map.mpr h
      have : Std.Symm fun a b : IndexKey => b.Compatible a := ⟨fun _ _ hab => hab.symm⟩
      exact hkeys.forall_of_forall (fun key _ => .inl rfl) hb ha
    · intro h
      exact self.cleaned.labelIndex.sorted.imp_of_mem fun ha hb _ => h _ (mem_map_of_mem hb) _ (mem_map_of_mem ha)
  rw [← hpairs, writtenEntries_eq, each_entryFits_iff (Nat.zero_le _) (by
    intro entry hentry
    obtain ⟨e, he, rfl⟩ := mem_map.mp hentry
    exact cleaned_ne_empty he)]
  simp only [forall_mem_map, length_entryOf, map_map, Function.comp_def, key_entryOf, Nat.zero_add, pairwise_map]
  simp [SortedMap.keys, SortedMap.empty, entryOf]

theorem readLabelIndex_reads {self : Postings} (hsized : self.Sized) (keyBudget : Nat) :
    ReadsIf ((∀ e ∈ self.cleaned.labelIndex.entries, e.1.text.bytes.length ≤ maxIndexKeyLen ∧
    (BitmapCodec.encode e.2).length ≤ maxBitmapBlobBytes ∧ e.2 ⊆ self.allPostings) ∧
    (self.cleaned.labelIndex.entries.map fun e => e.1.text.bytes.length).sum ≤ keyBudget ∧
    ∀ a ∈ self.cleaned.labelIndex.keys, ∀ b ∈ self.cleaned.labelIndex.keys, a.Compatible b)
    (readLabelIndex keyBudget self.allPostings) self.labelIndexBytes
    (self.writtenEntries.foldl LabelAcc.next ⟨.empty, 0⟩) := by
  obtain ⟨hflat, hgroup⟩ := groupEntries_spec self.writtenEntries
  have hlength : self.writtenEntries.length = self.cleaned.labelIndex.length := by
    rw [writtenEntries_eq, length_map]
    rfl
  have hcount : (groupEntries self.writtenEntries).length < 2 ^ 64 :=
    lt_of_le_of_lt (length_groupEntries_le _) (hlength ▸ hsized.count)
  have hgroupCount : (BitVec.ofNat 64 (groupEntries self.writtenEntries).length).toNat
      = (groupEntries self.writtenEntries).length := by
    rw [BitVec.toNat_ofNat, Nat.mod_eq_of_lt hcount]
  have hgroups : ∀ group ∈ groupEntries self.writtenEntries,
      group.1.length < 2 ^ 64 ∧ group.2.length < 2 ^ 64 := by
    intro group hg
    obtain ⟨hne, hname⟩ := hgroup group hg
    obtain ⟨entry, hentry⟩ := exists_mem_of_ne_nil _ hne
    obtain ⟨e, he, rfl⟩ := mem_groupEntries hg hentry
    refine ⟨?_, ?_⟩
    · have := (hsized.lists e he).1
      have := length_entryOf e
      rw [← hname _ hentry]
      omega
    · have hsub : group.2.length ≤ ((groupEntries self.writtenEntries).flatMap Prod.snd).length := by
        obtain ⟨before, after, hsplit⟩ := append_of_mem hg
        rw [hsplit]
        simp only [flatMap_append, flatMap_cons, length_append]
        omega
      rw [hflat, hlength] at hsub
      exact lt_of_le_of_lt hsub hsized.count
  have hlists : ∀ group ∈ groupEntries self.writtenEntries, ∀ entry ∈ group.2,
      entry.suffix.length < 2 ^ 64 ∧ (BitmapCodec.encode entry.bitmap).length < 2 ^ 64 := by
    intro group hg entry hentry
    obtain ⟨e, he, rfl⟩ := mem_groupEntries hg hentry
    have := (hsized.lists e he).1
    have := length_entryOf e
    exact ⟨by omega, (hsized.lists e he).2⟩
  have hentries := readEntries_reads keyBudget self.allPostings
    (fun group hg => (hgroup group hg).2) hlists ⟨.empty, 0⟩
  rw [hflat] at hentries
  -- the declared counts are those of entries that follow
  have hbytes₁ : (groupEntries self.writtenEntries).length * minGroupBytes ≤
      ((groupEntries self.writtenEntries).flatMap groupBytes).length := by
    refine mul_length_le_length_flatMap fun group _ => ?_
    have := length_byteSliceBytes_gt group.1
    have := length_uvarintBytes_pos (BitVec.ofNat 64 group.2.length)
    rw [groupBytes, length_append, minGroupBytes]
    omega
  have hbytes₂ : (((groupEntries self.writtenEntries).map fun group => (group.1, group.2.length)).map Prod.snd).sum *
      minEntryBytes ≤ ((groupEntries self.writtenEntries).flatMap fun group => group.2.flatMap entryBytes).length := by
    have hsum : (((groupEntries self.writtenEntries).map fun group => (group.1, group.2.length)).map Prod.snd).sum
        = self.writtenEntries.length := by
      conv_rhs => rw [← hflat, length_flatMap]
      rw [map_map]
      rfl
    rw [hsum, ← flatMap_assoc, hflat]
    refine mul_length_le_length_flatMap fun entry hentry => length_entryBytes_ge ?_
    rw [writtenEntries_eq] at hentry
    obtain ⟨e, he, rfl⟩ := mem_map.mp hentry
    exact cleaned_ne_empty he
  have hread := checkDeclaredCount_reads "label index entries"
    (p := fun _ => readEntries keyBudget self.allPostings
      ((groupEntries self.writtenEntries).map fun group => (group.1, group.2.length)) ⟨.empty, 0⟩)
    (by decide : 0 < minEntryBytes) hbytes₂ hentries
  refine ReadsIf.congr ((ReadsIf.lift DecodeError.message (tryReadUvarint_reads _)).bind
    (a := BitVec.ofNat 64 (groupEntries self.writtenEntries).length)
    (Q := (∀ group ∈ groupEntries self.writtenEntries, group.1.length ≤ maxIndexKeyLen) ∧
      ReadsIf.Each (EntryFits keyBudget self.allPostings) LabelAcc.next ⟨.empty, 0⟩ self.writtenEntries) ?_) ?_ rfl
  · rw [hgroupCount]
    refine checkDeclaredCount_reads _ (by decide) (hbytes₁.trans (by rw [length_append]; omega)) ?_
    refine ReadsIf.congr ((ReadsIf.allocate _).bind_nil ((readGroups_reads hgroups).bind hread)) ?_ rfl
    rw [true_and]
  · rw [true_and, each_written_iff, and_iff_right_iff_imp]
    intro hfits group hg
    obtain ⟨hne, hname⟩ := hgroup group hg
    obtain ⟨entry, hentry⟩ := exists_mem_of_ne_nil _ hne
    obtain ⟨e, he, rfl⟩ := mem_groupEntries hg hentry
    have := (hfits.1 e he).1
    have := length_entryOf e
    rw [← hname _ hentry]
    omega

omit [BitmapCodec] in
theorem readIdDirectory_reads {self : Postings} (hkeys : ∀ e ∈ self.idToKey.entries, e.2.length < 2 ^ 64)
    (hcount : self.idToKey.length < 2 ^ 64) :
    ∃ prev, ReadsIf (∀ e ∈ self.idToKey.entries, e.2.length ≤ maxSeriesKeyLen) readIdDirectory
    self.idDirectoryBytes ⟨self.idToKey, prev⟩ := by
  obtain ⟨prev, hids⟩ := readIds_reads self.idToKey.sorted hkeys ⟨.empty, 0⟩ fun _ _ => Fin.zero_le _
  rw [SortedMap.foldl_insert_entries] at hids
  have hidCount : (BitVec.ofNat 64 self.idToKey.length).toNat = self.idToKey.entries.length := by
    rw [BitVec.toNat_ofNat, Nat.mod_eq_of_lt hcount]
    rfl
  refine ⟨prev, ?_⟩
  refine ReadsIf.congr ((ReadsIf.lift DecodeError.message (tryReadUvarint_reads _)).bind
    (a := BitVec.ofNat 64 self.idToKey.length) (Q := ∀ e ∈ self.idToKey.entries, e.2.length ≤ maxSeriesKeyLen) ?_)
    (by simp) rfl
  rw [hidCount]
  exact checkDeclaredCount_reads _ (by decide) (length_idBytes_ge _ _) hids

/-- **The body is read back within the limits.** -/
theorem deserializeBody_reads {self : Postings} (hsized : self.Sized) (keyBudget : Nat) :
    ReadsIf (self.Fits keyBudget) (deserializeBody keyBudget) self.bodyBytes self.cleaned := by
  obtain ⟨prev, hids⟩ := readIdDirectory_reads hsized.keys hsized.ids
  have hindex : (self.writtenEntries.foldl LabelAcc.next ⟨.empty, 0⟩).labelIndex = self.cleaned.labelIndex := by
    rw [writtenEntries_eq, foldl_next_entryOf, SortedMap.foldl_insert_entries]
  have hpure : ReadsIf (ε := String) True (pure (⟨(self.writtenEntries.foldl LabelAcc.next ⟨.empty, 0⟩).labelIndex,
      self.idToKey, .default, self.allPostings⟩ : Postings)) ([] : Bytes) self.cleaned := by
    rw [hindex]
    exact ReadsIf.pure self.cleaned
  refine ReadsIf.congr ((readBitmap_reads hsized.allPostings).bind
    ((readLabelIndex_reads hsized keyBudget).bind (hids.bind hpure))) ?_ (by rw [append_nil]; rfl)
  constructor
  · rintro ⟨hall, ⟨hlists, hbytes, hcompatible⟩, hkeys, -⟩
    exact ⟨hall, hlists, hbytes, hcompatible, hkeys⟩
  · intro h
    exact ⟨h.allPostings, ⟨h.lists, h.keyBytes, h.compatible⟩, h.keys, trivial⟩

/-! ### Reachable indexes -/

/-- The indexes a database can come to hold: empty or loaded, then changed. -/
inductive Reachable : Postings → Prop
  | empty : Reachable .default
  | loaded {s s' : Metered (BitVec 8)} {p : Postings} : deserialize s = (.ok p, s') → Reachable p
  | indexed {p : Postings} (series : IndexedSeries) (key : KeyType) :
      Reachable p → Reachable (p.indexTimeseries series key)
  | bulkIndexed {p : Postings} (entries : List BulkIndexEntry) : Reachable p → Reachable (p.bulkIndex entries)
  | removed {p : Postings} (series : IndexedSeries) : Reachable p → Reachable (p.removeTimeseries series).1
  | removedForKey {p : Postings} (series : IndexedSeries) (key : KeyType) :
      Reachable p → Reachable (p.removeTimeseriesForKey series key).1
  | marked {p : Postings} (ids : List SeriesRef) : Reachable p → Reachable (p.markIdsAsStale ids)
  | drained {p : Postings} (start : Option IndexKey) (count : Nat) :
      Reachable p → Reachable (p.removeStaleIds start count).1
  | optimized {p : Postings} (start : Option IndexKey) (count : Nat) :
      Reachable p → Reachable (p.optimizePostings start count).1

theorem deserialize_clean : Ensures deserialize fun p => p.staleIds = .default := by
  refine (Ensures.trivial _).bind fun _ _ => (Ensures.trivial _).bind fun _ _ => (Ensures.trivial _).bind fun _ _ => ?_
  exact (Ensures.trivial _).bind fun _ _ => (Ensures.trivial _).bind fun _ _ => (Ensures.trivial _).bind fun _ _ =>
    Ensures.pure rfl

theorem Reachable.disjoint {p : Postings} (h : Reachable p) : Disjoint p.staleIds.ids p.allPostings := by
  induction h with
  | empty => exact Finset.disjoint_empty_left _
  | loaded heq =>
    rw [deserialize_clean _ _ _ heq]
    exact Finset.disjoint_empty_left _
  | @indexed p series key _ ih =>
    obtain ⟨_, hids, _, hall, _⟩ := p.indexTimeseries_spec series key
    rw [hids, hall, Finset.disjoint_left]
    intro id hid hmem
    obtain ⟨hne, hstale⟩ := Finset.mem_erase.mp hid
    exact (Finset.mem_insert.mp hmem).elim hne (Finset.disjoint_left.mp ih hstale)
  | @bulkIndexed p entries _ ih =>
    obtain ⟨_, hids, _, hall, _⟩ := p.bulkIndex_spec entries
    rw [hids, hall, Finset.disjoint_left]
    intro id hid hmem
    obtain ⟨hstale, hnot⟩ := Finset.mem_sdiff.mp hid
    exact (Finset.mem_union.mp hmem).elim (Finset.disjoint_left.mp ih hstale) hnot
  | @removed p series _ ih =>
    obtain ⟨_, hstale, hall, _⟩ := p.removeTimeseries_spec series
    rw [hstale, hall]
    exact ih.mono_right (Finset.erase_subset _ _)
  | @removedForKey p series key _ ih =>
    rw [removeTimeseriesForKey]
    split
    · obtain ⟨_, hstale, hall, _⟩ := p.removeTimeseries_spec series
      rw [hstale, hall]
      exact ih.mono_right (Finset.erase_subset _ _)
    · exact ih
  | @marked p ids _ ih =>
    rw [Finset.disjoint_left]
    intro id hid hmem
    obtain ⟨hlive, hnot⟩ := Finset.mem_sdiff.mp hmem
    exact (Finset.mem_union.mp hid).elim (fun hstale => Finset.disjoint_left.mp ih hstale hlive) hnot
  | @drained p start count _ ih =>
    rw [(p.removeStaleIds_frame start count).1]
    by_cases hempty : p.staleIds.ids = ∅
    · rw [removeStaleIds_of_empty hempty]
      exact ih
    · rcases staleIds_removeStaleIds hempty start count with ⟨_, heq⟩ | ⟨_, heq⟩
      · rw [heq]
        exact ih
      · rw [heq]
        exact ih.mono_left Finset.sdiff_subset
  | optimized _ _ _ ih => exact ih

/-! ### A snapshot answers what the index answers -/

omit [BitmapCodec] [HeapSizes] in
theorem terms_alike_cleaned (p : Postings) : p.cleaned.terms.Alike p.terms := by
  refine ⟨rfl, fun key id => ?_⟩
  change (id ∈ (p.cleaned.labelIndex.get? key).getD ∅ ∧ id ∉ (∅ : PostingsBitmap)) ↔
    (id ∈ (p.labelIndex.get? key).getD ∅ ∧ id ∉ p.staleIds.ids)
  rw [cleaned, SortedMap.get?_filterMap]
  cases p.labelIndex.get? key with
  | none => simp
  | some bitmap =>
    have hdrained : id ∈ (Postings.drained p.staleIds bitmap).getD ∅ ↔ id ∈ p.staleIds.mask bitmap := by
      rw [Postings.drained]
      split
      · next h => simp [h]
      · simp
    rw [Option.bind_some, hdrained, StaleSet.mem_mask]
    simp

/-- An index that answers what another one answers, with no stale id pending. -/
structure Answers (p q : Postings) : Prop where
  filters : ∀ filters, p.postingsForLabelFilters filters = q.postingsForLabelFilters filters
  selectors : ∀ selectors, p.postingsForSelectors selectors = q.postingsForSelectors selectors
  keys : ∀ id, p.getKeyById id = q.getKeyById id
  count : p.count = q.count
  clean : p.staleIds = .default

/-- The snapshot of an index loads, to the end, as an index that answers what it answered. -/
def Restores (p : Postings) : Prop :=
  ∃ q used, deserialize ⟨p.serialize, 0⟩ = (.ok q, ⟨[], used⟩) ∧ q.Answers p

theorem deserialize_serialize_eq (p : Postings) :
    deserialize ⟨p.serialize, 0⟩ = deserializeBody (p.bodyBytes.length * maxKeyExpansionRatio) ⟨p.bodyBytes, 0⟩ := rfl

end RoundTrip

/-! ### Two snapshots -/

/-- A plain format: a header and the ids in order. -/
def plainIds : Nat → Bytes → Option (List SeriesRef)
  | _, [] => some []
  | 0, _ :: _ => none
  | fuel + 1, b :: bytes =>
    match tryReadU64Le (b :: bytes) with
    | .ok (id, rest) => (plainIds fuel rest).map (id.toFin :: ·)
    | .error _ => none

theorem plainIds_leBytes (ids : List SeriesRef) (fuel : Nat) (h : ids.length ≤ fuel) :
    plainIds fuel (ids.flatMap fun id => leBytes (BitVec.ofFin id)) = some ids := by
  induction ids generalizing fuel with
  | nil => cases fuel <;> rfl
  | cons id ids ih =>
    cases fuel with
    | zero => cases h
    | succ fuel =>
      obtain ⟨rest, hread, rfl⟩ := tryReadU64Le_reads (BitVec.ofFin id) _
        (ids.flatMap fun id => leBytes (BitVec.ofFin id)) rfl
      have hcons : leBytes (BitVec.ofFin id) ++ (ids.flatMap fun id => leBytes (BitVec.ofFin id)) ≠ [] := by
        intro hnil
        have hlen : (leBytes (BitVec.ofFin id)).length = 8 := by simp [leBytes]
        rw [(append_eq_nil_iff.mp hnil).1] at hlen
        cases hlen
      obtain ⟨b, s, hbs⟩ := exists_cons_of_ne_nil hcons
      rw [flatMap_cons, hbs, plainIds, ← hbs, hread]
      dsimp only
      rw [ih fuel (by simpa using h)]
      rfl

theorem length_plainIds (ids : List SeriesRef) :
    (ids.flatMap fun id => leBytes (BitVec.ofFin id)).length = 8 * ids.length := by
  induction ids with
  | nil => rfl
  | cons id ids ih =>
    have hlen : (leBytes (BitVec.ofFin id)).length = 8 := by simp [leBytes]
    rw [flatMap_cons, length_append, ih, hlen, length_cons]
    omega

@[reducible] def plainCodec : BitmapCodec where
  encode bitmap := List.replicate 22 0 ++ bitmap.ids.flatMap fun id => leBytes (BitVec.ofFin id)
  decode bytes :=
    if bytes.length < 22 then none else (plainIds bytes.length (bytes.drop 22)).map List.toFinset
  decode_encode bitmap := by
    rw [if_neg (by simp), drop_left' (by simp), plainIds_leBytes _ _ (by
      rw [length_append, length_plainIds]
      omega)]
    simp [PostingsBitmap.ids]
  min_length bitmap h := by
    have hcard : 0 < bitmap.card := Finset.card_pos.mpr (Finset.nonempty_iff_ne_empty.mpr h)
    rw [length_append, length_plainIds, PostingsBitmap.ids, Finset.length_sort, length_replicate]
    omega
  heap := 64

@[reducible] def plainSizes : HeapSizes := ⟨64, 128, fun _ => "prefix"⟩

def oneSeries : Postings := Postings.default.indexTimeseries ⟨1, [labelA]⟩ [0x6B]

def named (key : KeyType) : Postings := Postings.default.indexTimeseries ⟨1, []⟩ key

theorem length_encode_one : (plainCodec.encode {1}).length = 30 := by
  change (List.replicate 22 0 ++ _).length = 30
  rw [length_append, length_plainIds, PostingsBitmap.ids, Finset.length_sort, length_replicate]
  rfl

end Postings

end ValkeyTimeSeries
