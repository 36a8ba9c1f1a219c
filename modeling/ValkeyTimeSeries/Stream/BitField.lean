/-
Stream/BitField.lean

Sequences of writes and reads (`series/chunks/stream/bitstream.rs`,
`series/chunks/stream/bitstream_reader.rs`).

Design.  A field is one write, and the read of its kind.  `Takes` says that a read which succeeds has found
its bits among those the reader holds.  The reader is bounded by the bytes of the stream and not by its
bits, so the padding of the last byte is among them.
-/
import ValkeyTimeSeries.Stream.BitStreamReader
import ValkeyTimeSeries.Library.SortedList

namespace ValkeyTimeSeries

open List Bits Codec BitStreamReader

inductive BitField where
  | bit (b : Bool)
  | byte (b : BitVec 8)
  | bits (n : Fin 65) (value : BitVec 64)
  | uvarint (value : BitVec 64)
  | varint (value : BitVec 64)

namespace BitField

def write (s : BitStream) : BitField → BitStream
  | bit b => s.writeBitRaw b
  | byte b => s.writeByteRaw b
  | bits n value => s.writeBits n value
  | uvarint value => s.writeUvarint value
  | varint value => s.writeVarint value

def read : BitField → BitReader (BitVec 64)
  | bit _ => (fun b => (BitVec.ofBool b).setWidth 64) <$> readBit
  | byte _ => (·.setWidth 64) <$> readByte
  | bits n _ => readBits n
  | uvarint _ => readUvarint
  | varint _ => readVarint

def value : BitField → BitVec 64
  | bit b => (BitVec.ofBool b).setWidth 64
  | byte b => b.setWidth 64
  | bits n value => BitVec.ofNat 64 (value.toNat % 2 ^ n.val)
  | uvarint value => value
  | varint value => value

def encode : BitField → List Bool
  | bit b => [b]
  | byte b => byteBits b
  | bits n value => bitsBE n value.toNat
  | uvarint value => bytesBits (uvarintBytes value)
  | varint value => bytesBits (signedVarintBytes value)

def least : BitField → Nat
  | bit _ => 1
  | bits n _ => n
  | byte _ | uvarint _ | varint _ => 8

theorem write_writes (f : BitField) : Writes BitStream.Holds (fun s => f.write s) f.encode := by
  cases f with
  | bit b => exact BitStream.writeBitRaw_writes b
  | byte b => exact BitStream.writeByteRaw_writes b
  | bits n value => exact BitStream.writeBits_writes_of_le (Nat.le_of_lt_succ n.isLt) value
  | uvarint value => exact BitStream.writeUvarint_writes value
  | varint value => exact BitStream.writeVarint_writes value

theorem read_reads (f : BitField) : Reads Holds f.read f.encode f.value := by
  cases f with
  | bit b => exact (readBit_reads b).map _
  | byte b => exact (readByte_reads b).map _
  | bits n value => exact readBits_bitsBE (Nat.le_of_lt_succ n.isLt) value
  | uvarint value => exact readUvarint_reads value
  | varint value => exact readVarint_reads value

end BitField

/-! ### Reads that succeed -/

section Takes

variable {α β : Type} {r : BitStreamReader} {xs : List Bool} {n : Nat}

def BitStreamReader.unread (r : BitStreamReader) : Nat := r.valid + 8 * (r.stream.length - r.streamOffset)

theorem BitStreamReader.Holds.unread_eq (h : Holds r xs) : r.unread = xs.length := by
  rw [← h.2.2, length_append, length_bitsBE, length_bytesBits, length_drop]
  rfl

theorem BitStreamReader.Holds.valid_le (h : Holds r xs) : r.valid ≤ xs.length := by
  rw [← h.unread_eq]
  exact Nat.le_add_right _ _

/-- A read that succeeds has taken at least `n` of the bits ahead. -/
def Takes (n : Nat) (p : BitReader α) : Prop :=
  ∀ r xs v r', Holds r xs → p r = .ok (v, r') → ∃ ys, Holds r' ys ∧ ys.length + n ≤ xs.length

theorem Takes.bind {p : BitReader α} {f : α → BitReader β} (hp : Takes n p) (hf : ∀ a, Takes 0 (f a)) :
    Takes n (p >>= f) := by
  intro r xs v r' h hread
  obtain ⟨⟨a, r₁⟩, h₁, h₂⟩ := Except.ok_of_bind hread
  obtain ⟨ys, hys, hlen⟩ := hp _ _ _ _ h h₁
  obtain ⟨zs, hzs, hlen'⟩ := hf a _ _ _ _ hys h₂
  exact ⟨zs, hzs, by omega⟩

theorem takes_pure (a : α) : Takes 0 (pure a) := by
  intro r xs v r' h hread
  cases hread
  exact ⟨xs, h, le_rfl⟩

theorem Takes.map {p : BitReader α} (f : α → β) (hp : Takes n p) : Takes n (f <$> p) := by
  rw [map_eq_pure_bind]
  exact hp.bind fun a => takes_pure _

/-- A read of more bits than there are fails, after a first window too. -/
theorem readBits_short (h : Holds r xs) (hn : xs.length < n) : ∃ e, readBits n r = .error e := by
  have := h.valid_le
  have hfull := h.refill.valid_le
  rw [readBits, if_pos (by omega)]
  split
  · exact ⟨_, rfl⟩
  rw [if_pos (by omega), readBitsStraddling]
  split
  · exact ⟨_, rfl⟩
  · have hcut : Holds r.refill (xs.take r.refill.valid ++ xs.drop r.refill.valid) := by
      rw [take_append_drop]
      exact h.refill
    obtain ⟨-, hrest⟩ := hcut.takeBits (length_take_le _ _)
    rw [length_take, min_eq_left hfull] at hrest
    have := hrest.refill.valid_le
    rw [length_drop] at this
    rw [if_pos (by omega)]
    exact ⟨_, rfl⟩

theorem takes_readBits (hn : n ≤ 64) : Takes n (readBits n) := by
  intro r xs v r' h hread
  by_cases hlen : xs.length < n
  · obtain ⟨e, he⟩ := readBits_short h hlen
    rw [he] at hread
    cases hread
  · have htake : (xs.take n).length = n := length_take_of_le (by omega)
    obtain ⟨r₁, h₁, hrest⟩ := readBits_reads (xs.take n) (by omega) r (xs.drop n) (by rwa [take_append_drop])
    rw [htake, hread] at h₁
    cases h₁
    exact ⟨_, hrest, by rw [length_drop]; omega⟩

theorem takes_readBit : Takes 1 readBit := by
  intro r xs v r' h hread
  cases xs with
  | nil =>
    have := h.valid_le
    have hfull := h.refill.valid_le
    rw [length_nil, Nat.le_zero] at this hfull
    simp only [readBit, this, hfull, if_true] at hread
    cases hread
  | cons b xs =>
    obtain ⟨r₁, h₁, hrest⟩ := readBit_reads b r xs h
    rw [hread] at h₁
    cases h₁
    exact ⟨xs, hrest, le_rfl⟩

theorem takes_readUvarintRounds (fuel : Nat) (x : BitVec 64) (s : Nat) : Takes 8 (readUvarintRounds fuel x s) := by
  induction fuel generalizing x s with
  | zero =>
    intro r xs v r' h hread
    cases hread
  | succ fuel ih =>
    refine ((takes_readBits (by decide)).map _).bind fun byte => ?_
    split
    · exact takes_pure _
    · intro r xs v r' h hread
      obtain ⟨ys, hys, hlen⟩ := ih _ _ _ _ _ _ h hread
      exact ⟨ys, hys, by omega⟩

theorem BitField.read_takes (f : BitField) : Takes f.least f.read := by
  cases f with
  | bit b => exact takes_readBit.map _
  | byte b => exact ((takes_readBits (show 8 ≤ 64 by decide)).map _).map _
  | bits n value => exact takes_readBits (Nat.le_of_lt_succ n.isLt)
  | uvarint value => exact takes_readUvarintRounds _ _ _
  | varint value => exact (takes_readUvarintRounds _ _ _).bind fun ux => takes_pure _

end Takes

/-! ### Sequences -/

def written (fields : List BitField) : BitStream := fields.foldl BitField.write .new

theorem written_holds (fields : List BitField) : (written fields).Holds (fields.flatMap BitField.encode) :=
  Writes.foldl BitField.write_writes fields _ _ BitStream.new_holds

/-- What the writes leave behind. -/
structure Inverse (fields : List BitField) : Prop where
  /-- The values of any first writes are read back. -/
  reads : ∀ front back, fields = front ++ back →
    ∃ r, front.mapM BitField.read (.new (written fields).stream) = .ok (front.map BitField.value, r)
  /-- Behind the last write there is less than a byte of padding.  It is read as zeros, and a read that needs more
  than it
  fails. -/
  ends : ∃ r, fields.mapM BitField.read (.new (written fields).stream) = .ok (fields.map BitField.value, r)
    ∧ r.unread < 8 ∧ (∀ n ≤ r.unread, ∃ r', readBits n r = .ok (0, r'))
    ∧ ∀ next : BitField, r.unread < next.least → ∃ e, next.read r = .error e
  /-- Saving and loading the stream between any two writes changes nothing. -/
  saves : ∀ front back, fields = front ++ back → (written front).stream.length < 2 ^ 64 → ∀ rest,
    ∃ s, BitStream.deserialize ((written front).serialize ++ rest) = .ok (s, rest)
      ∧ back.foldl BitField.write s = written fields

/-- **Bit streams.**  Writing and reading are inverse up to the padding of the last byte. -/
theorem inverse_up_to_padding (fields : List BitField) : Inverse fields := by
  have hholds := written_holds fields
  have hnew : Holds (.new (written fields).stream)
      (fields.flatMap BitField.encode ++ replicate (written fields).count false) := by
    rw [← hholds.2]
    exact new_holds _
  refine ⟨?_, ?_, ?_⟩
  · rintro front back rfl
    rw [flatMap_append, append_assoc] at hnew
    obtain ⟨r, hread, -⟩ := Reads.mapM BitField.read_reads front _ _ hnew
    exact ⟨r, hread⟩
  · obtain ⟨r, hread, hrest⟩ := Reads.mapM BitField.read_reads fields _ _ hnew
    have hunread := hrest.unread_eq
    rw [length_replicate] at hunread
    refine ⟨r, hread, hunread ▸ hholds.1, fun n hn => ?_, fun next hshort => ?_⟩
    · have hzeros : Holds r (bitsBE n 0 ++ replicate ((written fields).count - n) false) := by
        rw [bitsBE_zero_right, ← replicate_add, Nat.add_sub_cancel' (hunread ▸ hn)]
        exact hrest
      have hcount := hholds.1
      obtain ⟨r', hzero, -⟩ := readBits_bitsBE (by omega) 0 r _ hzeros
      exact ⟨r', by simpa using hzero⟩
    · -- a read that succeeds has found all its bits in the padding
      cases hnext : next.read r with
      | error e => exact ⟨e, rfl⟩
      | ok out =>
        obtain ⟨ys, -, hle⟩ := next.read_takes _ _ _ _ hrest hnext
        rw [hunread] at hshort
        rw [length_replicate] at hle
        omega
  · rintro front back rfl hlen rest
    obtain ⟨_, hread, rfl⟩ := BitStream.deserialize_reads (written_holds front) hlen _ rest rfl
    exact ⟨_, hread, (foldl_append ..).symm⟩

/-- After one bit, a second one is read from the padding. -/
theorem padding_is_read :
    ∃ r r', [BitField.bit true].mapM BitField.read (.new (written [.bit true]).stream) = .ok ([1], r)
      ∧ (BitField.bit true).read r = .ok (0, r') := by
  exact ⟨_, _, rfl, rfl⟩

end ValkeyTimeSeries
