/-
Chimp/Serialization.lean

`ChimpCompressor::serialize` and `deserialize`, and the compressor as a codec.

Design.  As for Gorilla, the whole rolling state goes out and comes back.  The
integers are signed here, and two of them are `i32`s that leave as `i64`s and
are cut back on the way in.
-/
import ValkeyTimeSeries.Chimp.Compressor
import ValkeyTimeSeries.Gorilla.Serialization

namespace ValkeyTimeSeries

open Bits Codec

def readSignedVarint : StateT (List (BitVec 8)) (Except TsdbError) (BitVec 64) :=
  mapErr (fun _ => TsdbError.chunkDecoding) tryReadSignedVarint

theorem readSignedVarint_reads (v : BitVec 64) : Reads Eq readSignedVarint (signedVarintBytes v) v :=
  (tryReadSignedVarint_reads v).mapErr _

def asI32 (x : BitVec 64) : Int := (x.setWidth 32).toInt

theorem asI32_asU64 {x : Int} (h : i32Min ≤ x ∧ x ≤ i32Max) : asI32 (asU64 x) = x := by
  obtain ⟨hlo, hhi⟩ := h
  rw [i32Min] at hlo
  rw [i32Max] at hhi
  rw [asI32, asU64, BitVec.toInt_setWidth, BitVec.toNat_ofInt]
  rw [Int.bmod_def]
  omega

def firstFlag (first : Bool) : BitVec 64 := if first then 1 else 0

namespace ChimpCompressor

def serialize (c : ChimpCompressor) : List (BitVec 8) :=
  uvarintBytes (BitVec.ofNat 64 c.count)
    ++ (signedVarintBytes (asU64 c.firstTimestamp)
    ++ (signedVarintBytes (asU64 c.lastTimestamp)
    ++ (signedVarintBytes (asU64 c.lastDelta)
    ++ (leBytes c.lastValue
    ++ (signedVarintBytes (asU64 c.lastBetaStar)
    ++ (signedVarintBytes (asU64 c.chimp.storedLz)
    ++ (uvarintBytes c.chimp.storedVal
    ++ (uvarintBytes (firstFlag c.chimp.first)
    ++ c.writer.serialize))))))))

def read : StateT (List (BitVec 8)) (Except TsdbError) ChimpCompressor := do
  let count ← readUnsignedVarint
  let firstTimestamp ← readSignedVarint
  let lastTimestamp ← readSignedVarint
  let lastDelta ← readSignedVarint
  let lastValue ← readF64Le
  let lastBetaStar ← readSignedVarint
  let storedLz ← readSignedVarint
  let storedVal ← readUnsignedVarint
  let first ← readUnsignedVarint
  let writer ← readBitStream
  pure
    { writer, chimp := ⟨asI32 storedLz, storedVal, decide (first ≠ 0)⟩
      lastBetaStar := asI32 lastBetaStar, count := count.toNat
      firstTimestamp := firstTimestamp.toInt, lastTimestamp := lastTimestamp.toInt
      lastDelta := lastDelta.toInt, lastValue }

def deserialize (buf : List (BitVec 8)) : Except TsdbError ChimpCompressor := Prod.fst <$> read buf

variable {c : ChimpCompressor}

theorem read_reads (hok : c.Ok) (hcount : c.count < 2 ^ 64) {xs : List Bool}
    (hw : c.writer.Holds xs) (hlen : c.writer.stream.length < 2 ^ 64) : Reads Eq read c.serialize c := by
  have hfirst : decide (firstFlag c.chimp.first ≠ 0) = c.chimp.first := by
    cases c.chimp.first <;> decide
  refine (readUnsignedVarint_reads _).bind ?_
  refine (readSignedVarint_reads _).bind ?_
  refine (readSignedVarint_reads _).bind ?_
  refine (readSignedVarint_reads _).bind ?_
  refine (readF64Le_reads _).bind ?_
  refine (readSignedVarint_reads _).bind ?_
  refine (readSignedVarint_reads _).bind ?_
  refine (readUnsignedVarint_reads _).bind ?_
  refine (readUnsignedVarint_reads _).bind ?_
  refine (readBitStream_reads hw hlen).bind_pure ?_
  rw [toNat_ofNat_of_lt hcount, toInt_asU64 hok.firstTimestamp.1 hok.firstTimestamp.2,
    toInt_asU64 hok.lastTimestamp.1 hok.lastTimestamp.2, toInt_asU64 hok.lastDelta.1 hok.lastDelta.2,
    asI32_asU64 hok.lastBetaStar, asI32_asU64 hok.storedLz, hfirst]

variable [DecimalHelpers]

theorem Encodes.deserialize_serialize {l : List Sample} (h : Encodes c l)
    (hlen : l.length < 2 ^ 59) : deserialize c.serialize = .ok c := by
  obtain ⟨hok, hnum, -, -, xs, hw, hxs⟩ := h.spec
  have hbytes := hw.length_eq
  have hread := read_reads hok (by omega) hw (by omega)
  obtain ⟨rest, heq, -⟩ := hread c.serialize [] (by simp)
  rw [deserialize, heq]
  rfl

theorem Encodes.ends {l : List Sample} {s : Sample} (h : Encodes c (l ++ [s])) :
    c.lastTimestamp = s.timestamp ∧ c.lastValue = s.value := by
  rw [← h.run, addAll, List.foldl_append]
  change ((new.addAll l).addSample s).lastTimestamp = _ ∧ ((new.addAll l).addSample s).lastValue = _
  rw [((new.addAll l).addSample_appended s).rest]
  exact ⟨rfl, rfl⟩

theorem addAll_firstTimestamp (c : ChimpCompressor) (l : List Sample) (hcount : 0 < c.count) :
    (c.addAll l).firstTimestamp = c.firstTimestamp := by
  induction l generalizing c with
  | nil => rfl
  | cons s l ih =>
    have happ := (c.addSample_appended s).rest
    have hpos : 0 < (c.addSample s).count := by
      exact Nat.succ_pos _
    change ((c.addSample s).addAll l).firstTimestamp = _
    rw [ih _ hpos, happ]
    exact if_neg (by omega)

theorem Encodes.firstTimestamp_eq {l : List Sample} (h : Encodes c l) : c.firstTimestamp = headTs l := by
  rw [← h.run]
  cases l with
  | nil => rfl
  | cons s l =>
    have happ := (new.addSample_appended s).rest
    have hpos : 0 < (new.addSample s).count := by
      exact Nat.succ_pos _
    change ((new.addSample s).addAll l).firstTimestamp = _
    rw [addAll_firstTimestamp _ l hpos, happ]
    rfl

theorem new_encodes : new.Encodes [] := ⟨by simp [ValidTimes], rfl⟩

theorem Encodes.length_bytes_le {l : List Sample} (h : c.Encodes l) : c.bytes.length ≤ 21 * l.length := by
  obtain ⟨-, -, -, -, xs, hw, hxs⟩ := h.spec
  have hbytes := hw.length_eq
  rw [bytes]
  omega

instance : LawfulCodec ChimpCompressor where
  new := new
  addSample c s := .ok (c.addSample s)
  decode := decode
  numSamples := count
  firstTs := firstTimestamp
  lastTs := lastTimestamp
  lastValue := lastValue
  buf := bytes
  serialize := serialize
  deserialize := deserialize
  Encodes c l := Increasing l ∧ c.Encodes l
  run_of_encodes h := ⟨h.2.times, h.1⟩
  encodes_new := ⟨List.Pairwise.nil, new_encodes⟩
  encodes_addSample h hrun := ⟨_, rfl, hrun.increasing, h.2.addSample hrun.times⟩
  encodes_unique h h' := h.2.run.symm.trans h'.2.run
  decode_eq h := h.2.spec.2.2.1
  numSamples_eq h := h.2.spec.2.1
  firstTs_eq h := h.2.firstTimestamp_eq
  last_eq h := h.2.ends
  length_buf_le h := h.2.length_bytes_le
  deserialize_serialize h hlen := h.2.deserialize_serialize hlen

end ChimpCompressor

end ValkeyTimeSeries
