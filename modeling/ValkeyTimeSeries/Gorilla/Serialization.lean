/-
Gorilla/Serialization.lean

`GorillaEncoder::serialize` and `deserialize`, and the encoder as a codec.

Design.  The whole rolling state goes out, then the bit stream, so a chunk that is loaded and written to
continues with the bits it would have had.
-/
import ValkeyTimeSeries.Chunk.Codec
import ValkeyTimeSeries.Gorilla.Encoder

namespace ValkeyTimeSeries

open Bits Codec

/-- `read_unsigned_varint`: every error becomes a chunk decoding error. -/
def readUnsignedVarint : StateT (List (BitVec 8)) (Except TsdbError) (BitVec 64) :=
  mapErr (fun _ => TsdbError.chunkDecoding) tryReadUvarint

def readF64Le : StateT (List (BitVec 8)) (Except TsdbError) F64 :=
  mapErr (fun _ => TsdbError.chunkDecoding) tryReadU64Le

def readBitStream : StateT (List (BitVec 8)) (Except TsdbError) BitStream :=
  mapErr (fun _ => TsdbError.chunkDecoding) BitStream.deserialize

theorem readUnsignedVarint_reads (v : BitVec 64) : Reads Eq readUnsignedVarint (uvarintBytes v) v :=
  (tryReadUvarint_reads v).mapErr _

theorem readF64Le_reads (v : F64) : Reads Eq readF64Le (leBytes v) v :=
  (tryReadU64Le_reads v).mapErr _

theorem readBitStream_reads {s : BitStream} {xs : List Bool} (h : s.Holds xs)
    (hlen : s.stream.length < 2 ^ 64) : Reads Eq readBitStream s.serialize s :=
  (BitStream.deserialize_reads h hlen).mapErr _

theorem toNat_ofNat_of_lt {n : Nat} (h : n < 2 ^ 64) : (BitVec.ofNat 64 n).toNat = n := by
  rw [BitVec.toNat_ofNat, Nat.mod_eq_of_lt h]

theorem toInt_asU64_of_validTs {t : Int} (h : ValidTs t) : (asU64 t).toInt = t :=
  toInt_asU64 (h.1.trans' (by decide)) h.2

namespace GorillaEncoder

def serialize (e : GorillaEncoder) : List (BitVec 8) :=
  uvarintBytes (BitVec.ofNat 64 e.numSamples)
    ++ (uvarintBytes (asU64 e.firstTs)
    ++ (uvarintBytes (asU64 e.lastTs)
    ++ (leBytes e.lastValue
    ++ (uvarintBytes (asU64 e.timestampDelta)
    ++ ([BitVec.ofNat 8 e.window.leading, BitVec.ofNat 8 e.window.trailing]
    ++ e.writer.serialize)))))

def readWindow : StateT (List (BitVec 8)) (Except TsdbError) XorWindow := fun buf =>
  match buf with
  | leadingBits :: trailingBits :: rest => .ok (⟨leadingBits.toNat, trailingBits.toNat⟩, rest)
  | _ => .error .chunkDecoding

def read : StateT (List (BitVec 8)) (Except TsdbError) GorillaEncoder := do
  let numSamples ← readUnsignedVarint
  let firstTs ← readUnsignedVarint
  let lastTs ← readUnsignedVarint
  let lastValue ← readF64Le
  let timestampDelta ← readUnsignedVarint
  let window ← readWindow
  let writer ← readBitStream
  pure
    { writer, window, timestampDelta := timestampDelta.toInt, numSamples := numSamples.toNat
      firstTs := firstTs.toInt, lastTs := lastTs.toInt, lastValue }

def deserialize (buf : List (BitVec 8)) : Except TsdbError GorillaEncoder := Prod.fst <$> read buf

theorem readWindow_reads {window : XorWindow} (h : window.Ok) :
    Reads Eq readWindow [BitVec.ofNat 8 window.leading, BitVec.ofNat 8 window.trailing] window := by
  have hbytes : window.leading < 256 ∧ window.trailing < 256 := by
    rcases h with rfl | h
    · decide
    · omega
  rintro buf rest rfl
  refine ⟨rest, ?_, rfl⟩
  simp only [readWindow, List.cons_append, List.nil_append, BitVec.toNat_ofNat,
    Nat.mod_eq_of_lt hbytes.1, Nat.mod_eq_of_lt hbytes.2]

theorem read_reads {e : GorillaEncoder} (hok : e.Ok) (hfirst : ValidTs e.firstTs)
    (hnum : e.numSamples < 2 ^ 64) {xs : List Bool} (hw : e.writer.Holds xs)
    (hlen : e.writer.stream.length < 2 ^ 64) : Reads Eq read e.serialize e := by
  refine (readUnsignedVarint_reads _).bind ?_
  refine (readUnsignedVarint_reads _).bind ?_
  refine (readUnsignedVarint_reads _).bind ?_
  refine (readF64Le_reads _).bind ?_
  refine (readUnsignedVarint_reads _).bind ?_
  refine (readWindow_reads hok.window).bind ?_
  refine (readBitStream_reads hw hlen).bind_pure ?_
  rw [toNat_ofNat_of_lt hnum, toInt_asU64_of_validTs hfirst, toInt_asU64_of_validTs hok.lastTs,
    toInt_asU64_of_validTs hok.timestampDelta]

theorem Encodes.validTs_firstTs {e : GorillaEncoder} {l : List Sample} (h : Encodes e l) : ValidTs e.firstTs := by
  rw [h.ends.1]
  cases l with
  | nil => decide
  | cons s l => exact h.times s (List.mem_cons_self)

theorem Encodes.deserialize_serialize {e : GorillaEncoder} {l : List Sample} (h : Encodes e l)
    (hlen : l.length < 2 ^ 59) : deserialize e.serialize = .ok e := by
  obtain ⟨hok, hnum, -, xs, hw, hxs⟩ := h.spec
  have hbytes := hw.length_eq
  have hread := read_reads hok h.validTs_firstTs (by omega) hw (by omega)
  obtain ⟨rest, heq, -⟩ := hread e.serialize [] (by simp)
  rw [deserialize, heq]
  rfl

instance : LawfulCodec GorillaEncoder where
  new := new
  addSample := addSample
  decode := decode
  numSamples := numSamples
  firstTs := firstTs
  lastTs := lastTs
  lastValue := lastValue
  buf := buf
  serialize := serialize
  deserialize := deserialize
  Encodes := Encodes
  run_of_encodes h := ⟨h.times, h.increasing⟩
  encodes_new := new_encodes
  encodes_addSample h hrun := h.addSample hrun.times hrun.increasing
  encodes_unique h h' := h.unique h'
  decode_eq h := h.spec.2.2.1
  numSamples_eq h := h.spec.2.1
  firstTs_eq h := h.ends.1
  last_eq h := by
    obtain ⟨-, hts, hval⟩ := h.ends
    rw [List.getLast?_concat] at hts hval
    exact ⟨hts, hval⟩
  length_buf_le h := by
    obtain ⟨-, -, -, xs, hw, hxs⟩ := h.spec
    have hbytes := hw.length_eq
    rw [buf]
    omega
  deserialize_serialize h hlen := h.deserialize_serialize hlen

end GorillaEncoder

end ValkeyTimeSeries
