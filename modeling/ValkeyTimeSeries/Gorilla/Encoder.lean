/-
Gorilla/Encoder.lean

The Gorilla encoder and its iterator: `series/chunks/gorilla/gorilla_encoder.rs` and `gorilla_iterator.rs`.

Design.  The first sample is stored whole, the second as a delta, every other one as a delta of deltas, each
followed by its value.  The iterator follows the encoder: if it has seen what the encoder had seen (`Sync`)
and the bits of the next sample are ahead, it returns that sample and both are in step again (`next_reads`).

Differences of accepted timestamps cannot leave the range of `i64`, so they are differences of integers here.
-/
import ValkeyTimeSeries.Gorilla.VarbitXor

namespace ValkeyTimeSeries

open Bits Codec
open List hiding take

/-! ### The encoder -/

structure GorillaEncoder where
  writer : BitStream
  window : XorWindow
  timestampDelta : Int
  numSamples : Nat
  firstTs : Int
  lastTs : Int
  lastValue : F64
deriving DecidableEq, Repr

namespace GorillaEncoder

def new : GorillaEncoder :=
  { writer := BitStream.new, window := ⟨0, 0⟩, timestampDelta := 0, numSamples := 0,
    firstTs := 0, lastTs := 0, lastValue := 0 }

def notSorted : IoError := .invalidData "samples aren't sorted by timestamp ascending"

def writeFirstSample (e : GorillaEncoder) (sample : Sample) : Except IoError GorillaEncoder :=
  .ok { e with
    writer := (e.writer.writeVarint (asU64 sample.timestamp)).writeU64 sample.value
    firstTs := sample.timestamp
    lastTs := sample.timestamp
    lastValue := sample.value
    numSamples := e.numSamples + 1 }

def advance (e : GorillaEncoder) (sample : Sample) (timestampDelta : Int)
    (r : BitStream × XorWindow) : GorillaEncoder :=
  { e with
    writer := r.1
    window := r.2
    timestampDelta := timestampDelta
    lastTs := sample.timestamp
    lastValue := sample.value
    numSamples := e.numSamples + 1 }

def writeSecondSample (e : GorillaEncoder) (sample : Sample) : Except IoError GorillaEncoder :=
  let timestampDelta := sample.timestamp - e.lastTs
  if timestampDelta < 0 then .error notSorted
  else
    let writer := e.writer.writeUvarint (asU64 timestampDelta)
    .ok (e.advance sample timestampDelta
      (writeVarbitXor sample.value e.lastValue ⟨0xff, 0⟩ writer))

def writeNthSample (e : GorillaEncoder) (sample : Sample) : Except IoError GorillaEncoder :=
  let timestampDelta := sample.timestamp - e.lastTs
  if timestampDelta < 0 then .error notSorted
  else
    let deltaOfDelta := timestampDelta - e.timestampDelta
    let writer := writeVarbit e.writer deltaOfDelta
    .ok (e.advance sample timestampDelta
      (writeVarbitXor sample.value e.lastValue e.window writer))

def addSample (e : GorillaEncoder) (sample : Sample) : Except IoError GorillaEncoder :=
  match e.numSamples with
  | 0 => e.writeFirstSample sample
  | 1 => e.writeSecondSample sample
  | _ => e.writeNthSample sample

def buf (e : GorillaEncoder) : List (BitVec 8) := e.writer.stream

end GorillaEncoder

/-! ### The iterator -/

structure GorillaIterator where
  reader : BitStreamReader
  idx : Nat
  numSamples : Nat
  window : XorWindow
  timestampDelta : BitVec 64
  timestamp : Int
  value : F64
  lastTimestamp : Int
  lastValue : F64
  lastIdx : Nat
deriving DecidableEq, Repr

namespace GorillaIterator

def new (encoder : GorillaEncoder) : GorillaIterator :=
  { reader := BitStreamReader.new encoder.buf
    idx := 0
    numSamples := encoder.numSamples
    window := ⟨0, 0⟩
    timestampDelta := 0
    timestamp := 0
    value := 0
    lastTimestamp := encoder.lastTs
    lastValue := encoder.lastValue
    lastIdx := encoder.numSamples - 1 }

/-- Run a read on the iterator's reader; an error becomes a decoding error. -/
def read {α : Type} (it : GorillaIterator) (what : String) (p : BitReader α) :
    Except TsdbError (α × BitStreamReader) :=
  mapErr (fun _ => TsdbError.decodingError what) p it.reader

def readValue (it : GorillaIterator) (reader : BitStreamReader) :
    Except TsdbError ((F64 × XorWindow) × BitStreamReader) :=
  mapErr (fun _ => TsdbError.decodingError "Error reading value")
    (readVarbitXor it.value it.window) reader

def readFirstSample (it : GorillaIterator) : Except TsdbError (Sample × GorillaIterator) := do
  let (timestamp, reader) ← it.read "Error decoding timestamp" BitStreamReader.readVarint
  let (value, reader) ←
    mapErr (fun _ => TsdbError.decodingError "Error decoding value") BitStreamReader.readU64 reader
  let timestamp := timestamp.toInt
  pure (⟨timestamp, value⟩, { it with reader, timestamp, value, idx := it.idx + 1 })

def readSecondSample (it : GorillaIterator) : Except TsdbError (Sample × GorillaIterator) := do
  let (timestampDelta, reader) ← it.read "Eof reading delta-of-delta" BitStreamReader.readUvarint
  let ((value, window), reader) ← it.readValue reader
  -- `i64::try_from` refuses a delta of 2^63 or more
  if 2 ^ 63 ≤ timestampDelta.toNat then .error (.decodingError "Timestamp delta too large")
  else
    let timestamp := it.timestamp + timestampDelta.toNat
    pure (⟨timestamp, value⟩, { it with reader, timestamp, value, window, timestampDelta, idx := it.idx + 1 })

def readNthSample (it : GorillaIterator) : Except TsdbError (Sample × GorillaIterator) := do
  let (deltaOfDelta, reader) ← it.read "XOR encoder" readVarbitInt
  let ((value, window), reader) ← it.readValue reader
  let timestampDelta := asU64 (it.timestampDelta.toInt + deltaOfDelta)
  let timestamp := it.timestamp + timestampDelta.toInt
  pure (⟨timestamp, value⟩, { it with reader, timestamp, value, window, timestampDelta, idx := it.idx + 1 })

def readLastSample (it : GorillaIterator) : Except TsdbError (Sample × GorillaIterator) :=
  .ok (⟨it.lastTimestamp, it.lastValue⟩, { it with idx := it.idx + 1 })

def next (it : GorillaIterator) : Option (Except TsdbError (Sample × GorillaIterator)) :=
  if it.idx ≥ it.numSamples then none
  else
    some (match it.idx with
      | 0 => it.readFirstSample
      | 1 => it.readSecondSample
      | n => if n = it.lastIdx then it.readLastSample else it.readNthSample)

def take : Nat → GorillaIterator → Decoded
  | 0, _ => ([], none)
  | fuel + 1, it =>
    match it.next with
    | none => ([], none)
    | some (.error e) => ([], some e)
    | some (.ok (sample, it)) =>
      let rest := take fuel it
      (sample :: rest.1, rest.2)

end GorillaIterator

def GorillaEncoder.decode (e : GorillaEncoder) : Decoded :=
  (GorillaIterator.new e).take (e.numSamples + 1)

/-! ### One sample, written -/

namespace GorillaEncoder

/-- The rolling state the next append starts from is a sound one. -/
structure Ok (e : GorillaEncoder) : Prop where
  lastTs : ValidTs e.lastTs
  timestampDelta : ValidTs e.timestampDelta
  window : e.window.Ok

theorem new_ok : Ok new := ⟨by decide, by decide, .inr (by decide)⟩

def sampleBits (e : GorillaEncoder) (s : Sample) : List Bool :=
  match e.numSamples with
  | 0 => bytesBits (signedVarintBytes (asU64 s.timestamp)) ++ bitsBE 64 s.value.toNat
  | 1 => bytesBits (uvarintBytes (asU64 (s.timestamp - e.lastTs)))
      ++ xorBits s.value e.lastValue ⟨0xff, 0⟩
  | _ => varbitBits (s.timestamp - e.lastTs - e.timestampDelta)
      ++ xorBits s.value e.lastValue e.window

theorem length_sampleBits_le (e : GorillaEncoder) (s : Sample) : (e.sampleBits s).length ≤ 160 := by
  have hts := length_uvarintBytes_le (zigzagEncode (asU64 s.timestamp))
  have hdelta := length_uvarintBytes_le (asU64 (s.timestamp - e.lastTs))
  have hdod := length_varbitBits_le (s.timestamp - e.lastTs - e.timestampDelta)
  have hxor := length_xorBits_le s.value e.lastValue e.window
  have hxor' := length_xorBits_le s.value e.lastValue ⟨0xff, 0⟩
  unfold sampleBits signedVarintBytes
  split <;> simp only [length_append, length_bytesBits, length_bitsBE] <;> omega

structure Appended (e : GorillaEncoder) (s : Sample) (e' : GorillaEncoder) : Prop where
  ok : Ok e'
  numSamples : e'.numSamples = e.numSamples + 1
  firstTs : e'.firstTs = if e.numSamples = 0 then s.timestamp else e.firstTs
  lastTs : e'.lastTs = s.timestamp
  lastValue : e'.lastValue = s.value
  timestampDelta : 0 < e.numSamples → e'.timestampDelta = s.timestamp - e.lastTs
  window : 0 < e.numSamples → e'.window = nextWindow s.value e.lastValue
    (if e.numSamples = 1 then ⟨0xff, 0⟩ else e.window)
  writer : ∀ xs, e.writer.Holds xs → e'.writer.Holds (xs ++ e.sampleBits s)

theorem writeFirstSample_appended {e : GorillaEncoder} {s : Sample} (hok : e.Ok)
    (hs : ValidTs s.timestamp) (hn : e.numSamples = 0) : ∃ e', e.writeFirstSample s = .ok e' ∧ Appended e s e' := by
  refine ⟨_, rfl, ?_⟩
  constructor
  case ok => exact ⟨hs, hok.timestampDelta, hok.window⟩
  case numSamples => rfl
  case firstTs => rw [if_pos hn]
  case lastTs => rfl
  case lastValue => rfl
  case timestampDelta => omega
  case window => omega
  case writer =>
    intro xs hxs
    have hw := (BitStream.writeVarint_writes (asU64 s.timestamp)).comp
      (BitStream.writeU64_writes s.value) e.writer xs hxs
    simpa only [sampleBits, hn] using hw

theorem advance_appended {e : GorillaEncoder} {s : Sample} (hok : e.Ok)
    (hs : ValidTs s.timestamp) (hpos : 0 < e.numSamples) (hlt : e.lastTs < s.timestamp)
    (previous : XorWindow) (hprev : previous = if e.numSamples = 1 then ⟨0xff, 0⟩ else e.window)
    {f : BitStream → BitStream} {ts : List Bool} (hf : Writes BitStream.Holds f ts)
    (hbits : e.sampleBits s = ts ++ xorBits s.value e.lastValue previous) :
    Appended e s (e.advance s (s.timestamp - e.lastTs)
    (writeVarbitXor s.value e.lastValue previous (f e.writer))) := by
  have hwin : previous.Ok := by
    rw [hprev]
    split
    · exact .inl rfl
    · exact hok.window
  obtain ⟨hw, hnext⟩ := writeVarbitXor_writes s.value e.lastValue previous hwin
  have hlast := hok.lastTs.1
  have hmax := hs.2
  constructor
  case ok =>
    refine ⟨hs, ?_, ?_⟩
    · change 0 ≤ s.timestamp - e.lastTs ∧ s.timestamp - e.lastTs ≤ i64Max
      omega
    · rw [advance, hnext]
      exact nextWindow_ok hwin
  case numSamples => rfl
  case firstTs => rw [if_neg (by omega), advance]
  case lastTs => rfl
  case lastValue => rfl
  case timestampDelta => exact fun _ => rfl
  case window =>
    intro _
    rw [advance, hnext, hprev]
  case writer =>
    intro xs hxs
    rw [hbits, ← append_assoc]
    exact hw (f e.writer) (xs ++ ts) (hf e.writer xs hxs)

theorem addSample_appended {e : GorillaEncoder} {s : Sample} (hok : e.Ok)
    (hs : ValidTs s.timestamp) (hlt : 0 < e.numSamples → e.lastTs < s.timestamp) :
    ∃ e', e.addSample s = .ok e' ∧ Appended e s e' := by
  rcases hn : e.numSamples with - | - | n
  · simp only [addSample, hn]
    exact writeFirstSample_appended hok hs hn
  · have hlt := hlt (by omega)
    have hpos : ¬ s.timestamp - e.lastTs < 0 := by omega
    have happ := advance_appended hok hs (by omega) hlt ⟨0xff, 0⟩
      (by rw [if_pos hn]) (BitStream.writeUvarint_writes (asU64 (s.timestamp - e.lastTs)))
      (by simp only [sampleBits, hn])
    refine ⟨_, ?_, happ⟩
    simp only [addSample, hn, writeSecondSample, if_neg hpos]
  · have hlt := hlt (by omega)
    have hpos : ¬ s.timestamp - e.lastTs < 0 := by omega
    have happ := advance_appended hok hs (by omega) hlt e.window
      (by rw [if_neg (by omega)])
      (writeVarbit_writes (s.timestamp - e.lastTs - e.timestampDelta))
      (by simp only [sampleBits, hn])
    refine ⟨_, ?_, happ⟩
    simp only [addSample, hn, writeNthSample, if_neg hpos]

end GorillaEncoder

/-! ### One sample, read -/

namespace GorillaIterator

open GorillaEncoder (Appended)

structure Sync (e : GorillaEncoder) (it : GorillaIterator) : Prop where
  idx : it.idx = e.numSamples
  last : 0 < e.numSamples → it.timestamp = e.lastTs ∧ it.value = e.lastValue
  rolling : 1 < e.numSamples →
    it.timestampDelta = asU64 e.timestampDelta ∧ WindowSync e.window it.window

/-- The part of the iterator that is fixed at its start. -/
structure SameHeader (it it' : GorillaIterator) : Prop where
  numSamples : it'.numSamples = it.numSamples
  lastTimestamp : it'.lastTimestamp = it.lastTimestamp
  lastValue : it'.lastValue = it.lastValue
  lastIdx : it'.lastIdx = it.lastIdx

variable {e e' : GorillaEncoder} {it : GorillaIterator} {rest : List Bool}

theorem readFirstSample_reads {s : Sample} (happ : Appended e s e')
    (hs : ValidTs s.timestamp) (hn : e.numSamples = 0) (hsync : Sync e it)
    (hr : it.reader.Holds (e.sampleBits s ++ rest)) :
    ∃ it', it.readFirstSample = .ok (s, it') ∧ Sync e' it' ∧ SameHeader it it' ∧ it'.reader.Holds rest := by
  have hts : (asU64 s.timestamp).toInt = s.timestamp :=
    toInt_asU64 (hs.1.trans' (by decide)) hs.2
  simp only [GorillaEncoder.sampleBits, hn, append_assoc] at hr
  obtain ⟨r₁, e₁, h₁⟩ := (BitStreamReader.readVarint_reads (asU64 s.timestamp)).mapErr
    (fun _ => TsdbError.decodingError "Error decoding timestamp") it.reader _ hr
  obtain ⟨r₂, e₂, h₂⟩ := (BitStreamReader.readU64_reads s.value).mapErr
    (fun _ => TsdbError.decodingError "Error decoding value") r₁ rest h₁
  refine ⟨{ it with reader := r₂, timestamp := s.timestamp, value := s.value, idx := it.idx + 1 },
    ?_, ⟨?_, ?_, ?_⟩, ⟨rfl, rfl, rfl, rfl⟩, h₂⟩
  · simp only [readFirstSample, GorillaIterator.read, e₁, e₂, hts, bind, Except.bind]
    rfl
  · rw [happ.numSamples, ← hsync.idx]
  · rw [happ.lastTs, happ.lastValue]
    exact fun _ => ⟨rfl, rfl⟩
  · rw [happ.numSamples]
    omega

theorem readSecondSample_reads {s : Sample} (happ : Appended e s e')
    (hok : e.Ok) (hs : ValidTs s.timestamp) (hlt : e.lastTs < s.timestamp) (hn : e.numSamples = 1) (hsync : Sync e it)
    (hr : it.reader.Holds (e.sampleBits s ++ rest)) :
    ∃ it', it.readSecondSample = .ok (s, it') ∧ Sync e' it' ∧ SameHeader it it' ∧ it'.reader.Holds rest := by
  obtain ⟨hts, hval⟩ := hsync.last (by omega)
  have hdelta : ValidTs (s.timestamp - e.lastTs) := by
    have := hok.lastTs.1
    have := hs.2
    constructor <;> omega
  have hnat := toNat_asU64 hdelta
  simp only [GorillaEncoder.sampleBits, hn, append_assoc] at hr
  obtain ⟨r₁, e₁, h₁⟩ := (BitStreamReader.readUvarint_reads (asU64 (s.timestamp - e.lastTs))).mapErr
    (fun _ => TsdbError.decodingError "Eof reading delta-of-delta") it.reader _ hr
  -- the encoder has no window yet: whatever the iterator holds will do
  obtain ⟨window, hwsync, hread⟩ := readVarbitXor_reads s.value e.lastValue
    ⟨0xff, 0⟩ it.window (.inl rfl) (fun h => absurd rfl h)
  obtain ⟨r₂, e₂, h₂⟩ := hread.mapErr
    (fun _ => TsdbError.decodingError "Error reading value") r₁ rest h₁
  have hsmall : ¬ 2 ^ 63 ≤ (asU64 (s.timestamp - e.lastTs)).toNat := by
    have := hdelta.2
    rw [i64Max] at this
    omega
  refine ⟨{ it with
      reader := r₂, timestamp := s.timestamp, value := s.value, window := window
      timestampDelta := asU64 (s.timestamp - e.lastTs), idx := it.idx + 1 },
    ?_, ⟨?_, ?_, ?_⟩, ⟨rfl, rfl, rfl, rfl⟩, h₂⟩
  · simp only [readSecondSample, GorillaIterator.read, readValue, hval, e₁, e₂, bind, Except.bind, if_neg hsmall, hts,
      hnat]
    rw [show e.lastTs + (s.timestamp - e.lastTs) = s.timestamp by omega]
    rfl
  · rw [happ.numSamples, ← hsync.idx]
  · rw [happ.lastTs, happ.lastValue]
    exact fun _ => ⟨rfl, rfl⟩
  · intro _
    rw [happ.timestampDelta (by omega), happ.window (by omega), if_pos hn]
    exact ⟨rfl, hwsync⟩

theorem readNthSample_reads {s : Sample} (happ : Appended e s e')
    (hok : e.Ok) (hs : ValidTs s.timestamp) (hlt : e.lastTs < s.timestamp) (hn : 1 < e.numSamples) (hsync : Sync e it)
    (hr : it.reader.Holds (e.sampleBits s ++ rest)) :
    ∃ it', it.readNthSample = .ok (s, it') ∧ Sync e' it' ∧ SameHeader it it' ∧ it'.reader.Holds rest := by
  obtain ⟨hts, hval⟩ := hsync.last (by omega)
  obtain ⟨hdelta, hwin⟩ := hsync.rolling hn
  have hlast := hok.lastTs.1
  have hmax := hs.2
  obtain ⟨hd₀, hd₁⟩ := hok.timestampDelta
  rw [i64Max] at hmax hd₁
  have hbits : e.sampleBits s = varbitBits (s.timestamp - e.lastTs - e.timestampDelta)
      ++ xorBits s.value e.lastValue e.window := by
    obtain ⟨n, hn'⟩ : ∃ n, e.numSamples = n + 2 := ⟨e.numSamples - 2, by omega⟩
    simp only [GorillaEncoder.sampleBits, hn']
  rw [hbits, append_assoc] at hr
  obtain ⟨r₁, e₁, h₁⟩ := (readVarbitInt_reads
    (s.timestamp - e.lastTs - e.timestampDelta) (by omega) (by omega)).mapErr
    (fun _ => TsdbError.decodingError "XOR encoder") it.reader _ hr
  obtain ⟨window, hwsync, hread⟩ := readVarbitXor_reads s.value e.lastValue e.window it.window hok.window hwin
  obtain ⟨r₂, e₂, h₂⟩ := hread.mapErr
    (fun _ => TsdbError.decodingError "Error reading value") r₁ rest h₁
  have hold : (asU64 e.timestampDelta).toInt = e.timestampDelta :=
    toInt_asU64 (by rw [i64Min]; omega) (by rw [i64Max]; omega)
  have hnew : (asU64 (s.timestamp - e.lastTs)).toInt = s.timestamp - e.lastTs :=
    toInt_asU64 (by rw [i64Min]; omega) (by rw [i64Max]; omega)
  refine ⟨{ it with
      reader := r₂, timestamp := s.timestamp, value := s.value, window := window
      timestampDelta := asU64 (s.timestamp - e.lastTs), idx := it.idx + 1 },
    ?_, ⟨?_, ?_, ?_⟩, ⟨rfl, rfl, rfl, rfl⟩, h₂⟩
  · simp only [readNthSample, GorillaIterator.read, readValue, hval, e₁, e₂, bind, Except.bind, hdelta, hold, hts]
    rw [show e.timestampDelta + (s.timestamp - e.lastTs - e.timestampDelta)
      = s.timestamp - e.lastTs by omega, hnew,
      show e.lastTs + (s.timestamp - e.lastTs) = s.timestamp by omega]
    rfl
  · rw [happ.numSamples, ← hsync.idx]
  · rw [happ.lastTs, happ.lastValue]
    exact fun _ => ⟨rfl, rfl⟩
  · intro _
    rw [happ.timestampDelta (by omega), happ.window (by omega), if_neg (by omega)]
    exact ⟨rfl, hwsync⟩

/-! Which read the next item is. -/

theorem next_eq_first (hidx : it.idx = 0) (h : it.idx < it.numSamples) : it.next = some it.readFirstSample := by
  rw [next, if_neg (by omega), hidx]
  rfl

theorem next_eq_second (hidx : it.idx = 1) (h : it.idx < it.numSamples) : it.next = some it.readSecondSample := by
  rw [next, if_neg (by omega), hidx]
  rfl

theorem next_eq_nth (hidx : 1 < it.idx) (h : it.idx < it.numSamples) :
    it.next = some (if it.idx = it.lastIdx then it.readLastSample else it.readNthSample) := by
  obtain ⟨n, hn⟩ : ∃ n, it.idx = n + 2 := ⟨it.idx - 2, by omega⟩
  rw [next, if_neg (by omega), hn]
  rfl

theorem next_reads {s : Sample} (happ : Appended e s e') (hok : e.Ok)
    (hs : ValidTs s.timestamp) (hlt : 0 < e.numSamples → e.lastTs < s.timestamp)
    (hsync : Sync e it) (hmore : it.idx < it.numSamples) (hlast : 1 < it.idx → it.idx ≠ it.lastIdx)
    (hr : it.reader.Holds (e.sampleBits s ++ rest)) :
    ∃ it', it.next = some (.ok (s, it')) ∧ Sync e' it' ∧ SameHeader it it' ∧ it'.reader.Holds rest := by
  have hidx := hsync.idx
  rcases hn : e.numSamples with - | - | n
  · obtain ⟨it', h, hrest⟩ := readFirstSample_reads happ hs hn hsync hr
    exact ⟨it', by rw [next_eq_first (by omega) hmore, h], hrest⟩
  · obtain ⟨it', h, hrest⟩ := readSecondSample_reads happ hok hs (hlt (by omega)) hn hsync hr
    exact ⟨it', by rw [next_eq_second (by omega) hmore, h], hrest⟩
  · obtain ⟨it', h, hrest⟩ := readNthSample_reads happ hok hs (hlt (by omega)) (by omega) hsync hr
    refine ⟨it', ?_, hrest⟩
    rw [next_eq_nth (by omega) hmore, if_neg (hlast (by omega)), h]

theorem next_last {s : Sample} (happ : Appended e s e') (hok : e.Ok)
    (hs : ValidTs s.timestamp) (hlt : 0 < e.numSamples → e.lastTs < s.timestamp)
    (hsync : Sync e it) (hend : it.idx + 1 = it.numSamples)
    (hlast : it.lastIdx = it.numSamples - 1) (hts : it.lastTimestamp = s.timestamp) (hval : it.lastValue = s.value)
    (hr : it.reader.Holds (e.sampleBits s ++ rest)) :
    ∃ it', it.next = some (.ok (s, it')) ∧ it'.idx = it'.numSamples := by
  by_cases hidx : 1 < it.idx
  · refine ⟨{ it with idx := it.idx + 1 }, ?_, hend⟩
    rw [next_eq_nth hidx (by omega), if_pos (by omega), readLastSample, hts, hval]
  · obtain ⟨it', h, hsync', hsame, -⟩ := next_reads happ hok hs hlt hsync (by omega)
      (fun h => absurd h hidx) hr
    refine ⟨it', h, ?_⟩
    rw [hsync'.idx, happ.numSamples, hsame.numSamples, ← hsync.idx, hend]

theorem take_of_done (h : it.idx = it.numSamples) (fuel : Nat) : it.take fuel = ([], none) := by
  cases fuel with
  | zero => rfl
  | succ fuel =>
    rw [take, next, if_pos (by omega)]

end GorillaIterator

/-! ### Runs -/

namespace GorillaEncoder

open GorillaIterator

def addAll (e : GorillaEncoder) (l : List Sample) : Except IoError GorillaEncoder :=
  l.foldlM addSample e

structure Follows (e : GorillaEncoder) (l : List Sample) : Prop where
  times : ValidTimes l
  increasing : Increasing l
  after : 0 < e.numSamples → ∀ s ∈ l, e.lastTs < s.timestamp

variable {e : GorillaEncoder} {l : List Sample}

theorem Follows.tail {e' : GorillaEncoder} {s : Sample}
    (h : Follows e (s :: l)) (happ : Appended e s e') : Follows e' l := by
  obtain ⟨hlt, hinc⟩ := pairwise_cons.mp h.increasing
  refine ⟨fun x hx => h.times x (mem_cons_of_mem _ hx), hinc, fun _ x hx => ?_⟩
  rw [happ.lastTs]
  exact hlt x hx

theorem addAll_cons (e : GorillaEncoder) (s : Sample) (l : List Sample) :
    e.addAll (s :: l) = e.addSample s >>= fun e' => e'.addAll l := rfl

theorem addAll_append (e : GorillaEncoder) (l₁ l₂ : List Sample) :
    e.addAll (l₁ ++ l₂) = e.addAll l₁ >>= fun e' => e'.addAll l₂ :=
  foldlM_append

/-- **Run lemma.**  Appending a list always succeeds; the stream grows by some
bits from which an iterator in step with the encoder reads the list back. -/
theorem addAll_run (l : List Sample) (hok : e.Ok) (hl : Follows e l) : ∃ e' bits, e.addAll l = .ok e' ∧ e'.Ok
    ∧ (∀ xs, e.writer.Holds xs → e'.writer.Holds (xs ++ bits)) ∧ bits.length ≤ 160 * l.length
    ∧ e'.numSamples = e.numSamples + l.length ∧ ∀ it : GorillaIterator, Sync e it →
    it.numSamples = e.numSamples + l.length →
    it.lastIdx = it.numSamples - 1 → it.lastTimestamp = e'.lastTs →
    it.lastValue = e'.lastValue → ∀ rest, it.reader.Holds (bits ++ rest) → it.take (l.length + 1) = (l, none) := by
  induction l generalizing e with
  | nil =>
    refine ⟨e, [], rfl, hok, fun xs h => by simpa using h, by simp, by simp, ?_⟩
    intro it hsync hnum _ _ _ rest _
    exact take_of_done (by rw [hsync.idx, hnum]; simp) _
  | cons s l ih =>
    have hs := hl.times s mem_cons_self
    have hlt : 0 < e.numSamples → e.lastTs < s.timestamp :=
      fun h => hl.after h s mem_cons_self
    obtain ⟨e₁, h₁, happ⟩ := addSample_appended hok hs hlt
    obtain ⟨e₂, bits, h₂, hok₂, hw₂, hlen₂, hnum₂, hread⟩ := ih happ.ok (hl.tail happ)
    refine ⟨e₂, e.sampleBits s ++ bits, ?_, hok₂, ?_, ?_, ?_, ?_⟩
    · rw [addAll_cons, h₁]
      exact h₂
    · intro xs hxs
      rw [← append_assoc]
      exact hw₂ _ (happ.writer xs hxs)
    · have := e.length_sampleBits_le s
      rw [length_append, length_cons]
      omega
    · rw [hnum₂, happ.numSamples, length_cons]
      omega
    · intro it hsync hnum hidx hts hval rest hr
      rw [append_assoc] at hr
      cases l with
      | nil =>
        obtain rfl : e₂ = e₁ := (Except.ok.inj h₂).symm
        obtain ⟨it', hnext, hdone⟩ := next_last happ hok hs hlt hsync
          (by rw [hsync.idx, hnum]; rfl) hidx (by rw [hts, happ.lastTs])
          (by rw [hval, happ.lastValue]) hr
        rw [take, hnext]
        simp only [take_of_done hdone]
      | cons s' l =>
        rw [length_cons, length_cons] at hnum
        have hnow := hsync.idx
        obtain ⟨it', hnext, hsync', hsame, hr'⟩ := next_reads happ hok hs hlt hsync
          (by omega) (by omega) hr
        have htake := hread it' hsync'
          (by rw [hsame.numSamples, hnum, happ.numSamples, length_cons]; omega)
          (by rw [hsame.lastIdx, hsame.numSamples, hidx]) (by rw [hsame.lastTimestamp, hts])
          (by rw [hsame.lastValue, hval]) rest hr'
        rw [take, hnext]
        rw [length_cons] at htake
        simp only [length_cons, htake]

/-- The encoder holds the list: it is what appending the list to an empty
encoder gives, and the list is one that can be appended. -/
structure Encodes (e : GorillaEncoder) (l : List Sample) : Prop where
  times : ValidTimes l
  increasing : Increasing l
  run : new.addAll l = .ok e

theorem new_encodes : Encodes new [] := ⟨by simp [ValidTimes], List.Pairwise.nil, rfl⟩

theorem exists_encodes (ht : ValidTimes l) (hi : Increasing l) : ∃ e, Encodes e l := by
  obtain ⟨e, -, h, -⟩ := addAll_run l new_ok ⟨ht, hi, fun h => absurd h (by decide)⟩
  exact ⟨e, ht, hi, h⟩

theorem Encodes.unique {e' : GorillaEncoder} (h : Encodes e l) (h' : Encodes e' l) : e = e' :=
  Except.ok.inj (h.run.symm.trans h'.run)

theorem Encodes.spec (h : Encodes e l) : e.Ok ∧ e.numSamples = l.length ∧ e.decode = (l, none)
    ∧ ∃ xs, e.writer.Holds xs ∧ xs.length ≤ 160 * l.length := by
  obtain ⟨e', bits, hrun, hok, hw, hlen, hnum, hread⟩ :=
    addAll_run l new_ok ⟨h.times, h.increasing, fun h => absurd h (by decide)⟩
  obtain rfl : e' = e := Except.ok.inj (hrun.symm.trans h.run)
  have hcount : e'.numSamples = l.length := by simpa [new] using hnum
  have hbits := hw [] BitStream.new_holds
  obtain ⟨pad, hr⟩ := hbits.reader
  refine ⟨hok, hcount, ?_, _, hbits, hlen⟩
  rw [decode, hcount]
  refine hread (GorillaIterator.new e') ⟨rfl, ?_, ?_⟩ (by simp [GorillaIterator.new, hcount, new])
    rfl rfl rfl pad hr
  · exact fun h => absurd h (by decide)
  · exact fun h => absurd h (by decide)

theorem Encodes.addSample {s : Sample} (h : Encodes e l) (ht : ValidTimes (l ++ [s])) (hi : Increasing (l ++ [s])) :
    ∃ e', e.addSample s = .ok e' ∧ Encodes e' (l ++ [s]) := by
  obtain ⟨e', he'⟩ := exists_encodes ht hi
  have hrun := he'.run
  rw [addAll_append, h.run] at hrun
  refine ⟨e', ?_, he'⟩
  cases hadd : e.addSample s with
  | error err =>
    rw [show (Except.ok e >>= fun e' => addAll e' [s]) = e.addAll [s] from rfl, addAll_cons,
      hadd] at hrun
    exact absurd hrun (by simp [bind, Except.bind])
  | ok e₁ =>
    rw [show (Except.ok e >>= fun e' => addAll e' [s]) = e.addAll [s] from rfl, addAll_cons,
      hadd] at hrun
    exact hrun

theorem Encodes.ends (h : Encodes e l) : e.firstTs = (l.head?.map (·.timestamp)).getD 0
    ∧ e.lastTs = (l.getLast?.map (·.timestamp)).getD 0 ∧ e.lastValue = (l.getLast?.map (·.value)).getD 0 := by
  induction l using List.reverseRecOn generalizing e with
  | nil =>
    obtain rfl := h.unique new_encodes
    exact ⟨rfl, rfl, rfl⟩
  | append_singleton l s ih =>
    obtain ⟨ht, hi⟩ : ValidTimes l ∧ Increasing l :=
      ⟨fun x hx => h.times x (mem_append_left _ hx), (pairwise_append.mp h.increasing).1⟩
    obtain ⟨e₀, h₀⟩ := exists_encodes ht hi
    obtain ⟨hok, hnum, -⟩ := h₀.spec
    have hlast : 0 < e₀.numSamples → e₀.lastTs < s.timestamp := by
      intro hpos
      rw [hnum] at hpos
      rw [(ih h₀).2.1, getLast?_eq_getLast_of_ne_nil (length_pos_iff.mp hpos)]
      exact (pairwise_append.mp h.increasing).2.2 _ (getLast_mem _) s
        mem_cons_self
    obtain ⟨e', hadd, happ⟩ := addSample_appended hok (h.times s (by simp)) hlast
    obtain ⟨e'', hadd', h''⟩ := h₀.addSample h.times h.increasing
    obtain rfl : e'' = e' := Except.ok.inj (hadd'.symm.trans hadd)
    obtain rfl := h.unique h''
    refine ⟨?_, ?_, ?_⟩
    · rw [happ.firstTs, hnum, (ih h₀).1]
      cases l <;> simp
    · rw [happ.lastTs]
      simp
    · rw [happ.lastValue]
      simp

end GorillaEncoder

end ValkeyTimeSeries
