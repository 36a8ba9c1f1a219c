/-
Chimp/Compressor.lean

The ELF erasing layer over Chimp: `ChimpCompressor` and `ChimpDecompressor` of
`series/chunks/chimp/compressor.rs`.

Design.  A sample is a delta-of-delta timestamp followed by a value.  A value goes to Chimp under one of three
markers: `0` (a repeat, or erased with the previous `beta_star`), `10` (raw), `11` and four bits (erased with
a new `beta_star`).  The decimal functions of `elf64.rs` are taken as given (`DecimalHelpers`); the encoder
erases only when recovery gives the value back.

`sampleBits c s` is what the compressor `c` appends for `s`; a decompressor that is in step (`Sync`) reads it
back and is in step again.
-/
import ValkeyTimeSeries.Chimp.Encoder

namespace ValkeyTimeSeries

open List Bits Codec BitStreamReader BitStream

/-! ### The decimal functions -/

def F64.exponent (v : F64) : Int := ((v >>> 52) &&& 0x7ff).toNat

/-- The functions of `elf64.rs` the two sides share.  `getAlphaAndBetaStar` is
given the previous `beta_star`; `none` stands for an unsupported magnitude.
Erasing more than four bits leaves a value of less than 48 significant bits,
that is of at most 15 decimal digits, so its `beta_star` fits in four bits. -/
class DecimalHelpers where
  getAlphaAndBetaStar : F64 → Int → Option (Int × Int)
  getFAlpha : Int → Int
  recover : BitVec 64 → Int → Except IoError F64
  betaStar_lt : ∀ v last alpha betaStar, getAlphaAndBetaStar v last = some (alpha, betaStar) →
    0 ≤ alpha → 52 - (getFAlpha alpha + v.exponent - 1023) > 4 → 0 ≤ betaStar ∧ betaStar < 16

open DecimalHelpers

/-! ### The compressor -/

structure ChimpCompressor where
  writer : BitStream
  chimp : ChimpEnc
  lastBetaStar : Int
  count : Nat
  firstTimestamp : Int
  lastTimestamp : Int
  lastDelta : Int
  lastValue : F64
deriving DecidableEq, Repr

namespace ChimpCompressor

def new : ChimpCompressor :=
  { writer := BitStream.new, chimp := ChimpEnc.new, lastBetaStar := i32Max, count := 0,
    firstTimestamp := 0, lastTimestamp := 0, lastDelta := 0, lastValue := 0 }

def bytes (c : ChimpCompressor) : List (BitVec 8) := c.writer.stream

/-- Hand a bit pattern to Chimp, behind a marker of `len` bits. -/
def addValue (c : ChimpCompressor) (marker : BitVec 64) (len : Nat) (value : BitVec 64) :
    ChimpCompressor :=
  let r := c.chimp.addValuePrefixed c.writer marker len value
  { c with writer := r.1, chimp := r.2 }

def writeRepeat (c : ChimpCompressor) : ChimpCompressor :=
  let r := c.chimp.addRepeatPrefixed c.writer 0 1
  { c with writer := r.1, chimp := r.2 }

def wrappingSub (a b : Int) : Int := (asU64 (a - b)).toInt

/-- How a value that is not a repeat is written. -/
inductive ElfCase where
  | raw
  | same (vPrime : BitVec 64)
  | fresh (betaStar : Int) (vPrime : BitVec 64)
deriving DecidableEq, Repr

variable [DecimalHelpers]

/-- `try_recover(v_prime, beta_star) == Some(v)`. -/
def recovers (vPrime : BitVec 64) (betaStar : Int) (v : F64) : Bool :=
  match recover vPrime betaStar with
  | .ok w => F64.eq w v
  | .error _ => false

/-- The branches of `write_value` behind the test for a repeat. -/
def elfCase (c : ChimpCompressor) (v : F64) : ElfCase :=
  -- zero, the infinities and NaN have no decimal digits to erase
  if F64.eq v 0 || !v.isFinite then .raw
  else
    match getAlphaAndBetaStar v c.lastBetaStar with
    | none => .raw
    | some (alpha, betaStar) =>
      if alpha < 0 then .raw
      else
        let gAlpha := getFAlpha alpha + v.exponent - 1023
        let eraseBits := 52 - gAlpha
        -- `wrapping_shl` takes the shift modulo 64
        let mask := BitVec.allOnes 64 <<< (eraseBits % 64).toNat
        let delta := ~~~mask &&& v
        let vPrime := mask &&& v
        if delta ≠ 0 ∧ eraseBits > 4 ∧ recovers vPrime betaStar v then
          if betaStar = c.lastBetaStar then
            -- marker `0` over an unchanged Chimp value is how a repeat is spelled
            if vPrime = c.chimp.storedVal then .raw else .same vPrime
          else .fresh betaStar vPrime
        else .raw

def writeValue (c : ChimpCompressor) (v : F64) : ChimpCompressor :=
  if c.count > 0 ∧ v = c.lastValue then c.writeRepeat
  else
    match c.elfCase v with
    | .raw => c.addValue 0b10 2 v
    | .same vPrime => c.addValue 0 1 vPrime
    | .fresh betaStar vPrime =>
      { c with lastBetaStar := betaStar }.addValue (asU64 betaStar ||| 0x30) 6 vPrime

end ChimpCompressor

/-- The significant bits of a zigzagged delta, at least one. -/
def tsLength (enc : BitVec 64) : Nat :=
  if 64 - leadingZeros enc = 0 then 1 else 64 - leadingZeros enc

/-- The delta-of-delta of a timestamp, as it is written. -/
def writeTsDelta (w : BitStream) (deltaD : Int) : BitStream :=
  if deltaD = 0 then w.writeBitRaw false
  else
    let enc := zigzagEncode (asU64 deltaD)
    let length := tsLength enc
    if length ≤ 7 then w.writeBits 9 (enc ||| (0x02 : BitVec 64) <<< 7)
    else if length ≤ 9 then w.writeBits 12 (enc ||| (0x06 : BitVec 64) <<< 9)
    else if length ≤ 12 then w.writeBits 16 (enc ||| (0x0E : BitVec 64) <<< 12)
    else
      let w := w.writeBits 4 0x0F
      if length ≤ 32 then (w.writeBitRaw false).writeBits 32 enc
      else (w.writeBitRaw true).writeBits 64 enc

namespace ChimpCompressor

def writeTimestamp (c : ChimpCompressor) (timestamp : Int) : ChimpCompressor :=
  if c.count = 0 then
    { c with
      writer := c.writer.writeVarint (asU64 timestamp)
      firstTimestamp := timestamp
      lastTimestamp := timestamp
      lastDelta := 0 }
  else
    let newDelta := wrappingSub timestamp c.lastTimestamp
    let deltaD := wrappingSub newDelta c.lastDelta
    { c with
      writer := writeTsDelta c.writer deltaD
      lastDelta := newDelta
      lastTimestamp := timestamp }

def addSample [DecimalHelpers] (c : ChimpCompressor) (sample : Sample) : ChimpCompressor :=
  let c := (c.writeTimestamp sample.timestamp).writeValue sample.value
  { c with lastValue := sample.value, count := c.count + 1 }

end ChimpCompressor

/-! ### The decompressor -/

/-- The decompressor without its reader, which the readers below pass along. -/
structure ChimpDecompressor where
  chimp : ChimpDec
  lastBetaStar : Int
  count : Nat
  sampleCount : Nat
  lastTimestamp : Int
  lastDelta : Int
  lastValue : F64
deriving DecidableEq, Repr

namespace ChimpDecompressor

def new (sampleCount : Nat) : ChimpDecompressor :=
  { chimp := ChimpDec.new, lastBetaStar := i32Max, count := 0, sampleCount := sampleCount,
    lastTimestamp := 0, lastDelta := 0, lastValue := 0 }

/-- The bits of the timestamp case: up to four, stopping at the first zero. -/
def readTsPrefix : Nat → Nat → BitReader Nat
  | 0, acc => pure acc
  | fuel + 1, acc => do
      let bit ← BitStreamReader.readBit
      let acc := 2 * acc + bit.toNat
      if !bit then pure acc else readTsPrefix fuel acc

def readTsField (n : Nat) : BitReader Int := do
  let bits ← BitStreamReader.readBits n
  pure (zigzagDecode bits).toInt

/-- The delta-of-delta behind its case. -/
def readTsCase : Nat → BitReader Int
  | 0x00 => pure 0
  | 0x02 => readTsField 7
  | 0x06 => readTsField 9
  | 0x0E => readTsField 12
  | 0x0F => do
      let wide ← BitStreamReader.readBit
      if wide then readTsField 64 else readTsField 32
  | _ => fun _ => .error (.invalidData "Invalid timestamp prefix")

def readTsDelta : BitReader Int := readTsPrefix 4 0 >>= readTsCase

def wrappingAdd (a b : Int) : Int := (asU64 (a + b)).toInt

def readTimestamp (d : ChimpDecompressor) : BitReader (Int × ChimpDecompressor) :=
  if d.count = 0 then do
    let timestamp ← BitStreamReader.readVarint
    pure (timestamp.toInt, { d with lastTimestamp := timestamp.toInt, lastDelta := 0 })
  else do
    let deltaD ← readTsDelta
    let lastDelta := wrappingAdd d.lastDelta deltaD
    let lastTimestamp := wrappingAdd d.lastTimestamp lastDelta
    pure (lastTimestamp, { d with lastDelta := lastDelta, lastTimestamp := lastTimestamp })

variable [DecimalHelpers]

def recovered (bits : BitVec 64) (betaStar : Int) : BitReader F64 := fun r =>
  match recover bits betaStar with
  | .ok v => .ok (v, r)
  | .error e => .error e

def readValue (d : ChimpDecompressor) : BitReader (F64 × ChimpDecompressor) := do
  let b₁ ← BitStreamReader.readBit
  if !b₁ then
    -- marker `0`: a repeat, or a value sharing the previous `beta_star`
    let (rep, chimp) ← d.chimp.next
    if rep then pure (d.lastValue, { d with chimp := chimp })
    else
      let value ← recovered chimp.storedVal d.lastBetaStar
      pure (value, { d with chimp := chimp, lastValue := value })
  else
    let b₂ ← BitStreamReader.readBit
    if !b₂ then
      -- marker `10`: raw value
      let (_, chimp) ← d.chimp.next
      pure (chimp.storedVal, { d with chimp := chimp, lastValue := chimp.storedVal })
    else
      -- marker `11`: new 4-bit `beta_star`
      let beta ← BitStreamReader.readBits 4
      let betaStar := (beta.toNat : Int)
      let (_, chimp) ← d.chimp.next
      let value ← recovered chimp.storedVal betaStar
      pure (value, { d with chimp := chimp, lastBetaStar := betaStar, lastValue := value })

/-- The next sample, `none` once all have been read. -/
def nextSample (d : ChimpDecompressor) : BitReader (Option Sample × ChimpDecompressor) :=
  if d.count = d.sampleCount then pure (none, d)
  else do
    let (timestamp, d) ← d.readTimestamp
    let (value, d) ← d.readValue
    pure (some ⟨timestamp, value⟩, { d with count := d.count + 1 })

/-- `collect`: all samples that are left; there are fewer than `fuel`. -/
def collectFrom : Nat → ChimpDecompressor → BitReader (List Sample)
  | 0, _ => pure []
  | fuel + 1, d => do
      let (sample, d) ← d.nextSample
      match sample with
      | none => pure []
      | some sample => (sample :: ·) <$> collectFrom fuel d

end ChimpDecompressor

structure ChimpIterator where
  inner : ChimpDecompressor
  reader : BitStreamReader
  idx : Nat
  numSamples : Nat
deriving DecidableEq, Repr

namespace ChimpIterator

def new (compressor : ChimpCompressor) : ChimpIterator :=
  { inner := ChimpDecompressor.new compressor.count
    reader := BitStreamReader.new compressor.bytes
    idx := 0
    numSamples := compressor.count }

variable [DecimalHelpers]

def next (it : ChimpIterator) : Option (Except TsdbError (Sample × ChimpIterator)) :=
  if it.idx ≥ it.numSamples then none
  else
    some (match it.inner.nextSample it.reader with
      | .ok ((some sample, inner), reader) =>
        .ok (sample, { it with inner, reader, idx := it.idx + 1 })
      | .ok ((none, _), _) => .error (.decodingError "chimp: stream ended early")
      | .error _ => .error (.decodingError "chimp: error decoding sample"))

/-- The items of the iterator, `fuel` of them at most. -/
def take : Nat → ChimpIterator → Decoded
  | 0, _ => ([], none)
  | fuel + 1, it =>
    match it.next with
    | none => ([], none)
    | some (.error e) => ([], some e)
    | some (.ok (sample, it)) =>
      let rest := take fuel it
      (sample :: rest.1, rest.2)

end ChimpIterator

/-- All items of `compressor.iter()`; the iterator ends after `count`. -/
def ChimpCompressor.decode [DecimalHelpers] (c : ChimpCompressor) : Decoded :=
  (ChimpIterator.new c).take (c.count + 1)

/-- `ChimpDecompressor::new(bytes, count).collect()`. -/
def ChimpDecompressor.collect [DecimalHelpers] (bytes : List (BitVec 8)) (count : Nat) :
    Except IoError (List Sample) :=
  Prod.fst <$> (ChimpDecompressor.new count).collectFrom (count + 1) (BitStreamReader.new bytes)

/-! ### Timestamps, written and read -/

theorem le_tsLength (enc : BitVec 64) : 64 - leadingZeros enc ≤ tsLength enc := by
  rw [tsLength]
  split <;> omega

def tsDeltaBits (deltaD : Int) : List Bool :=
  if deltaD = 0 then [false]
  else
    let enc := zigzagEncode (asU64 deltaD)
    let length := tsLength enc
    if length ≤ 7 then [true, false] ++ bitsBE 7 enc.toNat
    else if length ≤ 9 then [true, true, false] ++ bitsBE 9 enc.toNat
    else if length ≤ 12 then [true, true, true, false] ++ bitsBE 12 enc.toNat
    else if length ≤ 32 then [true, true, true, true, false] ++ bitsBE 32 enc.toNat
    else [true, true, true, true, true] ++ bitsBE 64 enc.toNat

theorem writeTsDelta_writes (deltaD : Int) :
    Writes BitStream.Holds (fun w => writeTsDelta w deltaD) (tsDeltaBits deltaD) := by
  unfold writeTsDelta tsDeltaBits
  by_cases h0 : deltaD = 0
  · simp only [h0]
    exact writeBitRaw_writes false
  simp only [h0, if_false]
  generalize zigzagEncode (asU64 deltaD) = enc
  have hlen := le_tsLength enc
  generalize tsLength enc = length at *
  -- a payload that fits its field is concatenated behind its marker
  have hfield (p n : Nat) (marker : BitVec 64) (xs : List Bool) (hxs : bitsBE p marker.toNat = xs)
      (hpn : p + n ≤ 64) (hlz : 64 - n ≤ leadingZeros enc) :
      Writes BitStream.Holds (fun w => w.writeBits (p + n) (enc ||| marker <<< n))
        (xs ++ bitsBE n enc.toNat) := by
    have hlt := toNat_lt_of_le_leadingZeros hlz
    rw [show 64 - (64 - n) = n by omega] at hlt
    rw [BitVec.or_comm, ← hxs]
    exact writeBits_concat hpn marker hlt
  have hescape := writeBits_writes_of_le (show 4 ≤ 64 by omega) 0x0F
  split
  · exact hfield 2 7 0x02 [true, false] rfl (by omega) (by omega)
  split
  · exact hfield 3 9 0x06 [true, true, false] rfl (by omega) (by omega)
  split
  · exact hfield 4 12 0x0E [true, true, true, false] rfl (by omega) (by omega)
  split
  · exact (hescape.comp (writeBitRaw_writes false)).comp
      (writeBits_writes_of_le (by omega) enc)
  · exact (hescape.comp (writeBitRaw_writes true)).comp
      (writeBits_writes_of_le (by omega) enc)

namespace ChimpDecompressor

theorem readTsPrefix_reads : Reads BitStreamReader.Holds (readTsPrefix 4 0) [false] 0x00
    ∧ Reads BitStreamReader.Holds (readTsPrefix 4 0) [true, false] 0x02
    ∧ Reads BitStreamReader.Holds (readTsPrefix 4 0) [true, true, false] 0x06
    ∧ Reads BitStreamReader.Holds (readTsPrefix 4 0) [true, true, true, false] 0x0E
    ∧ Reads BitStreamReader.Holds (readTsPrefix 4 0) [true, true, true, true] 0x0F := by
  have hstop (fuel acc : Nat) :
      Reads BitStreamReader.Holds (readTsPrefix (fuel + 1) acc) [false] (2 * acc) :=
    (readBit_reads false).bind_pure rfl
  have hmore {fuel acc k : Nat} {xs : List Bool}
      (h : Reads BitStreamReader.Holds (readTsPrefix fuel (2 * acc + 1)) xs k) :
      Reads BitStreamReader.Holds (readTsPrefix (fuel + 1) acc) (true :: xs) k :=
    (readBit_reads true).bind h
  exact ⟨hstop _ _, hmore (hstop _ _), hmore (hmore (hstop _ _)),
    hmore (hmore (hmore (hstop _ _))), hmore (hmore (hmore (hmore (Reads.pure _))))⟩

theorem readTsDelta_reads (deltaD : Int) (hd : (asU64 deltaD).toInt = deltaD) :
    Reads BitStreamReader.Holds readTsDelta (tsDeltaBits deltaD) deltaD := by
  obtain ⟨h0, h2, h6, hE, hF⟩ := readTsPrefix_reads
  unfold readTsDelta tsDeltaBits
  by_cases hz : deltaD = 0
  · rw [if_pos hz]
    exact h0.bind_pure (by rw [hz]; rfl)
  rw [if_neg hz]
  have hdec : (zigzagDecode (zigzagEncode (asU64 deltaD))).toInt = deltaD := by
    rw [zigzagDecode_zigzagEncode, hd]
  generalize zigzagEncode (asU64 deltaD) = enc at *
  have hfield (n : Nat) (hn : n ≤ 64) (hlz : 64 - n ≤ leadingZeros enc) :
      Reads BitStreamReader.Holds (readTsField n) (bitsBE n enc.toNat) deltaD := by
    have hlt := toNat_lt_of_le_leadingZeros hlz
    rw [show 64 - (64 - n) = n by omega] at hlt
    exact (readBits_of_lt hn hlt).bind_pure (by rw [hdec])
  have hwide (b : Bool) {n : Nat} (hread : Reads BitStreamReader.Holds
      (if b then readTsField 64 else readTsField 32) (bitsBE n enc.toNat) deltaD) :
      Reads BitStreamReader.Holds (readTsCase 0x0F) ([b] ++ bitsBE n enc.toNat) deltaD :=
    (readBit_reads b).bind hread
  have hlen := le_tsLength enc
  simp only
  generalize tsLength enc = length at *
  split
  · exact h2.bind (f := readTsCase) (hfield 7 (by omega) (by omega))
  split
  · exact h6.bind (f := readTsCase) (hfield 9 (by omega) (by omega))
  split
  · exact hE.bind (f := readTsCase) (hfield 12 (by omega) (by omega))
  split
  · exact hF.bind (f := readTsCase) (hwide false (hfield 32 (by omega) (by omega)))
  · exact hF.bind (f := readTsCase) (hwide true (hfield 64 (by omega) (by omega)))

end ChimpDecompressor

theorem wrappingAdd_wrappingSub {a b : Int} (hlo : i64Min ≤ b) (hhi : b ≤ i64Max) :
    ChimpDecompressor.wrappingAdd a (ChimpCompressor.wrappingSub b a) = b := by
  have h : asU64 (a + (asU64 (b - a)).toInt) = asU64 b := by
    rw [asU64, BitVec.ofInt_add, BitVec.ofInt_toInt, asU64, ← BitVec.ofInt_add, asU64]
    congr 1
    omega
  rw [ChimpDecompressor.wrappingAdd, ChimpCompressor.wrappingSub, h, toInt_asU64 hlo hhi]

theorem wrappingSub_mem (a b : Int) : i64Min ≤ ChimpCompressor.wrappingSub a b
    ∧ ChimpCompressor.wrappingSub a b ≤ i64Max := by
  have hlo := BitVec.le_toInt (asU64 (a - b))
  have hhi := BitVec.toInt_lt (x := asU64 (a - b))
  rw [ChimpCompressor.wrappingSub, i64Min, i64Max]
  constructor <;> omega

/-! ### Values, written and read -/

namespace ChimpCompressor

variable [DecimalHelpers]

/-- A value that is recovered as a double is recovered bit for bit: the two
zeros, the only equal doubles that differ, are never erased. -/
theorem eq_of_recovers {v : F64} (hplain : ¬ (F64.eq v 0 || !v.isFinite) = true) {vPrime : BitVec 64}
    {betaStar : Int} (h : recovers vPrime betaStar v = true) : recover vPrime betaStar = .ok v := by
  have hrank : v.rank ≠ 0 := by
    intro hzero
    apply hplain
    by_cases hfin : v.isFinite = true
    · have hnan : v.isNaN = false := by
        simp only [F64.isFinite, F64.isNaN, decide_eq_true_eq, decide_eq_false_iff_not] at *
        omega
      have hz : F64.isNaN 0 = false ∧ F64.rank 0 = 0 := by decide
      simp only [F64.eq, hnan, hz.1, hz.2, hzero, decide_true, Bool.not_false, Bool.and_self, Bool.true_or]
    · simp only [hfin, Bool.not_false, Bool.or_true]
  unfold recovers at h
  rcases hrec : recover vPrime betaStar with e | w
  · rw [hrec] at h
    exact absurd h Bool.false_ne_true
  · rw [hrec] at h
    rw [F64.eq_of_eq_of_rank_ne_zero h hrank]

/-- What the erasing branches guarantee: the shared `recover` gives the value
back, a shared `beta_star` never meets an unchanged Chimp value, and a new one
fits its four bits. -/
def ElfSound (c : ChimpCompressor) (v : F64) : ElfCase → Prop
  | .raw => True
  | .same vPrime => recover vPrime c.lastBetaStar = .ok v ∧ c.chimp.storedVal ≠ vPrime
  | .fresh betaStar vPrime => recover vPrime betaStar = .ok v ∧ 0 ≤ betaStar ∧ betaStar < 16

variable (c : ChimpCompressor)

theorem elfCase_sound (v : F64) : c.ElfSound v (c.elfCase v) := by
  unfold elfCase
  by_cases hplain : (F64.eq v 0 || !v.isFinite) = true
  · rw [if_pos hplain]
    trivial
  rw [if_neg hplain]
  rcases hab : getAlphaAndBetaStar v c.lastBetaStar with - | ⟨alpha, betaStar⟩
  · trivial
  by_cases halpha : alpha < 0
  · simp only [halpha]
    trivial
  simp only [halpha, if_false]
  split
  · rename_i herase
    obtain ⟨-, hbits, hrec⟩ := herase
    have hv := eq_of_recovers hplain hrec
    have hrange := betaStar_lt v c.lastBetaStar alpha betaStar hab (by omega) hbits
    by_cases hsame : betaStar = c.lastBetaStar
    · rw [if_pos hsame]
      split
      · trivial
      · exact ⟨hsame ▸ hv, fun h => ‹¬ _› h.symm⟩
    · rw [if_neg hsame]
      exact ⟨hv, hrange⟩
  · trivial

def valueBits (c : ChimpCompressor) (v : F64) : List Bool :=
  if c.count > 0 ∧ v = c.lastValue then [false, false, false]
  else
    match c.elfCase v with
    | .raw => [true, false] ++ chimpBits c.chimp v
    | .same vPrime => [false] ++ chimpBits c.chimp vPrime
    | .fresh betaStar vPrime =>
      [true, true] ++ bitsBE 4 betaStar.toNat ++ chimpBits c.chimp vPrime

/-- The Chimp encoder and the `beta_star` a value leaves. -/
def valueAfter (c : ChimpCompressor) (v : F64) : ChimpEnc × Int :=
  if c.count > 0 ∧ v = c.lastValue then ({ c.chimp with storedLz := 65 }, c.lastBetaStar)
  else
    match c.elfCase v with
    | .raw => (c.chimp.after v, c.lastBetaStar)
    | .same vPrime => (c.chimp.after vPrime, c.lastBetaStar)
    | .fresh betaStar vPrime => (c.chimp.after vPrime, betaStar)

omit [DecimalHelpers] in
theorem bitsBE_fresh : ∀ b < 16, bitsBE 6 (asU64 (b : Nat) ||| 0x30).toNat = [true, true] ++ bitsBE 4 b := by
  decide

structure ValueWritten (c : ChimpCompressor) (v : F64) (c' : ChimpCompressor) : Prop where
  writer : ∀ xs, c.writer.Holds xs → c'.writer.Holds (xs ++ c.valueBits v)
  rest : c' = { c with
    writer := c'.writer, chimp := (c.valueAfter v).1, lastBetaStar := (c.valueAfter v).2 }

omit [DecimalHelpers] in
theorem addValue_writes (marker : BitVec 64) {m : Nat} (hm : m ≤ 6) (value : BitVec 64) : (∀ xs, c.writer.Holds xs →
        (c.addValue marker m value).writer.Holds (xs ++ (bitsBE m marker.toNat ++ chimpBits c.chimp value)))
      ∧ c.addValue marker m value = { c with
          writer := (c.addValue marker m value).writer, chimp := c.chimp.after value } := by
  obtain ⟨hw, hafter⟩ := addValuePrefixed_writes c.chimp marker hm value
  refine ⟨fun xs h => hw c.writer xs h, ?_⟩
  unfold addValue
  simp only [hafter]

theorem writeValue_written (v : F64) : ValueWritten c v (c.writeValue v) := by
  unfold writeValue
  by_cases hrep : c.count > 0 ∧ v = c.lastValue
  · rw [if_pos hrep]
    constructor
    · intro xs hxs
      rw [valueBits, if_pos hrep]
      exact addRepeatPrefixed_writes c.chimp 0 (m := 1) (by omega) c.writer xs hxs
    · rw [valueAfter, if_pos hrep]
      rfl
  rw [if_neg hrep]
  have hsound := c.elfCase_sound v
  rcases helf : c.elfCase v with - | vPrime | ⟨betaStar, vPrime⟩
  · obtain ⟨hw, heq⟩ := c.addValue_writes 0b10 (m := 2) (by omega) v
    constructor
    · intro xs hxs
      rw [valueBits, if_neg hrep, helf]
      exact hw xs hxs
    · rw [valueAfter, if_neg hrep, helf]
      exact heq
  · obtain ⟨hw, heq⟩ := c.addValue_writes 0 (m := 1) (by omega) vPrime
    constructor
    · intro xs hxs
      rw [valueBits, if_neg hrep, helf]
      exact hw xs hxs
    · rw [valueAfter, if_neg hrep, helf]
      exact heq
  · rw [helf] at hsound
    obtain ⟨-, hlo, hhi⟩ := hsound
    obtain ⟨b, rfl⟩ : ∃ b : Nat, betaStar = b := ⟨betaStar.toNat, by omega⟩
    obtain ⟨hw, heq⟩ := { c with lastBetaStar := (b : Int) }.addValue_writes (asU64 b ||| 0x30)
      (m := 6) (by omega) vPrime
    rw [bitsBE_fresh b (by omega)] at hw
    constructor
    · intro xs hxs
      rw [valueBits, if_neg hrep, helf]
      exact hw xs hxs
    · rw [valueAfter, if_neg hrep, helf]
      exact heq

end ChimpCompressor

namespace ChimpDecompressor

/-- The decompressor has seen the values the compressor had seen. -/
structure ValueSync (c : ChimpCompressor) (d : ChimpDecompressor) : Prop where
  chimp : ChimpSync c.chimp d.chimp
  lastBetaStar : d.lastBetaStar = c.lastBetaStar
  lastValue : 0 < c.count → d.lastValue = c.lastValue

/-- The decompressor has seen what the compressor had seen. -/
structure Sync (c : ChimpCompressor) (d : ChimpDecompressor) : Prop extends ValueSync c d where
  count : d.count = c.count
  last : 0 < c.count → d.lastTimestamp = c.lastTimestamp ∧ d.lastDelta = c.lastDelta

end ChimpDecompressor

namespace ChimpDecompressor

variable [DecimalHelpers]

theorem recovered_reads {bits : BitVec 64} {betaStar : Int} {v : F64} (h : recover bits betaStar = .ok v) :
    Reads BitStreamReader.Holds (recovered bits betaStar) [] v := by
  intro r rest hr
  refine ⟨r, ?_, hr⟩
  rw [recovered, h]

theorem readValue_reads {c : ChimpCompressor} {d : ChimpDecompressor} (hsync : ValueSync c d)
    (hfirst : 0 < c.count → c.chimp.first = false) (v : F64) : ∃ chimp, ChimpSync (c.valueAfter v).1 chimp
    ∧ Reads BitStreamReader.Holds d.readValue (c.valueBits v)
    (v, { d with chimp := chimp, lastBetaStar := (c.valueAfter v).2, lastValue := v }) := by
  unfold readValue ChimpCompressor.valueBits ChimpCompressor.valueAfter
  by_cases hrep : c.count > 0 ∧ v = c.lastValue
  · obtain ⟨hpos, rfl⟩ := hrep
    simp only [hpos]
    have hnext : d.chimp.next = d.chimp.nextValue := by
      rw [ChimpDec.next, hsync.chimp.first, hfirst hpos]
      rfl
    have hforget : ¬ (65 : Int) ≤ 24 := by decide
    refine ⟨d.chimp, ⟨hsync.chimp.first, hsync.chimp.storedVal, fun _ h => absurd h hforget⟩, ?_⟩
    refine (readBit_reads false).bind ?_
    refine (hnext ▸ nextValue_reads_repeat d.chimp).bind_pure ?_
    rw [← hsync.lastBetaStar, ← hsync.lastValue hpos]
    rfl
  simp only [hrep, if_false]
  have hsound := c.elfCase_sound v
  rcases helf : c.elfCase v with - | vPrime | ⟨betaStar, vPrime⟩
  · obtain ⟨chimp, hread, hchimp, hval⟩ := chimp_next_reads hsync.chimp v
    refine ⟨chimp, hchimp, ?_⟩
    refine (readBit_reads true).bind ?_
    refine (readBit_reads false).bind ?_
    refine hread.bind_pure ?_
    simp only [hval, ← hsync.lastBetaStar]
  · rw [helf] at hsound
    obtain ⟨hrec, hne⟩ := hsound
    obtain ⟨chimp, hread, hchimp, hval⟩ := chimp_next_reads hsync.chimp vPrime
    rw [decide_eq_false hne, Bool.and_false] at hread
    refine ⟨chimp, hchimp, ?_⟩
    refine (readBit_reads false).bind ?_
    rw [← append_nil (chimpBits c.chimp vPrime)]
    refine hread.bind ?_
    rw [← hsync.lastBetaStar, ← hval] at hrec
    refine (recovered_reads hrec).bind_pure ?_
    simp only [hsync.lastBetaStar]
  · rw [helf] at hsound
    obtain ⟨hrec, hlo, hhi⟩ := hsound
    obtain ⟨b, rfl⟩ : ∃ b : Nat, betaStar = b := ⟨betaStar.toNat, by omega⟩
    obtain ⟨chimp, hread, hchimp, hval⟩ := chimp_next_reads hsync.chimp vPrime
    have hbeta := readBits_of_lt (n := 4) (by omega) (v := BitVec.ofNat 64 b)
      (by rw [BitVec.toNat_ofNat]; omega)
    have hb : (BitVec.ofNat 64 b).toNat = b := by
      rw [BitVec.toNat_ofNat]
      omega
    refine ⟨chimp, hchimp, ?_⟩
    change Reads BitStreamReader.Holds _
      ([true] ++ ([true] ++ (bitsBE 4 b ++ chimpBits c.chimp vPrime))) _
    refine (readBit_reads true).bind ?_
    refine (readBit_reads true).bind ?_
    rw [hb] at hbeta
    refine hbeta.bind ?_
    rw [← append_nil (chimpBits c.chimp vPrime)]
    refine hread.bind ?_
    simp only [hb]
    rw [← hval] at hrec
    exact (recovered_reads hrec).bind_pure rfl

end ChimpDecompressor

/-! ### One sample -/

namespace ChimpCompressor

def timestampBits (c : ChimpCompressor) (timestamp : Int) : List Bool :=
  if c.count = 0 then bytesBits (signedVarintBytes (asU64 timestamp))
  else tsDeltaBits (wrappingSub (wrappingSub timestamp c.lastTimestamp) c.lastDelta)

def deltaAfter (c : ChimpCompressor) (timestamp : Int) : Int :=
  if c.count = 0 then 0 else wrappingSub timestamp c.lastTimestamp

structure TimestampWritten (c : ChimpCompressor) (timestamp : Int) (c' : ChimpCompressor) : Prop where
  writer : ∀ xs, c.writer.Holds xs → c'.writer.Holds (xs ++ c.timestampBits timestamp)
  rest : c' = { c with
    writer := c'.writer
    firstTimestamp := if c.count = 0 then timestamp else c.firstTimestamp
    lastTimestamp := timestamp
    lastDelta := c.deltaAfter timestamp }

variable (c : ChimpCompressor)

theorem writeTimestamp_written (timestamp : Int) :
    TimestampWritten c timestamp (c.writeTimestamp timestamp) := by
  unfold writeTimestamp
  by_cases h0 : c.count = 0
  · rw [if_pos h0]
    constructor
    · rw [timestampBits, if_pos h0]
      exact fun xs hxs => writeVarint_writes (asU64 timestamp) c.writer xs hxs
    · rw [deltaAfter, if_pos h0, if_pos h0]
  · rw [if_neg h0]
    constructor
    · rw [timestampBits, if_neg h0]
      exact fun xs hxs => writeTsDelta_writes _ c.writer xs hxs
    · rw [deltaAfter, if_neg h0, if_neg h0]

variable [DecimalHelpers]

def sampleBits (c : ChimpCompressor) (s : Sample) : List Bool :=
  c.timestampBits s.timestamp ++ c.valueBits s.value

theorem length_sampleBits_le (s : Sample) : (c.sampleBits s).length ≤ 168 := by
  have hts : (c.timestampBits s.timestamp).length ≤ 80 := by
    have hvarint := length_uvarintBytes_le (zigzagEncode (asU64 s.timestamp))
    unfold timestampBits tsDeltaBits signedVarintBytes
    dsimp only
    split_ifs <;>
      simp only [length_append, length_cons, length_nil, length_bytesBits, length_bitsBE] <;>
      omega
  have hval : (c.valueBits s.value).length ≤ 81 := by
    unfold valueBits
    split
    · decide
    · split <;>
        simp only [length_append, length_bitsBE] <;>
        have := length_chimpBits_le c.chimp <;> grind
  rw [sampleBits, length_append]
  omega

/-- What an append does to the compressor: everything but the bytes of the
stream, which are given by the bits they hold. -/
structure Appended (c : ChimpCompressor) (s : Sample) (c' : ChimpCompressor) : Prop where
  writer : ∀ xs, c.writer.Holds xs → c'.writer.Holds (xs ++ c.sampleBits s)
  rest : c' =
    { writer := c'.writer
      chimp := (c.valueAfter s.value).1
      lastBetaStar := (c.valueAfter s.value).2
      count := c.count + 1
      firstTimestamp := if c.count = 0 then s.timestamp else c.firstTimestamp
      lastTimestamp := s.timestamp
      lastDelta := c.deltaAfter s.timestamp
      lastValue := s.value }

theorem addSample_appended (s : Sample) : Appended c s (c.addSample s) := by
  have hts := c.writeTimestamp_written s.timestamp
  have hval := (c.writeTimestamp s.timestamp).writeValue_written s.value
  -- the timestamp leaves alone what the value is written by
  have hbits : (c.writeTimestamp s.timestamp).valueBits s.value = c.valueBits s.value := by
    rw [hts.rest]
    rfl
  have hafter : (c.writeTimestamp s.timestamp).valueAfter s.value = c.valueAfter s.value := by
    rw [hts.rest]
    rfl
  constructor
  · intro xs hxs
    have h := hval.writer _ (hts.writer xs hxs)
    rw [hbits, append_assoc] at h
    exact h
  · have hrest := hval.rest
    rw [hafter] at hrest
    rw [addSample, hrest, hts.rest]

end ChimpCompressor

namespace ChimpDecompressor

theorem readTimestamp_reads {c : ChimpCompressor} {d : ChimpDecompressor} (hsync : Sync c d)
    {timestamp : Int} (hlo : i64Min ≤ timestamp) (hhi : timestamp ≤ i64Max) :
    Reads BitStreamReader.Holds d.readTimestamp (c.timestampBits timestamp)
    (timestamp, { d with lastTimestamp := timestamp, lastDelta := c.deltaAfter timestamp }) := by
  unfold readTimestamp ChimpCompressor.timestampBits ChimpCompressor.deltaAfter
  rw [hsync.count]
  by_cases h0 : c.count = 0
  · simp only [h0, if_true]
    refine (readVarint_reads (asU64 timestamp)).bind_pure ?_
    rw [toInt_asU64 hlo hhi]
  · simp only [h0, if_false]
    obtain ⟨hts, hdelta⟩ := hsync.last (by omega)
    obtain ⟨hlo', hhi'⟩ := wrappingSub_mem timestamp c.lastTimestamp
    obtain ⟨hlo'', hhi''⟩ := wrappingSub_mem
      (ChimpCompressor.wrappingSub timestamp c.lastTimestamp) c.lastDelta
    refine (readTsDelta_reads _ (toInt_asU64 hlo'' hhi'')).bind_pure ?_
    rw [hdelta, hts, wrappingAdd_wrappingSub hlo' hhi', wrappingAdd_wrappingSub hlo hhi]

variable [DecimalHelpers]

theorem nextSample_reads {c : ChimpCompressor} {d : ChimpDecompressor} (hsync : Sync c d)
    (hfirst : 0 < c.count → c.chimp.first = false) {s : Sample} (hlo : i64Min ≤ s.timestamp)
    (hhi : s.timestamp ≤ i64Max) (hmore : c.count < d.sampleCount) :
    ∃ d', Sync (c.addSample s) d' ∧ d'.sampleCount = d.sampleCount
    ∧ Reads BitStreamReader.Holds d.nextSample (c.sampleBits s) (some s, d') := by
  have hts := readTimestamp_reads hsync hlo hhi
  have hvalues : ValueSync c
      { d with lastTimestamp := s.timestamp, lastDelta := c.deltaAfter s.timestamp } :=
    ⟨hsync.chimp, hsync.lastBetaStar, hsync.lastValue⟩
  obtain ⟨chimp, hchimp, hval⟩ := readValue_reads hvalues hfirst s.value
  refine ⟨{ d with
      chimp := chimp, lastBetaStar := (c.valueAfter s.value).2, count := d.count + 1
      lastTimestamp := s.timestamp, lastDelta := c.deltaAfter s.timestamp, lastValue := s.value },
    ?_, rfl, ?_⟩
  · rw [(c.addSample_appended s).rest]
    exact ⟨⟨hchimp, rfl, fun _ => rfl⟩, congrArg (· + 1) hsync.count, fun _ => ⟨rfl, rfl⟩⟩
  · rw [nextSample, if_neg (by rw [hsync.count]; omega)]
    exact hts.bind (hval.bind_pure rfl)

end ChimpDecompressor

/-! ### Runs -/

namespace ChimpCompressor

open ChimpDecompressor

variable [DecimalHelpers]

def addAll (c : ChimpCompressor) (l : List Sample) : ChimpCompressor := l.foldl addSample c

/-- The rolling state the next append starts from is a sound one. -/
structure Ok (c : ChimpCompressor) : Prop where
  first : c.chimp.first = decide (c.count = 0)
  lastBetaStar : i32Min ≤ c.lastBetaStar ∧ c.lastBetaStar ≤ i32Max
  storedLz : i32Min ≤ c.chimp.storedLz ∧ c.chimp.storedLz ≤ i32Max
  firstTimestamp : i64Min ≤ c.firstTimestamp ∧ c.firstTimestamp ≤ i64Max
  lastTimestamp : i64Min ≤ c.lastTimestamp ∧ c.lastTimestamp ≤ i64Max
  lastDelta : i64Min ≤ c.lastDelta ∧ c.lastDelta ≤ i64Max

omit [DecimalHelpers] in
theorem new_ok : Ok new := by
  constructor <;> decide

theorem valueAfter_storedLz (c : ChimpCompressor) (v : F64) : (c.valueAfter v).1.storedLz = c.chimp.storedLz
    ∨ 0 ≤ (c.valueAfter v).1.storedLz ∧ (c.valueAfter v).1.storedLz ≤ 65 := by
  unfold valueAfter
  split
  · dsimp only
    omega
  · rcases c.elfCase v with - | vPrime | ⟨betaStar, vPrime⟩ <;> exact c.chimp.after_storedLz _

variable {c : ChimpCompressor}

theorem valueAfter_first (hok : c.Ok) (v : F64) : (c.valueAfter v).1.first = false := by
  unfold valueAfter
  split
  · rw [hok.first]
    exact decide_eq_false (by omega)
  · rcases c.elfCase v with - | vPrime | ⟨betaStar, vPrime⟩ <;> exact c.chimp.after_first _

theorem valueAfter_lastBetaStar (c : ChimpCompressor) (v : F64) : (c.valueAfter v).2 = c.lastBetaStar
    ∨ 0 ≤ (c.valueAfter v).2 ∧ (c.valueAfter v).2 < 16 := by
  unfold valueAfter
  split
  · exact .inl rfl
  · have hsound := c.elfCase_sound v
    rcases helf : c.elfCase v with - | vPrime | ⟨betaStar, vPrime⟩
    · exact .inl rfl
    · exact .inl rfl
    · rw [helf] at hsound
      exact .inr hsound.2

theorem Ok.addSample (hok : c.Ok) {s : Sample} (hlo : i64Min ≤ s.timestamp)
    (hhi : s.timestamp ≤ i64Max) : (c.addSample s).Ok := by
  rw [(c.addSample_appended s).rest]
  have hlz := c.valueAfter_storedLz s.value
  have hbeta := c.valueAfter_lastBetaStar s.value
  obtain ⟨hlz₁, hlz₂⟩ := hok.storedLz
  obtain ⟨hbeta₁, hbeta₂⟩ := hok.lastBetaStar
  rw [i32Min] at hlz₁ hbeta₁
  rw [i32Max] at hlz₂ hbeta₂
  constructor
  case first =>
    rw [valueAfter_first hok]
    rfl
  case lastBetaStar =>
    dsimp only
    rw [i32Min, i32Max]
    omega
  case storedLz =>
    dsimp only
    rw [i32Min, i32Max]
    omega
  case firstTimestamp =>
    split
    · exact ⟨hlo, hhi⟩
    · exact hok.firstTimestamp
  case lastTimestamp => exact ⟨hlo, hhi⟩
  case lastDelta =>
    dsimp only [deltaAfter]
    split
    · decide
    · exact wrappingSub_mem _ _

/-- **Run lemma.**  The stream grows by some bits from which a decompressor in
step with the compressor, and an iterator over it, read the list back. -/
theorem addAll_run (l : List Sample) (hl : ∀ s ∈ l, i64Min ≤ s.timestamp ∧ s.timestamp ≤ i64Max) (hok : c.Ok) :
    (c.addAll l).Ok ∧ (c.addAll l).count = c.count + l.length
    ∧ ∃ bits, (∀ xs, c.writer.Holds xs → (c.addAll l).writer.Holds (xs ++ bits)) ∧ bits.length ≤ 168 * l.length
    ∧ ∀ d, Sync c d → d.sampleCount = c.count + l.length → Reads BitStreamReader.Holds (d.collectFrom (l.length + 1))
    bits l
    ∧ ∀ it : ChimpIterator, it.inner = d → it.idx = c.count →
    it.numSamples = c.count + l.length → ∀ rest, it.reader.Holds (bits ++ rest) →
    it.take (l.length + 1) = (l, none) := by
  induction l generalizing c with
  | nil =>
    refine ⟨hok, rfl, [], fun xs h => by simpa [addAll] using h, by simp, fun d hsync hnum => ⟨?_, ?_⟩⟩
    · have hdone : d.nextSample = pure (none, d) := by
        rw [nextSample, if_pos (by rw [hsync.count, hnum]; rfl)]
      rw [collectFrom, hdone]
      exact Reads.pure []
    · intro it _ hidx hnum' rest _
      rw [ChimpIterator.take, ChimpIterator.next, if_pos (by rw [hidx, hnum']; exact Nat.le_refl _)]
  | cons s l ih =>
    obtain ⟨hlo, hhi⟩ := hl s mem_cons_self
    have hcount : (c.addSample s).count = c.count + 1 := by
      rw [(c.addSample_appended s).rest]
    obtain ⟨hok', hnum', bits, hw, hlen, hread⟩ :=
      ih (fun x hx => hl x (mem_cons_of_mem _ hx)) (hok.addSample hlo hhi)
    refine ⟨hok', ?_, c.sampleBits s ++ bits, ?_, ?_, ?_⟩
    · rw [length_cons]
      change ((c.addSample s).addAll l).count = _
      omega
    · intro xs hxs
      rw [← append_assoc]
      exact hw _ ((c.addSample_appended s).writer xs hxs)
    · have := c.length_sampleBits_le s
      rw [length_append, length_cons]
      omega
    · intro d hsync hnum
      rw [length_cons] at hnum
      have hfirst (h : 0 < c.count) : c.chimp.first = false := by
        rw [hok.first]
        exact decide_eq_false (by omega)
      obtain ⟨d', hsync', hsame, hnext⟩ := nextSample_reads hsync hfirst hlo hhi (by omega)
      obtain ⟨hcollect, hiter⟩ := hread d' hsync' (by omega)
      constructor
      · exact hnext.bind (hcollect.map (s :: ·))
      · intro it hinner hidx hmany rest hr
        rw [length_cons] at hmany
        rw [append_assoc] at hr
        obtain ⟨r, hr₁, hr₂⟩ := hnext it.reader (bits ++ rest) hr
        have htake := hiter { it with inner := d', reader := r, idx := it.idx + 1 } rfl
          (by rw [hcount, ← hidx]) (by rw [hcount]; dsimp only; omega) rest hr₂
        rw [length_cons, ChimpIterator.take, ChimpIterator.next, if_neg (by omega), hinner, hr₁]
        dsimp only
        rw [htake]

/-- The compressor holds the list: it is what appending the list to an empty
compressor gives. -/
structure Encodes (c : ChimpCompressor) (l : List Sample) : Prop where
  times : ValidTimes l
  run : new.addAll l = c

theorem Encodes.addSample {l : List Sample} {s : Sample} (h : Encodes c l)
    (ht : ValidTimes (l ++ [s])) : Encodes (c.addSample s) (l ++ [s]) := by
  refine ⟨ht, ?_⟩
  rw [addAll, foldl_append]
  exact congrArg (fun c => ChimpCompressor.addSample c s) h.run

theorem Encodes.spec {l : List Sample} (h : Encodes c l) : c.Ok ∧ c.count = l.length ∧ c.decode = (l, none)
    ∧ ChimpDecompressor.collect c.bytes c.count = .ok l ∧ ∃ xs, c.writer.Holds xs ∧ xs.length ≤ 168 * l.length := by
  have hl (s : Sample) (hs : s ∈ l) : i64Min ≤ s.timestamp ∧ s.timestamp ≤ i64Max := by
    obtain ⟨hlo, hhi⟩ := h.times s hs
    exact ⟨hlo.trans' (by decide), hhi⟩
  obtain ⟨hok, hnum, bits, hw, hlen, hread⟩ := addAll_run l hl new_ok
  rw [h.run] at hok hnum hw
  have hcount : c.count = l.length := by simpa [new] using hnum
  have hbits := hw [] new_holds
  obtain ⟨pad, hr⟩ := hbits.reader
  have hsync : Sync new (ChimpDecompressor.new c.count) := by
    refine ⟨⟨⟨rfl, ?_, ?_⟩, rfl, ?_⟩, rfl, ?_⟩
    · exact fun h => absurd h (by decide)
    · exact fun _ h => absurd h (by decide)
    · exact fun h => absurd h (by decide)
    · exact fun h => absurd h (by decide)
  obtain ⟨hcollect, hiter⟩ := hread _ hsync (by simpa [ChimpDecompressor.new, new] using hcount)
  refine ⟨hok, hcount, ?_, ?_, _, hbits, hlen⟩
  · have htake := hiter (ChimpIterator.new c) rfl rfl (by simpa [ChimpIterator.new, new] using hcount)
      pad hr
    rwa [← hcount] at htake
  · obtain ⟨r, hr', -⟩ := hcollect _ pad hr
    rw [← hcount] at hr'
    rw [ChimpDecompressor.collect, bytes, hr']
    rfl

end ChimpCompressor

end ValkeyTimeSeries
