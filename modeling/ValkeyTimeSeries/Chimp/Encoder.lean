/-
Chimp/Encoder.lean

The Chimp XOR codec, `series/chunks/chimp/encoder.rs`.

Design.  Every value but the first is written as the XOR with its predecessor under one of four two-bit flags.
Encoder and decoder do not keep the same number of leading zeros: the encoder forgets it (`65`) after a flag
`00` or `01`, the decoder does not.  What they share is `ChimpSync`: the stored value, and the leading zeros
whenever the encoder still has some.
-/
import ValkeyTimeSeries.Common.Sample

namespace ValkeyTimeSeries

open List Bits Codec BitStreamReader BitStream

/-! ### Tables -/

def chimpThreshold : Nat := 6

/-- 3-bit codes for the rounded number of leading zeros. -/
def leadingReprEnc : List Nat :=
  [0, 0, 0, 0, 0, 0, 0, 0, 1, 1, 1, 1, 2, 2, 2, 2, 3, 3, 4, 4, 5, 5, 6, 6, 7, 7, 7, 7, 7, 7, 7, 7,
   7, 7, 7, 7, 7, 7, 7, 7, 7, 7, 7, 7, 7, 7, 7, 7, 7, 7, 7, 7, 7, 7, 7, 7, 7, 7, 7, 7, 7, 7, 7, 7]

def leadingRoundEnc : List Nat :=
  [0, 0, 0, 0, 0, 0, 0, 0, 8, 8, 8, 8, 12, 12, 12, 12, 16, 16, 18, 18, 20, 20, 22, 22,
   24, 24, 24, 24, 24, 24, 24, 24, 24, 24, 24, 24, 24, 24, 24, 24, 24, 24, 24, 24, 24, 24, 24, 24,
   24, 24, 24, 24, 24, 24, 24, 24, 24, 24, 24, 24, 24, 24, 24, 24]

def leadingReprDec : List Nat := [0, 8, 12, 16, 18, 20, 22, 24]

theorem leading_tables : ∀ nlz < 64, leadingRoundEnc.getD nlz 0 ≤ nlz ∧ leadingRoundEnc.getD nlz 0 ≤ 24
    ∧ leadingReprEnc.getD (leadingRoundEnc.getD nlz 0) 0 < 8
    ∧ leadingReprDec.getD (leadingReprEnc.getD (leadingRoundEnc.getD nlz 0) 0) 0 = leadingRoundEnc.getD nlz 0 := by
  decide

/-! ### The encoder -/

def i32Max : Int := 2 ^ 31 - 1

def i32Min : Int := -2 ^ 31

structure ChimpEnc where
  storedLz : Int
  storedVal : BitVec 64
  first : Bool
deriving DecidableEq, Repr

namespace ChimpEnc

def new : ChimpEnc := ⟨i32Max, 0, true⟩

/-- A header followed by the `sig`-bit payload, in one write when both fit. -/
def emit (out : BitStream) (header : BitVec 64) (headerLen : Nat) (payload : BitVec 64)
    (sig : Nat) : BitStream :=
  if headerLen + sig ≤ 64 then out.writeBits (headerLen + sig) (header <<< sig ||| payload)
  else (out.writeBits headerLen header).writeBits sig payload

def compressValue (c : ChimpEnc) (out : BitStream) (marker : BitVec 64) (markerLen : Nat)
    (value : BitVec 64) : BitStream × ChimpEnc :=
  let xor := c.storedVal ^^^ value
  if xor = 0 then
    (out.writeBits (markerLen + 2) (marker <<< 2), { c with storedLz := 65, storedVal := value })
  else
    let lz := leadingRoundEnc.getD (leadingZeros xor) 0
    let tz := trailingZeros xor
    let code := BitVec.ofNat 64 (leadingReprEnc.getD lz 0)
    if tz > chimpThreshold then
      -- flag `01`, 3-bit leading code, 6-bit width, then `sig` bits
      let sig := 64 - lz - tz
      let header := marker <<< 11 ||| (0b01 : BitVec 64) <<< 9 ||| code <<< 6 ||| BitVec.ofNat 64 sig
      (emit out header (markerLen + 11) (xor >>> tz) sig, { c with storedLz := 65, storedVal := value })
    else if (lz : Int) = c.storedLz then
      -- flag `10`, then `64 - lz` bits
      let header := marker <<< 2 ||| 0b10
      (emit out header (markerLen + 2) xor (64 - lz), { c with storedVal := value })
    else
      -- flag `11`, 3-bit leading code, then `64 - lz` bits
      let header := marker <<< 5 ||| (0b11 : BitVec 64) <<< 3 ||| code
      (emit out header (markerLen + 5) xor (64 - lz), { c with storedLz := lz, storedVal := value })

def addValuePrefixed (c : ChimpEnc) (out : BitStream) (marker : BitVec 64) (markerLen : Nat)
    (value : BitVec 64) : BitStream × ChimpEnc :=
  if c.first then
    let out := if markerLen > 0 then out.writeBits markerLen marker else out
    (out.writeBits 64 value, { c with first := false, storedVal := value })
  else c.compressValue out marker markerLen value

/-- The `xor == 0` flag for a value known to be unchanged. -/
def addRepeatPrefixed (c : ChimpEnc) (out : BitStream) (marker : BitVec 64) (markerLen : Nat) :
    BitStream × ChimpEnc :=
  (out.writeBits (markerLen + 2) (marker <<< 2), { c with storedLz := 65 })

end ChimpEnc

/-! ### The decoder -/

structure ChimpDec where
  storedLz : Int
  storedTz : Int
  storedVal : BitVec 64
  first : Bool
deriving DecidableEq, Repr

namespace ChimpDec

def new : ChimpDec := ⟨i32Max, 0, 0, true⟩

def asU8 (x : Int) : Nat := (x % 256).toNat

/-- Returns whether the encoded XOR was zero, and the decoder after the value. -/
def nextValue (d : ChimpDec) : BitReader (Bool × ChimpDec) := do
  let head ← BitStreamReader.peekUpto 11
  let flag := (head >>> 9).toNat
  if flag = 3 then
    let storedLz := (leadingReprDec.getD ((head >>> 6) &&& 7).toNat 0 : Int)
    BitStreamReader.skip 5
    let value ← BitStreamReader.readBits (asU8 (64 - storedLz))
    pure (false, { d with storedLz := storedLz, storedVal := d.storedVal ^^^ value })
  else if flag = 2 then
    BitStreamReader.skip 2
    let value ← BitStreamReader.readBits (asU8 (64 - d.storedLz))
    pure (false, { d with storedVal := d.storedVal ^^^ value })
  else if flag = 1 then
    let storedLz := (leadingReprDec.getD ((head >>> 6) &&& 7).toNat 0 : Int)
    let sig := if (head &&& 63).toNat = 0 then 64 else ((head &&& 63).toNat : Int)
    BitStreamReader.skip 11
    let storedTz := 64 - sig - storedLz
    let value ← BitStreamReader.readBits (asU8 (64 - storedLz - storedTz))
    pure (false, { d with
      storedLz := storedLz, storedTz := storedTz
      storedVal := d.storedVal ^^^ value <<< asU8 storedTz })
  else
    BitStreamReader.skip 2
    pure (true, d)

def next (d : ChimpDec) : BitReader (Bool × ChimpDec) :=
  if d.first then do
    let storedVal ← BitStreamReader.readBits 64
    pure (false, { d with first := false, storedVal := storedVal })
  else d.nextValue

end ChimpDec

/-! ### The layout -/

structure ChimpSync (c : ChimpEnc) (d : ChimpDec) : Prop where
  first : d.first = c.first
  storedVal : c.first = false → d.storedVal = c.storedVal
  storedLz : 0 ≤ c.storedLz → c.storedLz ≤ 24 → d.storedLz = c.storedLz

/-- The bits of a value, behind the caller's marker. -/
def chimpBits (c : ChimpEnc) (value : BitVec 64) : List Bool :=
  if c.first then bitsBE 64 value.toNat
  else
    let xor := c.storedVal ^^^ value
    if xor = 0 then [false, false]
    else
      let lz := leadingRoundEnc.getD (leadingZeros xor) 0
      let tz := trailingZeros xor
      let code := leadingReprEnc.getD lz 0
      if tz > chimpThreshold then
        [false, true] ++ bitsBE 3 code ++ bitsBE 6 (64 - lz - tz)
          ++ bitsBE (64 - lz - tz) (xor >>> tz).toNat
      else if (lz : Int) = c.storedLz then [true, false] ++ bitsBE (64 - lz) xor.toNat
      else [true, true] ++ bitsBE 3 code ++ bitsBE (64 - lz) xor.toNat

variable (c : ChimpEnc)

theorem length_chimpBits_le (value : BitVec 64) : (chimpBits c value).length ≤ 75 := by
  unfold chimpBits
  dsimp only
  split_ifs <;> simp only [length_append, length_cons, length_nil, length_bitsBE] <;>
    omega

def ChimpEnc.after (c : ChimpEnc) (value : BitVec 64) : ChimpEnc :=
  if c.first then { c with first := false, storedVal := value }
  else
    let xor := c.storedVal ^^^ value
    let lz := leadingRoundEnc.getD (leadingZeros xor) 0
    if xor = 0 ∨ trailingZeros xor > chimpThreshold then
      { c with storedLz := 65, storedVal := value }
    else { c with storedLz := lz, storedVal := value }

variable {xor : BitVec 64}

/-- The window of an XOR that is not zero: its rounded leading zeros leave at
least one bit in front of the trailing ones. -/
theorem chimp_window (h : xor ≠ 0) : leadingRoundEnc.getD (leadingZeros xor) 0 ≤ leadingZeros xor
    ∧ leadingRoundEnc.getD (leadingZeros xor) 0 ≤ 24 ∧ leadingReprEnc.getD (leadingRoundEnc.getD (leadingZeros xor) 0)
    0 < 8
    ∧ leadingReprDec.getD (leadingReprEnc.getD (leadingRoundEnc.getD (leadingZeros xor) 0) 0) 0
    = leadingRoundEnc.getD (leadingZeros xor) 0
    ∧ leadingRoundEnc.getD (leadingZeros xor) 0 + trailingZeros xor ≤ 63 := by
  have hsum := leadingZeros_add_trailingZeros h
  obtain ⟨h₁, h₂, h₃, h₄⟩ := leading_tables (leadingZeros xor) (by omega)
  exact ⟨h₁, h₂, h₃, h₄, by omega⟩

theorem ChimpEnc.after_first (value : BitVec 64) : (c.after value).first = false := by
  unfold after
  cases c.first with
  | true => rfl
  | false =>
    rw [if_neg Bool.false_ne_true]
    dsimp only
    split
    · rfl
    · rfl

theorem ChimpEnc.after_storedLz (value : BitVec 64) : (c.after value).storedLz = c.storedLz
    ∨ 0 ≤ (c.after value).storedLz ∧ (c.after value).storedLz ≤ 65 := by
  unfold after
  cases c.first with
  | true => exact .inl rfl
  | false =>
    right
    rw [if_neg Bool.false_ne_true]
    dsimp only
    split
    · dsimp only
      omega
    · rename_i h
      obtain ⟨-, h24, -⟩ := chimp_window (fun hxor => h (.inl hxor))
      dsimp only
      omega

/-! ### What each write appends -/

theorem emit_writes {headerLen sig : Nat} (hh : headerLen ≤ 64) (hsig : sig ≤ 64)
    (header : BitVec 64) {payload : BitVec 64} (hp : payload.toNat < 2 ^ sig) :
    Writes BitStream.Holds (fun out => ChimpEnc.emit out header headerLen payload sig)
    (bitsBE headerLen header.toNat ++ bitsBE sig payload.toNat) := by
  unfold ChimpEnc.emit
  split
  · exact writeBits_concat ‹_› header hp
  · exact writeBits_writeBits hh hsig header payload

section Headers

variable (marker : BitVec 64) {m : Nat} (hm : m ≤ 6)
include hm

theorem bitsBE_flag_repeat : bitsBE (m + 2) (marker <<< 2).toNat = bitsBE m marker.toNat ++ [false, false] := by
  have h := bitsBE_concat m 2 marker 0#64 (by omega) (by decide)
  rwa [BitVec.or_zero] at h

theorem bitsBE_flag_same : bitsBE (m + 2) (marker <<< 2 ||| 0b10).toNat = bitsBE m marker.toNat ++ [true, false] :=
  bitsBE_concat m 2 marker 0b10 (by omega) (by decide)

theorem bitsBE_flag_new {code : Nat} (hc : code < 8) :
    bitsBE (m + 5) (marker <<< 5 ||| (0b11 : BitVec 64) <<< 3 ||| BitVec.ofNat 64 code).toNat
      = bitsBE m marker.toNat ++ ([true, true] ++ bitsBE 3 code) := by
  have hcode : (BitVec.ofNat 64 code).toNat = code := by
    rw [BitVec.toNat_ofNat]
    omega
  have hshift : marker <<< 5 ||| (0b11 : BitVec 64) <<< 3 = (marker <<< 2 ||| 0b11) <<< 3 := by
    rw [BitVec.shiftLeft_or_distrib, ← BitVec.shiftLeft_add]
  rw [hshift, show m + 5 = m + 2 + 3 by omega, bitsBE_concat _ 3 _ _ (by omega) (by omega),
    bitsBE_concat m 2 _ _ (by omega) (by decide), hcode, append_assoc]
  rfl

theorem bitsBE_flag_trailing {code sig : Nat} (hc : code < 8) (hs : sig < 64) :
    bitsBE (m + 11) (marker <<< 11 ||| (0b01 : BitVec 64) <<< 9 ||| BitVec.ofNat 64 code <<< 6
        ||| BitVec.ofNat 64 sig).toNat
      = bitsBE m marker.toNat ++ ([false, true] ++ bitsBE 3 code ++ bitsBE 6 sig) := by
  have hcode : (BitVec.ofNat 64 code).toNat = code := by
    rw [BitVec.toNat_ofNat]
    omega
  have hsig : (BitVec.ofNat 64 sig).toNat = sig := by
    rw [BitVec.toNat_ofNat]
    omega
  have hshift : marker <<< 11 ||| (0b01 : BitVec 64) <<< 9 ||| BitVec.ofNat 64 code <<< 6
      = ((marker <<< 2 ||| 0b01) <<< 3 ||| BitVec.ofNat 64 code) <<< 6 := by
    rw [BitVec.shiftLeft_or_distrib, BitVec.shiftLeft_or_distrib, BitVec.shiftLeft_or_distrib,
      ← BitVec.shiftLeft_add, ← BitVec.shiftLeft_add, ← BitVec.shiftLeft_add]
  rw [hshift, show m + 11 = m + 2 + 3 + 6 by omega, bitsBE_concat _ 6 _ _ (by omega) (by omega),
    bitsBE_concat _ 3 _ _ (by omega) (by omega), bitsBE_concat m 2 _ _ (by omega) (by decide),
    hcode, hsig, append_assoc, append_assoc, append_assoc]
  rfl

end Headers

theorem compressValue_writes {c : ChimpEnc} (hfirst : c.first = false) (marker : BitVec 64) {m : Nat}
    (hm : m ≤ 6) (value : BitVec 64) : Writes BitStream.Holds (fun out => (c.compressValue out marker m value).1)
    (bitsBE m marker.toNat ++ chimpBits c value)
    ∧ ∀ out, (c.compressValue out marker m value).2 = c.after value := by
  unfold ChimpEnc.compressValue chimpBits ChimpEnc.after
  simp only [hfirst, Bool.false_eq_true, if_false]
  by_cases hxor : c.storedVal ^^^ value = 0
  · simp only [hxor, if_true, true_or]
    refine ⟨?_, fun _ => trivial⟩
    rw [← bitsBE_flag_repeat marker hm]
    exact writeBits_writes_of_le (by omega) _
  obtain ⟨hlz, h24, hcode, -, hsum⟩ := chimp_window hxor
  generalize leadingRoundEnc.getD (leadingZeros (c.storedVal ^^^ value)) 0 = lz at *
  have hpay := toNat_shiftRight_lt hlz (t := 0) (by omega)
  by_cases htz : trailingZeros (c.storedVal ^^^ value) > chimpThreshold
  · simp only [hxor, htz, if_true, if_false, or_true]
    refine ⟨?_, fun _ => trivial⟩
    rw [← append_assoc, ← bitsBE_flag_trailing marker hm hcode]
    · exact emit_writes (by omega) (by omega) _ (toNat_shiftRight_lt hlz (by omega))
    · omega
  simp only [hxor, htz, if_false, or_self]
  by_cases hsame : (lz : Int) = c.storedLz
  · simp only [hsame, if_true]
    refine ⟨?_, fun _ => trivial⟩
    rw [← append_assoc, ← bitsBE_flag_same marker hm]
    exact emit_writes (by omega) (by omega) _ hpay
  · simp only [hsame, if_false]
    refine ⟨?_, fun _ => trivial⟩
    rw [← append_assoc, ← bitsBE_flag_new marker hm hcode]
    exact emit_writes (by omega) (by omega) _ hpay

theorem addValuePrefixed_writes (marker : BitVec 64) {m : Nat} (hm : m ≤ 6) (value : BitVec 64) :
    Writes BitStream.Holds (fun out => (c.addValuePrefixed out marker m value).1)
    (bitsBE m marker.toNat ++ chimpBits c value)
    ∧ ∀ out, (c.addValuePrefixed out marker m value).2 = c.after value := by
  cases hfirst : c.first with
  | true =>
    unfold ChimpEnc.addValuePrefixed chimpBits ChimpEnc.after
    simp only [hfirst, if_true]
    refine ⟨?_, fun _ => trivial⟩
    split
    · exact writeBits_writeBits (by omega) (by omega) marker value
    · obtain rfl : m = 0 := by omega
      exact writeBits_writes_of_le (by omega) value
  | false =>
    have h := compressValue_writes hfirst marker hm value
    simpa only [ChimpEnc.addValuePrefixed, hfirst, Bool.false_eq_true, if_false] using h

theorem addRepeatPrefixed_writes (marker : BitVec 64) {m : Nat} (hm : m ≤ 6) :
    Writes BitStream.Holds (fun out => (c.addRepeatPrefixed out marker m).1)
    (bitsBE m marker.toNat ++ [false, false]) := by
  rw [← bitsBE_flag_repeat marker hm]
  exact writeBits_writes_of_le (by omega) _

/-! ### Reading back -/

theorem asU8_natCast {n : Nat} (h : n < 256) : ChimpDec.asU8 (n : Int) = n := by
  rw [ChimpDec.asU8]
  omega

theorem peeked_flag_code {head : BitVec 64} (flag : Nat) {code : Nat} (hc : code < 8)
    (h : head.toNat >>> 6 = flag * 8 + code) : (head >>> 9).toNat = flag ∧ ((head >>> 6) &&& 7).toNat = code := by
  have h7 : (7 : BitVec 64).toNat = 2 ^ 3 - 1 := rfl
  constructor
  · rw [BitVec.toNat_ushiftRight, Nat.shiftRight_eq_div_pow]
    omega
  · rw [BitVec.toNat_and, h7, Nat.and_two_pow_sub_one_eq_mod, BitVec.toNat_ushiftRight, Nat.shiftRight_eq_div_pow]
    omega

theorem xor_xor_self (a b : BitVec 64) : a ^^^ (a ^^^ b) = b := by
  rw [← BitVec.xor_assoc, BitVec.xor_self, BitVec.zero_xor]

theorem nextValue_reads_repeat (d : ChimpDec) : Reads BitStreamReader.Holds d.nextValue [false, false] (true, d) := by
  refine peekUpto_reads [false, false] (by omega) (by decide) ?_ (Reads.pure _)
  intro head _ hhead
  have hflag : (head >>> 9).toNat = 0 := hhead
  simp only [hflag]
  rfl

theorem nextValue_reads_same {d : ChimpDec} {lz : Nat} (hd : d.storedLz = lz) (hlz : lz ≤ leadingZeros xor)
    (h64 : lz ≤ 64) :
    Reads BitStreamReader.Holds d.nextValue ([true, false] ++ bitsBE (64 - lz) xor.toNat)
    (false, { d with storedVal := d.storedVal ^^^ xor }) := by
  have hwidth : ChimpDec.asU8 (64 - d.storedLz) = 64 - lz := by
    rw [hd, ChimpDec.asU8]
    omega
  have hread := readBits_of_lt (n := 64 - lz) (by omega)
    (toNat_lt_of_le_leadingZeros hlz)
  refine peekUpto_reads [true, false] (by omega) (by decide) ?_
    (hread.bind_pure (f := fun value => pure (false, { d with storedVal := d.storedVal ^^^ value })) rfl)
  intro head _ hhead
  have hflag : (head >>> 9).toNat = 2 := hhead
  simp only [hflag, hwidth]
  rfl

theorem nextValue_reads_new (d : ChimpDec) {lz code : Nat} (hcode : code < 8)
    (hdec : leadingReprDec.getD code 0 = lz) (hlz : lz ≤ leadingZeros xor) (h64 : lz ≤ 64) :
    Reads BitStreamReader.Holds d.nextValue ([true, true] ++ bitsBE 3 code ++ bitsBE (64 - lz) xor.toNat)
    (false, { d with storedLz := lz, storedVal := d.storedVal ^^^ xor }) := by
  have hwidth : ChimpDec.asU8 (64 - (lz : Int)) = 64 - lz := by
    rw [ChimpDec.asU8]
    omega
  have hread := readBits_of_lt (n := 64 - lz) (by omega)
    (toNat_lt_of_le_leadingZeros hlz)
  refine peekUpto_reads ([true, true] ++ bitsBE 3 code) (by omega) (by simp) ?_
    (hread.bind_pure (f := fun value =>
      pure (false, { d with storedLz := lz, storedVal := d.storedVal ^^^ value })) rfl)
  intro head _ hhead
  have hbits : ofBitsBE ([true, true] ++ bitsBE 3 code) = 3 * 8 + code := by
    rw [ofBitsBE_append, length_bitsBE, ofBitsBE_bitsBE_of_lt (by omega)]
    rfl
  rw [hbits] at hhead
  obtain ⟨hflag, hc⟩ := peeked_flag_code 3 hcode hhead
  simp only [hflag, hc, hdec, hwidth]
  rfl

theorem nextValue_reads_trailing (d : ChimpDec) {lz tz code : Nat} (hcode : code < 8)
    (hdec : leadingReprDec.getD code 0 = lz) (hlz : lz ≤ leadingZeros xor)
    (htz : tz ≤ trailingZeros xor) (hsum : lz + tz ≤ 63) (hpos : 0 < tz) : Reads BitStreamReader.Holds d.nextValue
    ([false, true] ++ bitsBE 3 code ++ bitsBE 6 (64 - lz - tz) ++ bitsBE (64 - lz - tz) (xor >>> tz).toNat)
    (false, { d with storedLz := lz, storedTz := tz, storedVal := d.storedVal ^^^ xor }) := by
  have hread := readBits_of_lt (n := 64 - lz - tz) (by omega)
    (toNat_shiftRight_lt hlz (by omega))
  have hxor := shiftRight_shiftLeft_of_le htz
  refine peekUpto_reads
    ([false, true] ++ bitsBE 3 code ++ bitsBE 6 (64 - lz - tz)) (by omega) (by simp) ?_
    (hread.bind_pure (f := fun value => pure (false, { d with
      storedLz := lz, storedTz := tz, storedVal := d.storedVal ^^^ value <<< tz })) (by rw [hxor]))
  intro head hlt hhead
  have hbits : ofBitsBE ([false, true] ++ bitsBE 3 code ++ bitsBE 6 (64 - lz - tz))
      = (1 * 8 + code) * 64 + (64 - lz - tz) := by
    rw [ofBitsBE_append, ofBitsBE_append, length_bitsBE, length_bitsBE,
      ofBitsBE_bitsBE_of_lt (by omega), ofBitsBE_bitsBE_of_lt (by omega)]
    rfl
  rw [hbits] at hhead
  have hall : head.toNat = (1 * 8 + code) * 64 + (64 - lz - tz) := by simpa using hhead
  obtain ⟨hflag, hc⟩ := peeked_flag_code 1 hcode (by
    rw [hall, Nat.shiftRight_eq_div_pow]
    omega)
  have hsig : (head &&& 63).toNat = 64 - lz - tz := by
    rw [BitVec.toNat_and, show (63 : BitVec 64).toNat = 2 ^ 6 - 1 from rfl, Nat.and_two_pow_sub_one_eq_mod, hall]
    omega
  have htz' : 64 - ((64 - lz - tz : Nat) : Int) - lz = tz := by omega
  have hwidth : ChimpDec.asU8 (64 - (lz : Int) - tz) = 64 - lz - tz := by
    rw [ChimpDec.asU8]
    omega
  simp only [hflag, hc, hdec, hsig, if_neg (show ¬ 64 - lz - tz = 0 by omega), htz', hwidth,
    asU8_natCast (show tz < 256 by omega)]
  rfl

theorem chimp_next_reads {c : ChimpEnc} {d : ChimpDec} (hsync : ChimpSync c d) (value : BitVec 64) :
    ∃ d', Reads BitStreamReader.Holds d.next (chimpBits c value) (!c.first && decide (c.storedVal = value), d')
    ∧ ChimpSync (c.after value) d' ∧ d'.storedVal = value := by
  unfold ChimpDec.next chimpBits ChimpEnc.after
  rw [hsync.first]
  cases hfirst : c.first with
  | true =>
    refine ⟨{ d with first := false, storedVal := value }, ?_, ⟨rfl, fun _ => rfl, ?_⟩, rfl⟩
    · exact (readBits_of_lt (n := 64) (by omega) value.isLt).bind_pure rfl
    · exact hsync.storedLz
  | false =>
    have hval := hsync.storedVal hfirst
    have hfst : d.first = false := hsync.first.trans hfirst
    -- after a flag `00` or `01` the encoder has no leading zeros to agree on
    have hforget : ¬ (65 : Int) ≤ 24 := by decide
    dsimp only
    by_cases hxor : c.storedVal ^^^ value = 0
    · have heq : c.storedVal = value := BitVec.xor_eq_zero_iff.mp hxor
      have hdec : decide (c.storedVal = value) = true := decide_eq_true heq
      simp only [hxor, hdec]
      exact ⟨d, nextValue_reads_repeat d, ⟨hfst, fun _ => hval.trans heq, fun _ h => absurd h hforget⟩, hval.trans heq⟩
    have hne : decide (c.storedVal = value) = false :=
      decide_eq_false fun h => hxor (BitVec.xor_eq_zero_iff.mpr h)
    obtain ⟨hlz, h24, hcode, hdec, hsum⟩ := chimp_window hxor
    generalize leadingRoundEnc.getD (leadingZeros (c.storedVal ^^^ value)) 0 = lz at *
    have hres : d.storedVal ^^^ (c.storedVal ^^^ value) = value := by
      rw [hval, xor_xor_self]
    by_cases htz : trailingZeros (c.storedVal ^^^ value) > chimpThreshold
    · simp only [hxor, htz, hne]
      exact ⟨_, nextValue_reads_trailing d hcode hdec hlz (Nat.le_refl _) hsum (Nat.lt_of_le_of_lt (Nat.zero_le _) htz),
        ⟨hfst, fun _ => hres, fun _ h => absurd h hforget⟩, hres⟩
    simp only [hxor, htz, hne]
    by_cases hsame : (lz : Int) = c.storedLz
    · rw [if_pos hsame]
      have hd : d.storedLz = lz := by
        rw [hsame]
        exact hsync.storedLz (by omega) (by omega)
      exact ⟨_, nextValue_reads_same hd hlz (by omega), ⟨hfst, fun _ => hres, fun _ _ => hd⟩, hres⟩
    · rw [if_neg hsame]
      exact ⟨_, nextValue_reads_new d hcode hdec hlz (by omega), ⟨hfst, fun _ => hres, fun _ _ => rfl⟩, hres⟩

end ValkeyTimeSeries
