/-
Stream/Varbit.lean

Variable-length signed integers of `series/chunks/stream/varbit.rs`, the encoding of Gorilla's delta-of-delta
timestamps.

Design.  An integer falls in one of nine buckets by magnitude.  A bucket is spelled in unary (ones, closed by
a zero except in the last bucket) and gives the width of the payload, the low bits of the two's complement.
Every bucket but the last is strictly narrower than its payload, so the reader's sign test `value > 1 <<
(num_bits - 1)` never meets the one pattern it would get wrong.
-/
import ValkeyTimeSeries.Stream.BitStreamReader

namespace ValkeyTimeSeries

open Bits Codec BitVec Nat

/-! ### The two sides -/

def asU64 (value : Int) : BitVec 64 := BitVec.ofInt 64 value

def writeVarbit (w : BitStream) (value : Int) : BitStream :=
  let v := asU64 value
  if value = 0 then w.writeBitRaw false
  else if -3 ≤ value ∧ value ≤ 3 then w.writeBits 7 ((0b10 : BitVec 64) <<< 5 ||| v &&& 0x1F)
  else if -31 ≤ value ∧ value ≤ 31 then w.writeBits 12 ((0b110 : BitVec 64) <<< 9 ||| v &&& 0x1FF)
  else if -255 ≤ value ∧ value ≤ 255 then w.writeBits 17 ((0b1110 : BitVec 64) <<< 13 ||| v &&& 0x1FFF)
  else if -2047 ≤ value ∧ value ≤ 2047 then w.writeBits 22 ((0b11110 : BitVec 64) <<< 17 ||| v &&& 0x1FFFF)
  else if -131071 ≤ value ∧ value ≤ 131071 then
    w.writeBits 30 ((0b111110 : BitVec 64) <<< 24 ||| v &&& 0xFFFFFF)
  else if -16777215 ≤ value ∧ value ≤ 16777215 then
    w.writeBits 39 ((0b1111110 : BitVec 64) <<< 32 ||| v &&& 0xFFFFFFFF)
  else if -36028797018963967 ≤ value ∧ value ≤ 36028797018963967 then
    w.writeBits 64 ((0b11111110 : BitVec 64) <<< 56 ||| v &&& 0x00FFFFFFFFFFFFFF)
  else (w.writeBits 8 0b11111111).writeBits 64 v

/-- The unary bucket number: ones up to the first zero, eight at most. -/
def readVarbitIntBucketFrom : Nat → Nat → BitReader Nat
  | 0, i => pure i
  | fuel + 1, i => do
      let bit ← BitStreamReader.readBit
      if !bit then pure i else readVarbitIntBucketFrom fuel (i + 1)

def readVarbitIntBucket : BitReader Nat := readVarbitIntBucketFrom 8 0

def varbitBucketToNumBits : Nat → Nat
  | 0 => 0
  | 1 => 5
  | 2 => 9
  | 3 => 13
  | 4 => 17
  | 5 => 24
  | 6 => 32
  | 7 => 56
  | _ => 64

def signExtend (val : BitVec 64) (bits : Nat) : Int :=
  let m := (1 : BitVec 64) <<< (bits - 1)
  ((val ^^^ m) - m).toInt

def readVarbitInt : BitReader Int := do
  let bucket ← readVarbitIntBucket
  let numBits := varbitBucketToNumBits bucket
  if bucket = 0 then pure 0
  else
    let value ← BitStreamReader.readBits numBits
    pure (if numBits ≠ 64 ∧ 1 <<< (numBits - 1) < value.toNat then signExtend value numBits
      else value.toInt)

/-! ### The layout -/

def varbitBucket (value : Int) : Nat :=
  if value = 0 then 0
  else if -3 ≤ value ∧ value ≤ 3 then 1
  else if -31 ≤ value ∧ value ≤ 31 then 2
  else if -255 ≤ value ∧ value ≤ 255 then 3
  else if -2047 ≤ value ∧ value ≤ 2047 then 4
  else if -131071 ≤ value ∧ value ≤ 131071 then 5
  else if -16777215 ≤ value ∧ value ≤ 16777215 then 6
  else if -36028797018963967 ≤ value ∧ value ≤ 36028797018963967 then 7
  else 8

/-- Bucket `b` in unary: its closing zero is left out when no bucket follows. -/
def bucketBits (b : Nat) : List Bool :=
  List.replicate b true ++ if b < 8 then [false] else []

def varbitBits (value : Int) : List Bool :=
  bucketBits (varbitBucket value)
    ++ bitsBE (varbitBucketToNumBits (varbitBucket value)) (asU64 value).toNat

theorem length_varbitBits_le (value : Int) : (varbitBits value).length ≤ 72 := by
  unfold varbitBits varbitBucket
  split_ifs <;> simp [bucketBits, varbitBucketToNumBits]

theorem writeBits_bucket (p n : Nat) (marker v mask : BitVec 64) (hpn : p + n ≤ 64) (hmask : mask.toNat = 2 ^ n - 1) :
    Writes BitStream.Holds (fun w => w.writeBits (p + n) (marker <<< n ||| v &&& mask))
      (bitsBE p marker.toNat ++ bitsBE n v.toNat) := by
  have hlow : (v &&& mask).toNat = v.toNat % 2 ^ n := by
    rw [toNat_and, hmask, and_two_pow_sub_one_eq_mod]
  have hlt : (v &&& mask).toNat < 2 ^ n := by
    rw [hlow]
    exact Nat.mod_lt _ (Nat.two_pow_pos _)
  have h := BitStream.writeBits_concat hpn marker hlt
  rwa [hlow, bitsBE_mod] at h

theorem writeVarbit_writes (value : Int) :
    Writes BitStream.Holds (fun w => writeVarbit w value) (varbitBits value) := by
  unfold writeVarbit varbitBits varbitBucket
  dsimp only
  split_ifs
  · exact BitStream.writeBitRaw_writes false
  · exact writeBits_bucket 2 5 0b10 _ 0x1F (by omega) rfl
  · exact writeBits_bucket 3 9 0b110 _ 0x1FF (by omega) rfl
  · exact writeBits_bucket 4 13 0b1110 _ 0x1FFF (by omega) rfl
  · exact writeBits_bucket 5 17 0b11110 _ 0x1FFFF (by omega) rfl
  · exact writeBits_bucket 6 24 0b111110 _ 0xFFFFFF (by omega) rfl
  · exact writeBits_bucket 7 32 0b1111110 _ 0xFFFFFFFF (by omega) rfl
  · exact writeBits_bucket 8 56 0b11111110 _ 0x00FFFFFFFFFFFFFF (by omega) rfl
  · exact BitStream.writeBits_writeBits (p := 8) (n := 64) (by omega) (by omega) 0b11111111 _

/-! ### Reading back -/

theorem readVarbitIntBucketFrom_reads (fuel k i : Nat) (hk : k ≤ fuel) :
    Reads BitStreamReader.Holds (readVarbitIntBucketFrom fuel i)
    (List.replicate k true ++ if k < fuel then [false] else []) (i + k) := by
  induction fuel generalizing k i with
  | zero =>
    obtain rfl : k = 0 := by omega
    exact Reads.pure i
  | succ fuel ih =>
    cases k with
    | zero => exact (BitStreamReader.readBit_reads false).bind_pure rfl
    | succ k =>
      have h := (BitStreamReader.readBit_reads true).bind
        (f := fun bit => if !bit then pure i else readVarbitIntBucketFrom fuel (i + 1))
        (ih k (i + 1) (by omega))
      rw [show i + (k + 1) = i + 1 + k by omega]
      simpa [List.replicate_succ, readVarbitIntBucketFrom] using h

theorem readVarbitIntBucket_reads {b : Nat} (hb : b ≤ 8) :
    Reads BitStreamReader.Holds readVarbitIntBucket (bucketBits b) b := by
  have h := readVarbitIntBucketFrom_reads 8 b 0 hb
  rwa [zero_add] at h

/-- The payload of a bucket, as a number: a negative value is offset by the
width of the payload. -/
theorem asU64_mod {n : Nat} (hn : n ≤ 64) (value : Int) :
    (((asU64 value).toNat % 2 ^ n : Nat) : Int) = value % (2 ^ n : Nat) := by
  have hdvd : ((2 ^ n : Nat) : Int) ∣ ((2 ^ 64 : Nat) : Int) :=
    Int.natCast_dvd_natCast.mpr (pow_dvd_pow 2 hn)
  have hnn : 0 ≤ value % ((2 ^ 64 : Nat) : Int) := Int.emod_nonneg _ (by decide)
  rw [asU64, toNat_ofInt, Int.natCast_emod, Int.toNat_of_nonneg hnn, Int.emod_emod_of_dvd _ hdvd]

/-- Flipping the top bit of an `n`-bit number that has it takes it away. -/
theorem xor_top_bit {k q : Nat} (hq : q < 2 ^ k) : (2 ^ k + q) ^^^ 2 ^ k = q := by
  have hor := two_pow_add_eq_or_of_lt hq 1
  rw [mul_one] at hor
  rw [hor]
  apply eq_of_testBit_eq
  intro i
  by_cases hi : k = i
  · subst hi
    simp [testBit_lt_two_pow hq]
  · simp [hi]

/-- The low `n` bits of a number smaller than `2 ^ (n - 1)` in magnitude give
the number back: the sign test tells the two halves apart. -/
theorem signExtend_payload {k : Nat} (hk : k < 63) {value : Int}
    (hlo : -(2 ^ k : Nat) < value) (hhi : value < (2 ^ k : Nat)) {v : BitVec 64}
    (hv : v.toNat = (asU64 value).toNat % 2 ^ (k + 1)) :
    (if 1 <<< k < v.toNat then signExtend v (k + 1) else v.toInt) = value := by
  have hbig : 2 ^ k < 2 ^ 63 := Nat.pow_lt_pow_right (by omega) hk
  have hmod := asU64_mod (n := k + 1) (by omega) value
  rw [← hv, Nat.pow_succ] at hmod
  have hone : 1 <<< k = 2 ^ k := by rw [Nat.shiftLeft_eq, Nat.one_mul]
  rcases Int.lt_or_le value 0 with hneg | hpos
  · -- negative: the payload is `2 ^ (k + 1) + value`, which has bit `k`
    have hval : (v.toNat : Int) = value + (2 ^ k * 2 : Nat) := by
      rw [hmod, ← Int.add_emod_right, Int.emod_eq_of_lt (by omega) (by omega)]
    obtain ⟨q, hq⟩ : ∃ q, v.toNat = 2 ^ k + q := ⟨v.toNat - 2 ^ k, by omega⟩
    have hm : ((1 : BitVec 64) <<< k).toNat = 2 ^ k := by
      rw [toNat_shiftLeft, show (1 : BitVec 64).toNat = 1 from rfl, hone, Nat.mod_eq_of_lt (by omega)]
    rw [hone, if_pos (by omega), signExtend, Nat.add_sub_cancel, toInt_sub,
      toInt_eq_toNat_of_lt (x := v ^^^ _), toInt_eq_toNat_of_lt (x := _ <<< _),
      toNat_xor, hm, hq, xor_top_bit (by omega)]
    · rw [Int.bmod_eq_of_le (by omega) (by omega)]
      omega
    · omega
    · rw [toNat_xor, hm, hq, xor_top_bit (by omega)]
      omega
  · have hval : (v.toNat : Int) = value := by
      rw [hmod, Int.emod_eq_of_lt hpos (by omega)]
    rw [hone, if_neg (by omega), toInt_eq_toNat_of_lt (by omega), hval]

theorem readVarbitInt_reads (value : Int) (hlo : -2 ^ 63 ≤ value) (hhi : value < 2 ^ 63) :
    Reads BitStreamReader.Holds readVarbitInt (varbitBits value) value := by
  -- all buckets that carry a payload
  have hpay : ∀ b, 0 < b → b ≤ 8 →
      (∀ v : BitVec 64, v.toNat = (asU64 value).toNat % 2 ^ varbitBucketToNumBits b →
        (if varbitBucketToNumBits b ≠ 64 ∧ 1 <<< (varbitBucketToNumBits b - 1) < v.toNat
          then signExtend v (varbitBucketToNumBits b) else v.toInt) = value) →
      Reads BitStreamReader.Holds readVarbitInt
        (bucketBits b ++ bitsBE (varbitBucketToNumBits b) (asU64 value).toNat) value := by
    intro b hb hb' hval
    have hn : varbitBucketToNumBits b ≤ 64 := by
      unfold varbitBucketToNumBits
      split <;> omega
    have hlt : (asU64 value).toNat % 2 ^ varbitBucketToNumBits b < 2 ^ 64 :=
      (mod_le _ _).trans_lt (asU64 value).isLt
    apply (readVarbitIntBucket_reads hb').bind
    rw [if_neg (by omega)]
    apply (BitStreamReader.readBits_bitsBE hn _).bind_pure
    rw [hval _ (by rw [toNat_ofNat, Nat.mod_eq_of_lt hlt])]
  have hnarrow : ∀ k, k < 63 → -(2 ^ k : Nat) < value → value < (2 ^ k : Nat) →
      ∀ v : BitVec 64, v.toNat = (asU64 value).toNat % 2 ^ (k + 1) →
        (if k + 1 ≠ 64 ∧ 1 <<< (k + 1 - 1) < v.toNat then signExtend v (k + 1) else v.toInt)
          = value := by
    intro k hk hlo' hhi' v hv
    rw [← signExtend_payload hk hlo' hhi' hv]
    simp [show k ≠ 63 by omega]
  unfold varbitBits varbitBucket
  split_ifs with h₀ h₁ h₂ h₃ h₄ h₅ h₆ h₇
  · -- zero has no payload
    subst h₀
    exact (readVarbitIntBucket_reads (zero_le 8)).bind (Reads.pure _)
  · exact hpay 1 (by omega) (by omega) (hnarrow 4 (by omega) (by omega) (by omega))
  · exact hpay 2 (by omega) (by omega) (hnarrow 8 (by omega) (by omega) (by omega))
  · exact hpay 3 (by omega) (by omega) (hnarrow 12 (by omega) (by omega) (by omega))
  · exact hpay 4 (by omega) (by omega) (hnarrow 16 (by omega) (by omega) (by omega))
  · exact hpay 5 (by omega) (by omega) (hnarrow 23 (by omega) (by omega) (by omega))
  · exact hpay 6 (by omega) (by omega) (hnarrow 31 (by omega) (by omega) (by omega))
  · exact hpay 7 (by omega) (by omega) (hnarrow 55 (by omega) (by omega) (by omega))
  · -- the last bucket holds the whole word
    apply hpay 8 (by omega) (by omega)
    intro v hv
    have hvv : v = asU64 value := by
      apply eq_of_toNat_eq
      rw [hv]
      exact Nat.mod_eq_of_lt (asU64 value).isLt
    rw [if_neg (by simp [varbitBucketToNumBits]), hvv, asU64, toInt_ofInt,
      Int.bmod_eq_of_le (by omega) (by omega)]

end ValkeyTimeSeries
