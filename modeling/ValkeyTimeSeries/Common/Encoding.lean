/-
Common/Encoding.lean

Byte-level encodings of `common/encoding.rs`: LEB128 varints, zigzag, and little-endian doubles.

Design.  A writer pushes bytes on a buffer, so it is given by the bytes it pushes; a reader takes a slice and
returns the rest of it. `write_uvarint` exists twice in the source, on a byte buffer and on a bit stream; both
loops push the bytes `uvarintBytes`.
-/
import ValkeyTimeSeries.Library.Codec

namespace ValkeyTimeSeries

open List Bits Codec Nat

inductive DecodeError where
  | overflow
  | insufficientData (available requested : Nat)
  | invalidUTF8
deriving DecidableEq, Repr

/-- The `io::Error`s of the bit-level readers. -/
inductive IoError where
  | unexpectedEof
  | invalidData (message : String)
deriving DecidableEq, Repr

/-- A reader of a byte slice: it moves the slice forward. -/
abbrev SliceReader (α : Type) := StateT (List (BitVec 8)) (Except DecodeError) α

/-! ### Varints -/

/-- The bytes the loop of `write_uvarint` pushes, in at most `fuel + 1` rounds. -/
def uvarintLoop : Nat → BitVec 64 → List (BitVec 8)
  | 0, value => [value.setWidth 8]
  | fuel + 1, value =>
    if 0x80 ≤ value.toNat then
      (value.setWidth 8 ||| 0x80) :: uvarintLoop fuel (value >>> 7)
    else [value.setWidth 8]

/-- The bytes of an unsigned varint; a 64-bit value needs ten of them at most. -/
def uvarintBytes (value : BitVec 64) : List (BitVec 8) := uvarintLoop 9 value

/-- The loop of `try_read_uvarint`, with the value and the shift so far. -/
def readUvarintLoop : List (BitVec 8) → BitVec 64 → Nat →
    Except DecodeError (BitVec 64 × List (BitVec 8))
  | [], _, _ => .error .overflow
  | byte :: rest, value, shift =>
    let value := value ||| (byte &&& 0x7F).setWidth 64 <<< shift
    if byte &&& 0x80 = 0 then .ok (value, rest)
    -- protect against malicious inputs
    else if shift + 7 > 63 then .error .overflow
    else readUvarintLoop rest value (shift + 7)

def tryReadUvarint : SliceReader (BitVec 64) := fun buf => readUvarintLoop buf 0 0

theorem uvarintLoop_succ (fuel : Nat) (value : BitVec 64) : uvarintLoop (fuel + 1) value = if 0x80 ≤ value.toNat then
        (value.setWidth 8 ||| 0x80) :: uvarintLoop fuel (value >>> 7) else [value.setWidth 8] := rfl

theorem length_uvarintLoop_le (fuel : Nat) (value : BitVec 64) : (uvarintLoop fuel value).length ≤ fuel + 1 := by
  induction fuel generalizing value with
  | zero => simp [uvarintLoop]
  | succ fuel ih =>
    rw [uvarintLoop_succ]
    split
    · have := ih (value >>> 7)
      simp only [length_cons]
      omega
    · simp

variable (value : BitVec 64)

theorem length_uvarintBytes_pos : 0 < (uvarintBytes value).length := by
  rw [uvarintBytes, uvarintLoop_succ]
  split <;> simp

theorem length_uvarintBytes_le : (uvarintBytes value).length ≤ 10 :=
  length_uvarintLoop_le 9 value

/-! The two kinds of byte the loop pushes, as the readers test them. -/

theorem byte_test (b : BitVec 8) : (b &&& 0x80 = 0 ↔ b.toNat < 128) ∧ (b &&& 0x7F).toNat = b.toNat % 128 := by
  revert b
  decide

theorem continuation_byte (b : BitVec 8) :
    128 ≤ (b ||| 0x80).toNat ∧ (b ||| 0x80).toNat % 128 = b.toNat % 128 := by
  revert b
  decide

theorem toNat_or_shiftLeft (x y : BitVec 64) (s : Nat) (hx : x.toNat < 2 ^ s)
    (hy : y.toNat * 2 ^ s < 2 ^ 64) : (x ||| y <<< s).toNat = x.toNat + y.toNat * 2 ^ s := by
  rw [BitVec.toNat_or, BitVec.toNat_shiftLeft, Nat.shiftLeft_eq, Nat.mod_eq_of_lt hy,
    Nat.or_comm, ← Nat.shiftLeft_eq, ← Nat.shiftLeft_add_eq_or_of_lt hx, Nat.shiftLeft_eq,
    Nat.add_comm]

theorem toNat_or_shiftLeft_mod (x y : BitVec 64) {s : Nat} (hs : s ≤ 64) (hx : x.toNat < 2 ^ s) :
    (x ||| y <<< s).toNat = (x.toNat + y.toNat * 2 ^ s) % 2 ^ 64 := by
  have hpow : 2 ^ 64 = 2 ^ (64 - s) * 2 ^ s := by rw [← Nat.pow_add, Nat.sub_add_cancel hs]
  have hmod : y.toNat * 2 ^ s % 2 ^ 64 = y.toNat % 2 ^ (64 - s) * 2 ^ s := by rw [hpow, Nat.mul_mod_mul_right]
  have hlt : x.toNat + y.toNat % 2 ^ (64 - s) * 2 ^ s < 2 ^ 64 := by
    have hle := Nat.mul_le_mul_right (2 ^ s) (Nat.succ_le_of_lt (Nat.mod_lt y.toNat (Nat.two_pow_pos (64 - s))))
    rw [← hpow, Nat.succ_mul] at hle
    omega
  rw [BitVec.toNat_or, BitVec.toNat_shiftLeft, Nat.shiftLeft_eq, hmod, Nat.or_comm, ← Nat.shiftLeft_eq,
    ← Nat.shiftLeft_add_eq_or_of_lt hx, Nat.shiftLeft_eq, Nat.add_comm, ← Nat.mod_eq_of_lt hlt, ← hmod, Nat.add_mod_mod]

/-- The number that the low seven bits of the bytes spell. -/
def payload : List (BitVec 8) → Nat
  | [] => 0
  | b :: bs => b.toNat % 128 + 128 * payload bs

/-- The same number as both readers gather it, seven bits a round. -/
def accumulate : List (BitVec 8) → BitVec 64 → Nat → BitVec 64
  | [], x, _ => x
  | b :: bs, x, s => accumulate bs (x ||| (b &&& 0x7F).setWidth 64 <<< s) (s + 7)

/-- The bits of a tenth byte may be too high to keep, those of the bytes before it are not. -/
theorem toNat_accumulate {front : List (BitVec 8)} {last : BitVec 8} {x : BitVec 64} {s : Nat}
    (hs : s + 7 * front.length ≤ 63) (hx : x.toNat < 2 ^ s) :
    (accumulate (front ++ [last]) x s).toNat = (x.toNat + payload (front ++ [last]) * 2 ^ s) % 2 ^ 64 := by
  have hbits (b : BitVec 8) : ((b &&& 0x7F).setWidth 64).toNat = b.toNat % 128 := by
    rw [BitVec.toNat_setWidth, (byte_test b).2]
    omega
  induction front generalizing x s with
  | nil =>
    rw [nil_append, accumulate, accumulate, toNat_or_shiftLeft_mod _ _ (by omega) hx, hbits]
    rfl
  | cons b front ih =>
    rw [length_cons] at hs
    have hle : b.toNat % 128 * 2 ^ s ≤ 127 * 2 ^ s := Nat.mul_le_mul_right _ (by omega)
    have hpow : 2 ^ (s + 7) = 128 * 2 ^ s := by rw [Nat.pow_add, Nat.mul_comm]
    have hpow' : 2 ^ (s + 7) ≤ 2 ^ 63 := Nat.pow_le_pow_right (by omega) (by omega)
    have hx' := toNat_or_shiftLeft x ((b &&& 0x7F).setWidth 64) s hx (by rw [hbits]; omega)
    rw [hbits] at hx'
    rw [cons_append, accumulate, ih (by omega) (by omega), hx', payload, hpow]
    congr 1
    ring

/-- A value is written as the bytes that spell it: all go on but the last. -/
theorem uvarintLoop_spells (fuel : Nat) (value : BitVec 64) (hfuel : value.toNat < 2 ^ (7 * (fuel + 1))) :
    ∃ front last, uvarintLoop fuel value = front ++ [last] ∧ (∀ b ∈ front, 128 ≤ b.toNat) ∧ last.toNat < 128
    ∧ payload (front ++ [last]) = value.toNat := by
  have hfinal (v : BitVec 64) (hv : v.toNat < 128) : (v.setWidth 8).toNat < 128 ∧ payload [v.setWidth 8] = v.toNat := by
    rw [payload, payload, BitVec.toNat_setWidth]
    omega
  induction fuel generalizing value with
  | zero => exact ⟨[], _, rfl, by simp, hfinal value (by simpa using hfuel)⟩
  | succ fuel ih =>
    rw [uvarintLoop_succ]
    split
    · have hshift : (value >>> 7).toNat = value.toNat / 128 := by
        rw [BitVec.toNat_ushiftRight, Nat.shiftRight_eq_div_pow]
      have hpow : 2 ^ (7 * (fuel + 1 + 1)) = 2 ^ (7 * (fuel + 1)) * 128 := Nat.pow_add ..
      obtain ⟨front, last, heq, hfront, hlast, hpayload⟩ := ih (value >>> 7) (by omega)
      obtain ⟨hgo, hlow⟩ := continuation_byte (value.setWidth 8)
      refine ⟨_ :: front, last, by rw [heq]; rfl, forall_mem_cons.mpr ⟨hgo, hfront⟩, hlast, ?_⟩
      rw [cons_append, payload, hpayload, hshift, hlow, BitVec.toNat_setWidth]
      omega
    · exact ⟨[], _, rfl, by simp, hfinal value (by omega)⟩

theorem uvarintBytes_spells : ∃ front last, uvarintBytes value = front ++ [last] ∧ (∀ b ∈ front, 128 ≤ b.toNat)
    ∧ last.toNat < 128 ∧ front.length ≤ 9 ∧ accumulate (front ++ [last]) 0 0 = value := by
  have hlt : value.toNat < 2 ^ 64 := value.isLt
  obtain ⟨front, last, heq, hfront, hlast, hpayload⟩ := uvarintLoop_spells 9 value (by omega)
  have hlen := length_uvarintBytes_le value
  rw [uvarintBytes, heq, length_append, length_singleton] at hlen
  refine ⟨front, last, heq, hfront, hlast, by omega, BitVec.eq_of_toNat_eq ?_⟩
  rw [toNat_accumulate (by omega) (by decide), hpayload, Nat.pow_zero, Nat.mul_one]
  exact (congrArg (· % 2 ^ 64) (Nat.zero_add _)).trans (Nat.mod_eq_of_lt hlt)

theorem readUvarintLoop_eq {front : List (BitVec 8)} {last : BitVec 8} (rest : List (BitVec 8)) (x : BitVec 64)
    {s : Nat}
    (hfront : ∀ b ∈ front, 128 ≤ b.toNat) (hlast : last.toNat < 128) (hs : s + 7 * front.length ≤ 63) :
    readUvarintLoop (front ++ last :: rest) x s = .ok (accumulate (front ++ [last]) x s, rest) := by
  induction front generalizing x s with
  | nil =>
    rw [nil_append, readUvarintLoop, if_pos ((byte_test last).1.mpr hlast)]
    rfl
  | cons b front ih =>
    obtain ⟨hb, hfront⟩ := forall_mem_cons.mp hfront
    rw [length_cons] at hs
    rw [cons_append, readUvarintLoop, if_neg (mt (byte_test b).1.mp (by omega)), if_neg (by omega),
      ih _ hfront (by omega)]
    rfl

/-- A number ends at the first byte that does not go on; no more than ten are taken. -/
theorem readUvarintLoop_ok {buf rest : List (BitVec 8)} {x value : BitVec 64} {s : Nat} (hs : s ≤ 63)
    (h : readUvarintLoop buf x s = .ok (value, rest)) :
    ∃ front last, buf = front ++ last :: rest ∧ (∀ b ∈ front, 128 ≤ b.toNat) ∧ last.toNat < 128
    ∧ s + 7 * front.length ≤ 63 := by
  induction buf generalizing x s with
  | nil => cases h
  | cons b buf ih =>
    rw [readUvarintLoop] at h
    split at h
    · rename_i hend
      cases h
      exact ⟨[], b, rfl, by simp, (byte_test b).1.mp hend, hs⟩
    · rename_i hgo
      split at h
      · cases h
      · obtain ⟨front, last, rfl, hfront, hlast, hlen⟩ := ih (by omega) h
        have hb : 128 ≤ b.toNat := not_lt.mp (mt (byte_test b).1.mpr hgo)
        exact ⟨b :: front, last, rfl, forall_mem_cons.mpr ⟨hb, hfront⟩, hlast, by rw [length_cons]; omega⟩

theorem tryReadUvarint_reads : Reads Eq tryReadUvarint (uvarintBytes value) value := by
  rintro _ rest rfl
  obtain ⟨front, last, heq, hfront, hlast, hlen, hvalue⟩ := uvarintBytes_spells value
  refine ⟨rest, ?_, rfl⟩
  rw [heq, append_assoc, tryReadUvarint]
  exact (readUvarintLoop_eq rest 0 hfront hlast (by omega)).trans (by rw [hvalue])

theorem tryReadUvarint_consumes {buf rest : List (BitVec 8)} {value : BitVec 64}
    (h : tryReadUvarint buf = .ok (value, rest)) : rest.length + 1 ≤ buf.length := by
  obtain ⟨front, last, rfl, -⟩ := readUvarintLoop_ok (by decide) h
  rw [length_append, length_cons]
  omega

/-! ### Byte slices -/

def byteSliceBytes (slice : List (BitVec 8)) : List (BitVec 8) :=
  uvarintBytes (BitVec.ofNat 64 slice.length) ++ slice

def tryReadByteSlice : SliceReader (List (BitVec 8)) := fun buf =>
  match tryReadUvarint buf with
  | .error e => .error e
  | .ok (len, buf) =>
    if len.toNat > buf.length then .error (.insufficientData buf.length len.toNat)
    else .ok (buf.take len.toNat, buf.drop len.toNat)

theorem tryReadByteSlice_reads {slice : List (BitVec 8)} (h : slice.length < 2 ^ 64) :
    Reads Eq tryReadByteSlice (byteSliceBytes slice) slice := by
  intro s rest hs
  obtain ⟨s', hread, rfl⟩ := tryReadUvarint_reads (BitVec.ofNat 64 slice.length) s (slice ++ rest)
    (by rw [hs, byteSliceBytes, append_assoc])
  have hlen : (BitVec.ofNat 64 slice.length).toNat = slice.length := by
    rw [BitVec.toNat_ofNat, Nat.mod_eq_of_lt h]
  refine ⟨rest, ?_, rfl⟩
  rw [tryReadByteSlice, hread]
  dsimp only
  rw [hlen, if_neg (by rw [length_append]; omega), take_left, drop_left]

theorem tryReadByteSlice_consumes {buf rest slice : List (BitVec 8)}
    (h : tryReadByteSlice buf = .ok (slice, rest)) : rest.length + (1 + slice.length) ≤ buf.length := by
  rw [tryReadByteSlice] at h
  split at h
  · cases h
  · next len buf' hread =>
      have hlen := tryReadUvarint_consumes hread
      split at h
      · cases h
      · cases h
        rw [length_take, length_drop]
        omega

/-! ### Zigzag -/

def zigzagEncode (x : BitVec 64) : BitVec 64 := x <<< 1 ^^^ x.sshiftRight 63

def zigzagDecode (x : BitVec 64) : BitVec 64 := x >>> 1 ^^^ -(x &&& 1)

/-- Zigzag puts the sign in bit 0 and, for a negative number, complements the
rest, which moves up by one. -/
theorem getLsbD_zigzagEncode (x : BitVec 64) (i : Nat) (hi : i < 64) :
    (zigzagEncode x).getLsbD i = ((decide (0 < i) && x.getLsbD (i - 1)) ^^ x.msb) := by
  rw [zigzagEncode, BitVec.getLsbD_xor, BitVec.getLsbD_shiftLeft, BitVec.getLsbD_sshiftRight]
  by_cases h : i = 0
  · subst h
    simp [BitVec.msb_eq_getLsbD_last]
  · have h₁ : ¬ 63 + i < 64 := by omega
    have h₂ : ¬ i < 1 := by omega
    simp [hi, h₁, h₂, pos_of_ne_zero h]

theorem and_one_eq (y : BitVec 64) : y &&& 1 = if y.getLsbD 0 then 1 else 0 := by
  ext i hi
  by_cases h₀ : i = 0
  · cases h : y.getLsbD 0 <;> simp_all [BitVec.getLsbD_eq_getElem]
  · cases h : y.getLsbD 0 <;> simp [h₀]

theorem neg_and_one_eq (y : BitVec 64) :
    -(y &&& 1) = if y.getLsbD 0 then BitVec.allOnes 64 else 0 := by
  rw [and_one_eq]
  split <;> rfl

theorem zigzagDecode_zigzagEncode (x : BitVec 64) : zigzagDecode (zigzagEncode x) = x := by
  apply BitVec.eq_of_getLsbD_eq
  intro i hi
  have hsign : (zigzagEncode x).getLsbD 0 = x.msb := by
    rw [getLsbD_zigzagEncode x 0 (by omega)]
    simp
  have hmask : (-(zigzagEncode x &&& 1)).getLsbD i = x.msb := by
    rw [neg_and_one_eq, hsign]
    cases x.msb
    · simp
    · rw [if_pos rfl, BitVec.getLsbD_allOnes]
      simp [hi]
  rw [zigzagDecode, BitVec.getLsbD_xor, hmask, BitVec.getLsbD_ushiftRight]
  by_cases h : i < 63
  · rw [getLsbD_zigzagEncode x (1 + i) (by omega)]
    simp
  · obtain rfl : i = 63 := by omega
    rw [BitVec.getLsbD_of_ge _ _ (by omega), Bool.false_xor, BitVec.msb_eq_getLsbD_last]

def signedVarintBytes (x : BitVec 64) : List (BitVec 8) := uvarintBytes (zigzagEncode x)

def tryReadSignedVarint : SliceReader (BitVec 64) := zigzagDecode <$> tryReadUvarint

theorem tryReadSignedVarint_reads (x : BitVec 64) : Reads Eq tryReadSignedVarint (signedVarintBytes x) x := by
  have h := (tryReadUvarint_reads (zigzagEncode x)).map zigzagDecode
  rwa [zigzagDecode_zigzagEncode] at h

/-! ### What is lost -/

theorem payload_concat (front : List (BitVec 8)) (last : BitVec 8) : payload front < 128 ^ front.length
    ∧ payload (front ++ [last]) = payload front + 128 ^ front.length * (last.toNat % 128) := by
  induction front with
  | nil => simp [payload]
  | cons b front ih =>
    rw [cons_append, payload, payload, ih.2, length_cons, Nat.pow_succ]
    exact ⟨by omega, by ring⟩

theorem payload_fits_iff {front : List (BitVec 8)} {last : BitVec 8} (hlast : last.toNat < 128)
    (hlen : front.length ≤ 9) : payload (front ++ [last]) < 2 ^ 64 ↔ (front.length = 9 → last.toNat < 2) := by
  obtain ⟨hlt, heq⟩ := payload_concat front last
  rw [heq, Nat.mod_eq_of_lt hlast]
  by_cases hnine : front.length = 9
  · rw [hnine] at hlt ⊢
    omega
  · have hpow : 128 ^ (front.length + 1) ≤ 128 ^ 9 := Nat.pow_le_pow_right (by omega) (by omega)
    have hmul : 128 ^ front.length * last.toNat ≤ 128 ^ front.length * 127 := Nat.mul_le_mul_left _ (by omega)
    rw [Nat.pow_succ] at hpow
    exact iff_of_true (by omega) fun h => absurd h hnine

/-- Decoding takes ten bytes at most and gives all that they spell. -/
def Lossless (buf : List (BitVec 8)) : Prop :=
  ∀ value rest, tryReadUvarint buf = .ok (value, rest) →
    ∃ taken, buf = taken ++ rest ∧ taken.length ≤ 10 ∧ value.toNat = payload taken

/-- A tenth byte that ends the number has nothing above its lowest bit. -/
def TenthFits (buf : List (BitVec 8)) : Prop :=
  ∀ b ∈ buf[9]?, (∀ c ∈ buf.take 9, 128 ≤ c.toNat) → b.toNat < 128 → b.toNat < 2

/-- **Varints.**  What was written is read back, whatever follows; and a byte string is decoded without
loss just if a tenth byte has room for its bits. -/
theorem varints_lossless_iff (u i : BitVec 64) (suffix buf : List (BitVec 8)) :
    tryReadUvarint (uvarintBytes u ++ suffix) = .ok (u, suffix)
      ∧ tryReadSignedVarint (signedVarintBytes i ++ suffix) = .ok (i, suffix)
      ∧ (Lossless buf ↔ TenthFits buf) := by
  refine ⟨?_, ?_, fun hall b hb hfront hlast => ?_, ?_⟩
  · obtain ⟨_, hread, rfl⟩ := tryReadUvarint_reads u _ suffix rfl
    exact hread
  · obtain ⟨_, hread, rfl⟩ := tryReadSignedVarint_reads i _ suffix rfl
    exact hread
  · obtain ⟨hlt, hget⟩ := List.getElem?_eq_some_iff.mp hb
    have hlen : (buf.take 9).length = 9 := by
      rw [length_take]
      omega
    have hsplit : buf = buf.take 9 ++ b :: buf.drop 10 := by
      rw [← hget, getElem_cons_drop, take_append_drop]
    have hread := readUvarintLoop_eq (buf.drop 10) 0 (s := 0) hfront hlast (by rw [hlen])
    rw [← hsplit] at hread
    obtain ⟨taken, htaken, -, hpayload⟩ := hall _ _ hread
    obtain rfl : taken = buf.take 9 ++ [b] := by
      refine append_cancel_right (htaken.symm.trans ?_)
      rw [append_assoc]
      exact hsplit
    refine (payload_fits_iff hlast hlen.le).mp ?_ hlen
    rw [← hpayload]
    exact BitVec.isLt _
  · intro hfits value rest hread
    obtain ⟨front, last, rfl, hfront, hlast, hlen⟩ := readUvarintLoop_ok (by decide) hread
    rw [tryReadUvarint, readUvarintLoop_eq rest 0 hfront hlast hlen] at hread
    cases hread
    refine ⟨front ++ [last], by simp, by rw [length_append, length_singleton]; omega, ?_⟩
    have hnine : front.length ≤ 9 := by omega
    have hlt := (payload_fits_iff hlast hnine).mpr fun hnine =>
      hfits last (by simp [← hnine]) (by simpa [← hnine] using hfront) hlast
    rw [toNat_accumulate hlen (by decide), Nat.pow_zero, Nat.mul_one]
    exact (congrArg (· % 2 ^ 64) (Nat.zero_add _)).trans (Nat.mod_eq_of_lt hlt)

/-- Nine bytes that go on and a last one of 2 spell a bit too high for the result, and it is dropped. -/
theorem tenth_byte_dropped :
    tryReadUvarint (replicate 9 0x80 ++ [2]) = .ok (0, []) ∧ payload (replicate 9 0x80 ++ [2]) = 2 ^ 64 := by
  decide

/-! ### Fixed-width fields -/

def tryReadU8 : SliceReader (BitVec 8) := fun buf =>
  match buf with
  | [] => .error (.insufficientData 0 1)
  | b :: rest => .ok (b, rest)

def leBytes (value : BitVec 64) : List (BitVec 8) := (beBytes 8 value).reverse

def tryReadU64Le : SliceReader (BitVec 64) := fun buf =>
  if buf.length < 8 then .error (.insufficientData buf.length 8)
  else .ok (fromBeBytes (buf.take 8).reverse, buf.drop 8)

theorem fromBeBytes_beBytes : fromBeBytes (beBytes 8 value) = value := by
  apply BitVec.eq_of_toNat_eq
  rw [toNat_fromBeBytes _ (by simp), bytesBits_beBytes, ofBitsBE_bitsBE_of_lt value.isLt]

theorem tryReadU64Le_reads : Reads Eq tryReadU64Le (leBytes value) value := by
  intro s rest h
  have hlen : (leBytes value).length = 8 := by simp [leBytes]
  refine ⟨rest, ?_, rfl⟩
  rw [h, tryReadU64Le, if_neg (by simp [hlen]), take_left' hlen, drop_left' hlen,
    leBytes, reverse_reverse, fromBeBytes_beBytes]

end ValkeyTimeSeries
