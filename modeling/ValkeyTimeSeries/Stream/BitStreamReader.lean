/-
Stream/BitStreamReader.lean

The bit reader of `series/chunks/stream/bitstream_reader.rs`.

Design.  The reader keeps the bits not yet consumed in two places: the low `valid` bits of a 64-bit window,
and the bytes from `stream_offset` on. `Holds r xs` says that the two together are `xs`.  `refill` moves whole
bytes into the window and changes nothing in `xs`.
-/
import ValkeyTimeSeries.Stream.BitStream

namespace ValkeyTimeSeries

open List Bits Codec Nat

structure BitStreamReader where
  stream : List (BitVec 8)
  streamOffset : Nat
  buffer : BitVec 64
  valid : Nat
  last : BitVec 8
deriving DecidableEq, Repr

abbrev BitReader (α : Type) := StateT BitStreamReader (Except IoError) α

namespace BitStreamReader

/-! ### The reader -/

def new (b : List (BitVec 8)) : BitStreamReader :=
  { stream := b, streamOffset := 0, buffer := 0, valid := 0, last := b.getLastD 0 }

def load (r : BitStreamReader) (w : BitVec 64) (take : Nat) : BitStreamReader :=
  let bits := take * 8
  { r with
    buffer := if bits = 64 then w else r.buffer <<< bits ||| w >>> (64 - bits)
    valid := r.valid + bits
    streamOffset := r.streamOffset + take }

def refillTail (r : BitStreamReader) (want avail : Nat) : BitStreamReader :=
  if avail = 0 then r
  else
    let take := min want avail
    let bytes := (r.stream.drop r.streamOffset).take 8
    let word := bytes ++ List.replicate (8 - bytes.length) 0
    -- the final byte comes from the copy taken at construction
    let word := if take = avail then word.set (take - 1) r.last else word
    r.load (fromBeBytes word) take

/-- Load as many whole bytes as fit into the window. -/
def refill (r : BitStreamReader) : BitStreamReader :=
  let want := (64 - r.valid) / 8
  if want = 0 then r
  else
    let avail := r.stream.length - r.streamOffset
    if avail > 8 then r.load (fromBeBytes ((r.stream.drop r.streamOffset).take 8)) want
    else r.refillTail want avail

def takeBits (r : BitStreamReader) (nbits : Nat) : BitVec 64 × BitStreamReader :=
  let v := r.buffer >>> (r.valid - nbits)
  (if nbits ≥ 64 then v else v &&& ((1 : BitVec 64) <<< nbits - 1), { r with valid := r.valid - nbits })

def readBit : BitReader Bool := fun r =>
  let r := if r.valid = 0 then r.refill else r
  if r.valid = 0 then .error .unexpectedEof
  else .ok ((r.buffer >>> (r.valid - 1)) &&& 1 ≠ 0, { r with valid := r.valid - 1 })

/-- A read wider than the window holds after a refill.  Both halves fit the
window, so the two inner reads are `takeBits`. -/
def readBitsStraddling (nbits : Nat) : BitReader (BitVec 64) := fun r =>
  let first := r.valid
  if first = 0 ∨ r.streamOffset ≥ r.stream.length then .error .unexpectedEof
  else
    let hi := r.takeBits first
    let rest := nbits - first
    let r := hi.2.refill
    if rest > r.valid then .error .unexpectedEof
    else
      let lo := r.takeBits rest
      .ok (hi.1 <<< rest ||| lo.1, lo.2)

def readBits (nbits : Nat) : BitReader (BitVec 64) := fun r =>
  if nbits > r.valid then
    if nbits > 64 then .error (.invalidData "bit count exceeds 64")
    else
      let r := r.refill
      if nbits > r.valid then readBitsStraddling nbits r else .ok (r.takeBits nbits)
  else .ok (r.takeBits nbits)

/-- The next `nbits` bits without consuming them; missing bits read as zero. -/
def peekUpto (nbits : Nat) : BitReader (BitVec 64) := fun r =>
  let r := if nbits > r.valid then r.refill else r
  if nbits > r.valid then
    .ok ((r.buffer &&& ((1 : BitVec 64) <<< r.valid - 1)) <<< (nbits - r.valid), r)
  else .ok (r.buffer >>> (r.valid - nbits) &&& ((1 : BitVec 64) <<< nbits - 1), r)

def skip (nbits : Nat) : BitReader Unit := fun r =>
  if nbits > r.valid then .error .unexpectedEof
  else .ok ((), { r with valid := r.valid - nbits })

def readByte : BitReader (BitVec 8) := (·.setWidth 8) <$> readBits 8

def readU64 : BitReader (BitVec 64) := readBits 64

/-- The rounds of `read_uvarint`, `fuel` of them left. -/
def readUvarintRounds : Nat → BitVec 64 → Nat → BitReader (BitVec 64)
  | 0, _, _ => fun _ => .error (.invalidData "varint overflow")
  | fuel + 1, x, s => do
      let byte ← readByte
      if byte.toNat < 0x80 then pure (x ||| byte.setWidth 64 <<< s)
      else readUvarintRounds fuel (x ||| (byte.setWidth 64 &&& 0x7f) <<< s) (s + 7)

/-- `MAX_VARINT_LEN64` rounds at most. -/
def readUvarint : BitReader (BitVec 64) := readUvarintRounds 10 0 0

def readVarint : BitReader (BitVec 64) := do
  let ux ← readUvarint
  let x := ux >>> 1
  pure (if ux &&& 1 ≠ 0 then ~~~x else x)

/-! ### What a reader stands for -/

/-- The bits not yet consumed are `xs`. -/
def Holds (r : BitStreamReader) (xs : List Bool) : Prop :=
  r.valid ≤ 64 ∧ r.last = r.stream.getLastD 0
    ∧ bitsBE r.valid r.buffer.toNat ++ bytesBits (r.stream.drop r.streamOffset) = xs

theorem new_holds (b : List (BitVec 8)) : Holds (new b) (bytesBits b) :=
  ⟨zero_le _, rfl, rfl⟩

/-- Shifting the first `k` bytes of a word into the window puts their bits
behind the ones that are there. -/
theorem bits_load (r : BitStreamReader) (ws : List (BitVec 8)) (k : Nat) (hlen : ws.length = 8)
    (hk : k ≤ 8) (hv : r.valid + k * 8 ≤ 64) :
    bitsBE (r.load (fromBeBytes ws) k).valid (r.load (fromBeBytes ws) k).buffer.toNat
    = bitsBE r.valid r.buffer.toNat ++ bytesBits (ws.take k) := by
  have hword : bitsBE 64 (fromBeBytes ws).toNat = bytesBits ws := by
    have := bitsBE_ofBitsBE (bytesBits ws)
    rwa [length_bytesBits, hlen, ← toNat_fromBeBytes ws (by omega)] at this
  have htake : bitsBE (k * 8) ((fromBeBytes ws).toNat >>> (64 - k * 8)) = bytesBits (ws.take k) := by
    have hsplit := bitsBE_add (k * 8) (64 - k * 8) (fromBeBytes ws).toNat
    rw [show k * 8 + (64 - k * 8) = 64 by omega, hword] at hsplit
    conv_lhs at hsplit => rw [← take_append_drop k ws, bytesBits_append]
    exact (append_inj hsplit (by simp [hlen]; omega)).1.symm
  simp only [load]
  split
  · -- a whole word: the window was empty
    rename_i h64
    rw [← htake, h64, show r.valid = 0 by omega]
    simp
  · have hw : ((fromBeBytes ws) >>> (64 - k * 8)).toNat < 2 ^ (k * 8) := by
      rw [BitVec.toNat_ushiftRight, Nat.shiftRight_eq_div_pow]
      apply Nat.div_lt_of_lt_mul
      rw [← Nat.pow_add, show 64 - k * 8 + k * 8 = 64 by omega]
      exact (fromBeBytes ws).isLt
    rw [bitsBE_concat _ _ _ _ hv hw, BitVec.toNat_ushiftRight, htake]

variable {r : BitStreamReader} {xs : List Bool}

/-- Loading the next `k` bytes of the stream keeps what the reader holds. -/
theorem Holds.load (h : Holds r xs) (ws : List (BitVec 8)) (k : Nat) (hlen : ws.length = 8) (hk : k ≤ 8)
    (hv : r.valid + k * 8 ≤ 64) (hws : ws.take k = (r.stream.drop r.streamOffset).take k) :
    Holds (r.load (fromBeBytes ws) k) xs := by
  refine ⟨hv, h.2.1, ?_⟩
  rw [bits_load r ws k hlen hk hv, hws, append_assoc, ← h.2.2]
  congr 1
  change _ ++ bytesBits (r.stream.drop (r.streamOffset + k)) = _
  rw [← drop_drop, ← bytesBits_append, take_append_drop]

theorem Holds.refillTail (h : Holds r xs) {want : Nat}
    (hwant : want = (64 - r.valid) / 8) (h8 : r.stream.length - r.streamOffset ≤ 8) :
    Holds (r.refillTail want (r.stream.length - r.streamOffset)) xs := by
  rw [BitStreamReader.refillTail]
  by_cases h0 : r.stream.length - r.streamOffset = 0
  · rw [if_pos h0]
    exact h
  rw [if_neg h0]
  generalize havail : r.stream.length - r.streamOffset = avail at *
  have hrest : (r.stream.drop r.streamOffset).length = avail := by simp [havail]
  have hbytes : (r.stream.drop r.streamOffset).take 8 = r.stream.drop r.streamOffset :=
    take_of_length_le (by omega)
  have hv := h.1
  simp only [hbytes]
  apply h.load
  · split <;> simp [hrest] <;> omega
  · omega
  · omega
  · split
    · -- the patched byte is the one that is there
      rename_i hall
      rw [hall, take_set, take_left' hrest, take_of_length_le (by omega)]
      apply ext_getElem?
      intro i
      rw [getElem?_set]
      split
      · rename_i hi
        subst hi
        rw [if_pos (by omega), h.2.1, getElem?_drop, show r.streamOffset + (avail - 1) = r.stream.length - 1 by omega,
          ← getLast?_eq_getElem?]
        cases hl : r.stream.getLast? with
        | none => simp [getLast?_eq_none_iff] at hl; simp [hl] at havail; omega
        | some b => simp [getLastD_eq_getLast?, hl]
      · rfl
    · rw [take_append_of_le_length (by omega)]

theorem Holds.refill (h : Holds r xs) : Holds r.refill xs := by
  rw [BitStreamReader.refill]
  dsimp only
  split
  · exact h
  · split
    · apply h.load
      · simp
        omega
      · omega
      · omega
      · rw [take_take, min_eq_left (by omega)]
    · exact h.refillTail rfl (by omega)

/-- After a refill the window has at least 57 bits, or the stream is used up. -/
theorem refill_full (r : BitStreamReader) (hv : r.valid ≤ 64) :
    57 ≤ r.refill.valid ∨ r.refill.stream.length ≤ r.refill.streamOffset := by
  rw [BitStreamReader.refill]
  dsimp only
  split
  · omega
  · split
    · simp only [load]
      omega
    · rw [refillTail]
      split
      · omega
      · simp only [load]
        rcases le_total ((64 - r.valid) / 8) (r.stream.length - r.streamOffset) with hle | hle
        · omega
        · omega

/-! ### What each read returns -/

theorem toNat_and_mask (v : BitVec 64) {n : Nat} (hn : n < 64) :
    (v &&& ((1 : BitVec 64) <<< n - 1)).toNat = v.toNat % 2 ^ n := by
  have hpow : 2 ^ n < 2 ^ 64 := Nat.pow_lt_pow_right (by omega) hn
  have hone : ((1 : BitVec 64) <<< n).toNat = 2 ^ n := by
    rw [BitVec.toNat_shiftLeft, Nat.shiftLeft_eq]
    simpa using mod_eq_of_lt hpow
  have hmask : ((1 : BitVec 64) <<< n - 1).toNat = 2 ^ n - 1 := by
    have hpos := Nat.two_pow_pos n
    rw [BitVec.toNat_sub, hone, show (1 : BitVec 64).toNat = 1 from rfl]
    omega
  rw [BitVec.toNat_and, hmask, and_two_pow_sub_one_eq_mod]

variable {rest : List Bool}

/-- The leading bits of a window that has them, and the window without them. -/
theorem Holds.window (h : Holds r (xs ++ rest)) (hle : xs.length ≤ r.valid) :
    xs = bitsBE xs.length (r.buffer.toNat >>> (r.valid - xs.length))
    ∧ Holds { r with valid := r.valid - xs.length } rest := by
  have hbits := h.2.2
  have hsplit := bitsBE_add xs.length (r.valid - xs.length) r.buffer.toNat
  rw [show xs.length + (r.valid - xs.length) = r.valid by omega] at hsplit
  rw [hsplit, append_assoc] at hbits
  obtain ⟨hxs, hrest⟩ := append_inj hbits (by simp)
  have hv := h.1
  exact ⟨hxs.symm, by simp only; omega, h.2.1, hrest⟩

theorem Holds.takeBits (h : Holds r (xs ++ rest)) (hle : xs.length ≤ r.valid) :
    (r.takeBits xs.length).1.toNat = ofBitsBE xs ∧ Holds (r.takeBits xs.length).2 rest := by
  obtain ⟨hxs, hrest⟩ := h.window hle
  refine ⟨?_, hrest⟩
  have hval : ofBitsBE xs = r.buffer.toNat >>> (r.valid - xs.length) % 2 ^ xs.length := by
    conv_lhs => rw [hxs]
    exact ofBitsBE_bitsBE _ _
  have hv := h.1
  simp only [BitStreamReader.takeBits]
  split
  · rw [hval, BitVec.toNat_ushiftRight, show xs.length = 64 by omega, mod_eq_of_lt]
    rw [← BitVec.toNat_ushiftRight]
    exact BitVec.isLt _
  · rw [toNat_and_mask _ (by omega), hval, BitVec.toNat_ushiftRight]

/-- When the stream is used up, all that is left is in the window. -/
theorem Holds.le_valid (h : Holds r (xs ++ rest)) (hend : r.stream.length ≤ r.streamOffset) : xs.length ≤ r.valid := by
  have hlen := congrArg List.length h.2.2
  simp at hlen
  omega

theorem readBit_reads (b : Bool) : Reads Holds readBit [b] b := by
  intro r rest h
  -- the window has a bit, before or after a refill
  have hroom : ∃ r', (if r.valid = 0 then r.refill else r) = r' ∧ Holds r' ([b] ++ rest)
      ∧ 0 < r'.valid := by
    by_cases hv : r.valid = 0
    · refine ⟨_, if_pos hv, h.refill, ?_⟩
      rcases refill_full r h.1 with h57 | hend
      · omega
      · exact h.refill.le_valid hend
    · exact ⟨_, if_neg hv, h, by omega⟩
  obtain ⟨r', hr', h', hpos⟩ := hroom
  obtain ⟨hxs, hrest⟩ := Holds.window (show Holds r' ([b] ++ rest) from h') hpos
  refine ⟨_, ?_, hrest⟩
  have hb : b = r'.buffer.toNat.testBit (r'.valid - 1) := by
    simpa [bitsBE] using hxs
  rw [readBit]
  simp only [hr']
  rw [if_neg (by omega)]
  congr 2
  rw [and_one_eq, BitVec.getLsbD_ushiftRight, hb, BitVec.getLsbD, add_zero]
  cases r'.buffer.toNat.testBit (r'.valid - 1) <;> simp

/-- A read that straddles a refill: the bits of the window, then the first
bits of the next one. -/
theorem readBitsStraddling_reads (h : Holds r (xs ++ rest)) (hlen : xs.length ≤ 64) (hwide : r.valid < xs.length)
    (hfull : 57 ≤ r.valid) (hmore : r.streamOffset < r.stream.length) :
    ∃ v r', readBitsStraddling xs.length r = .ok (v, r') ∧ v.toNat = ofBitsBE xs ∧ Holds r' rest := by
  have hsplit : xs = xs.take r.valid ++ xs.drop r.valid := (take_append_drop _ _).symm
  have hfst : (xs.take r.valid).length = r.valid := by
    simp
    omega
  have hsnd : (xs.drop r.valid).length = xs.length - r.valid := by simp
  rw [hsplit, append_assoc] at h
  obtain ⟨hhi, hafter⟩ := h.takeBits (by omega)
  rw [hfst] at hhi hafter
  have hroom : xs.length - r.valid ≤ (r.takeBits r.valid).2.refill.valid := by
    rcases refill_full (r.takeBits r.valid).2 hafter.1 with h57 | hend
    · omega
    · rw [← hsnd]
      exact hafter.refill.le_valid hend
  obtain ⟨hlo, hrest⟩ := hafter.refill.takeBits (by omega)
  rw [hsnd] at hlo hrest
  refine ⟨(r.takeBits r.valid).1 <<< (xs.length - r.valid)
    ||| ((r.takeBits r.valid).2.refill.takeBits (xs.length - r.valid)).1, _, ?_, ?_, hrest⟩
  · rw [readBitsStraddling]
    rw [if_neg (by omega), if_neg (by omega)]
  · have hlt := ofBitsBE_lt (xs.take r.valid)
    have hlt₂ := ofBitsBE_lt (xs.drop r.valid)
    rw [hfst] at hlt
    rw [hsnd] at hlt₂
    have hprod : ofBitsBE (xs.take r.valid) * 2 ^ (xs.length - r.valid) < 2 ^ 64 := by
      calc ofBitsBE (xs.take r.valid) * 2 ^ (xs.length - r.valid)
          < 2 ^ r.valid * 2 ^ (xs.length - r.valid) :=
            Nat.mul_lt_mul_of_pos_right hlt (Nat.two_pow_pos _)
        _ = 2 ^ xs.length := by rw [← Nat.pow_add]; congr 1; omega
        _ ≤ 2 ^ 64 := Nat.pow_le_pow_right (by omega) hlen
    rw [BitVec.or_comm, toNat_or_shiftLeft _ _ _ (by omega) (by rw [hhi]; exact hprod), hhi, hlo]
    conv_rhs => rw [hsplit, ofBitsBE_append, hsnd]
    omega

/-- A field of at most 64 bits reads back as its number, however it straddles
the window. -/
theorem readBits_reads (xs : List Bool) (hlen : xs.length ≤ 64) :
    Reads Holds (readBits xs.length) xs (BitVec.ofNat 64 (ofBitsBE xs)) := by
  intro r rest h
  suffices hread : ∃ v r', readBits xs.length r = .ok (v, r') ∧ v.toNat = ofBitsBE xs
      ∧ Holds r' rest by
    obtain ⟨v, r', hr, hv, hrest⟩ := hread
    refine ⟨r', ?_, hrest⟩
    rw [hr, ← hv, BitVec.ofNat_toNat, BitVec.setWidth_eq]
  rw [readBits]
  by_cases hin : xs.length > r.valid
  · rw [if_pos hin, if_neg (by omega)]
    by_cases hin' : xs.length > r.refill.valid
    · rw [if_pos hin']
      -- the stream goes on, so the refill stopped at 57 bits or more
      have hmore : ¬ r.refill.stream.length ≤ r.refill.streamOffset := by
        intro hend
        have := h.refill.le_valid hend
        omega
      exact readBitsStraddling_reads h.refill hlen hin'
        ((refill_full r h.1).resolve_right hmore) (by omega)
    · rw [if_neg hin']
      exact ⟨_, _, rfl, h.refill.takeBits (by omega)⟩
  · rw [if_neg hin]
    exact ⟨_, _, rfl, h.takeBits (by omega)⟩

/-- The low `n` bits of a word, written as a field, read back masked. -/
theorem readBits_bitsBE {n : Nat} (hn : n ≤ 64) (v : BitVec 64) :
    Reads Holds (readBits n) (bitsBE n v.toNat) (BitVec.ofNat 64 (v.toNat % 2 ^ n)) := by
  have h := readBits_reads (bitsBE n v.toNat) (by simpa using hn)
  rwa [length_bitsBE, ofBitsBE_bitsBE] at h

theorem readBits_of_lt {n : Nat} (hn : n ≤ 64) {v : BitVec 64} (hv : v.toNat < 2 ^ n) :
    Reads Holds (readBits n) (bitsBE n v.toNat) v := by
  have h := readBits_bitsBE hn v
  rwa [mod_eq_of_lt hv, BitVec.ofNat_toNat, BitVec.setWidth_eq] at h

theorem readU64_reads (v : BitVec 64) : Reads Holds readU64 (bitsBE 64 v.toNat) v :=
  readBits_of_lt (le_refl _) v.isLt

theorem readByte_reads (b : BitVec 8) : Reads Holds readByte (byteBits b) b := by
  have hlt : (b.setWidth 64).toNat = b.toNat := by
    rw [BitVec.toNat_setWidth, mod_eq_of_lt (b.isLt.trans (by decide))]
  have hback : (b.setWidth 64).setWidth 8 = b := by
    apply BitVec.eq_of_toNat_eq
    rw [BitVec.toNat_setWidth, hlt, mod_eq_of_lt b.isLt]
  have h := (readBits_of_lt (n := 8) (v := b.setWidth 64) (by omega) (by rw [hlt]; exact b.isLt)).map
    (·.setWidth 8)
  rwa [hlt, hback] at h

theorem readUvarintRounds_reads {front : List (BitVec 8)} {last : BitVec 8} {fuel : Nat} (x : BitVec 64) (s : Nat)
    (hfront : ∀ b ∈ front, 128 ≤ b.toNat) (hlast : last.toNat < 128) (hfuel : front.length < fuel) :
    Reads Holds (readUvarintRounds fuel x s) (bytesBits (front ++ [last])) (accumulate (front ++ [last]) x s) := by
  induction front generalizing fuel x s with
  | nil =>
    obtain ⟨fuel, rfl⟩ := Nat.exists_eq_add_of_lt hfuel
    apply (readByte_reads _).bind_pure
    rw [if_pos hlast]
    have hkeep : last &&& 0x7F = last := BitVec.eq_of_toNat_eq (by rw [(byte_test last).2, mod_eq_of_lt hlast])
    rw [nil_append, accumulate, accumulate, hkeep]
  | cons b front ih =>
    obtain ⟨hb, hfront⟩ := forall_mem_cons.mp hfront
    obtain ⟨fuel, rfl⟩ := Nat.exists_eq_add_one_of_ne_zero (by omega : fuel ≠ 0)
    rw [length_cons] at hfuel
    apply (readByte_reads _).bind
    rw [if_neg (by omega), cons_append, accumulate, BitVec.setWidth_and]
    exact ih _ _ hfront (by omega)

theorem readUvarint_reads (value : BitVec 64) : Reads Holds readUvarint (bytesBits (uvarintBytes value)) value := by
  obtain ⟨front, last, heq, hfront, hlast, hlen, hvalue⟩ := uvarintBytes_spells value
  have h := readUvarintRounds_reads 0 0 hfront hlast (show front.length < 10 by omega)
  rwa [hvalue, ← heq] at h

/-- The sign test of `read_varint` is zigzag decoding. -/
theorem zigzagDecode_eq (y : BitVec 64) :
    zigzagDecode y = if y &&& 1 ≠ 0 then ~~~(y >>> 1) else y >>> 1 := by
  rw [zigzagDecode, neg_and_one_eq, and_one_eq]
  cases y.getLsbD 0
  · simp
  · rw [if_pos rfl, if_pos rfl, if_pos (by decide), BitVec.xor_allOnes]

theorem readVarint_reads (x : BitVec 64) : Reads Holds readVarint (bytesBits (signedVarintBytes x)) x := by
  apply (readUvarint_reads (zigzagEncode x)).bind_pure
  dsimp only
  rw [← zigzagDecode_eq, zigzagDecode_zigzagEncode]

/-- Peeking at a header that is no longer than the peek, and skipping it: the
leading bits of the peeked number are the header. -/
theorem peekUpto_skip {hdr : List Bool} (h : Holds r (hdr ++ rest)) {n : Nat} (hn : n ≤ 32) (hle : hdr.length ≤ n) :
    ∃ v r' r'', peekUpto n r = .ok (v, r') ∧ v.toNat < 2 ^ n ∧ v.toNat >>> (n - hdr.length) = ofBitsBE hdr
    ∧ skip hdr.length r' = .ok ((), r'') ∧ Holds r'' rest := by
  -- the window the peek looks at
  obtain ⟨r₁, hr₁, h₁, hfull⟩ : ∃ r₁, (if n > r.valid then r.refill else r) = r₁
      ∧ Holds r₁ (hdr ++ rest) ∧ (n ≤ r₁.valid ∨ r₁.stream.length ≤ r₁.streamOffset) := by
    by_cases hv : n > r.valid
    · refine ⟨_, if_pos hv, h.refill, ?_⟩
      exact (refill_full r h.1).imp_left (by omega)
    · exact ⟨_, if_neg hv, h, .inl (by omega)⟩
  have hin : hdr.length ≤ r₁.valid := by
    rcases hfull with hv | hend
    · omega
    · exact h₁.le_valid hend
  obtain ⟨hhdr, hrest⟩ := h₁.window hin
  have hval : ofBitsBE hdr = r₁.buffer.toNat >>> (r₁.valid - hdr.length) % 2 ^ hdr.length := by
    conv_lhs => rw [hhdr]
    exact ofBitsBE_bitsBE _ _
  have hskip : skip hdr.length r₁ = .ok ((), { r₁ with valid := r₁.valid - hdr.length }) :=
    if_neg (by omega)
  simp only [peekUpto, hr₁, hval]
  by_cases hv : n > r₁.valid
  · -- the end of the stream: zeros are peeked behind what is left
    rw [if_pos hv]
    refine ⟨_, _, _, rfl, ?_, ?_, hskip, hrest⟩
    · have hlt : (r₁.buffer &&& ((1 : BitVec 64) <<< r₁.valid - 1)).toNat < 2 ^ r₁.valid := by
        rw [toNat_and_mask _ (by omega)]
        exact Nat.mod_lt _ (Nat.two_pow_pos _)
      rw [BitVec.toNat_shiftLeft, Nat.shiftLeft_eq]
      apply (Nat.mod_le _ _).trans_lt
      calc _ < 2 ^ r₁.valid * 2 ^ (n - r₁.valid) := Nat.mul_lt_mul_of_pos_right hlt (Nat.two_pow_pos _)
        _ = 2 ^ n := by rw [← Nat.pow_add]; congr 1; omega
    · rw [BitVec.toNat_shiftLeft, toNat_and_mask _ (by omega)]
      apply Nat.eq_of_testBit_eq
      intro i
      simp only [testBit_shiftRight, testBit_mod_two_pow]
      by_cases hi : i < hdr.length
      · have h₂ : n - hdr.length + i < 64 := by omega
        have h₃ : n - r₁.valid ≤ n - hdr.length + i := by omega
        have h₄ : n - hdr.length + i - (n - r₁.valid) = r₁.valid - hdr.length + i := by omega
        have h₅ : r₁.valid - hdr.length + i < r₁.valid := by omega
        simp [h₂, h₃, h₄, h₅, hi]
      · have h₄ : ¬ n - hdr.length + i - (n - r₁.valid) < r₁.valid := by omega
        simp [hi, h₄]
  · rw [if_neg hv]
    refine ⟨_, _, _, rfl, ?_, ?_, hskip, hrest⟩
    · rw [toNat_and_mask _ (by omega)]
      exact Nat.mod_lt _ (Nat.two_pow_pos _)
    · rw [toNat_and_mask _ (by omega), BitVec.toNat_ushiftRight]
      apply Nat.eq_of_testBit_eq
      intro i
      have h₂ : (n - hdr.length + i < n) ↔ (i < hdr.length) := by omega
      have h₃ : r₁.valid - n + (n - hdr.length + i) = r₁.valid - hdr.length + i := by omega
      simp [h₂, h₃]

/-- A reader that peeks at a header, skips it and goes on with what the header
says: it consumes the header, then what comes after. -/
theorem peekUpto_reads {β : Type} {n : Nat} (hdr : List Bool) {ys : List Bool} {f : BitVec 64 → BitReader β}
    {g : BitReader β} {b : β} (hn : n ≤ 32) (hle : hdr.length ≤ n) (hf : ∀ head : BitVec 64, head.toNat < 2 ^ n →
    head.toNat >>> (n - hdr.length) = ofBitsBE hdr → f head = (skip hdr.length >>= fun _ => g))
    (hg : Reads Holds g ys b) : Reads Holds (peekUpto n >>= f) (hdr ++ ys) b := by
  intro r rest h
  rw [append_assoc] at h
  obtain ⟨v, r', r'', hpeek, hlt, hhdr, hskip, h'⟩ := peekUpto_skip h hn hle
  obtain ⟨r₂, e₂, h₂⟩ := hg r'' rest h'
  refine ⟨r₂, ?_, h₂⟩
  change (peekUpto n r >>= fun x => f x.1 x.2) = _
  rw [hpeek]
  change f v r' = _
  rw [hf v hlt hhdr]
  change (skip hdr.length r' >>= fun x => g x.2) = _
  rw [hskip]
  exact e₂

end BitStreamReader

/-- A reader over a stream's bytes has the stream's bits ahead of it, and the
padding of the last byte behind them. -/
theorem BitStream.Holds.reader {s : BitStream} {xs : List Bool} (h : s.Holds xs) :
    ∃ pad, BitStreamReader.Holds (BitStreamReader.new s.stream) (xs ++ pad) := by
  refine ⟨List.replicate s.count false, ?_⟩
  rw [← h.2]
  exact BitStreamReader.new_holds s.stream

end ValkeyTimeSeries
