/-
Stream/BitStream.lean

The bit writer of `series/chunks/stream/bitstream.rs`.

Design.  A `BitStream` is a run of bytes of which the last `count` bits are still free.  What it stands for is
the relation `Holds s xs`: the stored bits are `xs` followed by `count` zeros, with less than a byte free.

The allocation budget (`soft_cap`, `grow`, `ensure_spare`) does not change what is stored and is left out.
-/
import ValkeyTimeSeries.Common.Encoding

namespace ValkeyTimeSeries

open List Bits Codec Nat

/-- A stream of bits for writing: the bytes, and how many right-most bits of
the last one are available. -/
structure BitStream where
  stream : List (BitVec 8)
  count : Nat
deriving DecidableEq, Repr

namespace BitStream

/-! ### The writer -/

def new : BitStream := ⟨[], 0⟩

/-- `self.stream[len - 1] |= m`. -/
def orLast (bs : List (BitVec 8)) (m : BitVec 8) : List (BitVec 8) :=
  bs.modify (bs.length - 1) (· ||| m)

def writeBitRaw (s : BitStream) (bit : Bool) : BitStream :=
  let s := if s.count = 0 then ⟨s.stream ++ [0], 8⟩ else s
  ⟨if bit then orLast s.stream ((1 : BitVec 8) <<< (s.count - 1)) else s.stream, s.count - 1⟩

def writeByteRaw (s : BitStream) (byte : BitVec 8) : BitStream :=
  if s.count = 0 then ⟨s.stream ++ [byte], s.count⟩
  else
    -- complete the last byte with the leftmost bits, then write the remainder
    ⟨orLast s.stream (byte >>> (8 - s.count)) ++ [byte <<< s.count], s.count⟩

/-- The whole bytes of the left-aligned word `u`, `nbits` of it payload, once
the trailing byte is full. -/
def appendWord (stream : List (BitVec 8)) (nbits : Nat) (u : BitVec 64) : BitStream :=
  let nbytes := (nbits + 7) / 8
  let rem := nbits % 8
  ⟨stream ++ (beBytes 8 u).take nbytes, if rem ≠ 0 then 8 - rem else 0⟩

/-- Write the right-most `bits` bits of `value` in left-to-right order. -/
def writeBits (s : BitStream) (bits : Nat) (value : BitVec 64) : BitStream :=
  let nbits := min bits 64
  if nbits = 0 then s
  else
    -- left-align: bit `nbits - 1` of `value` becomes bit 63
    let u := value <<< (64 - nbits)
    if s.count > 0 then
      let free := s.count
      let stream := orLast s.stream ((u >>> (64 - free)).setWidth 8)
      if nbits < free then ⟨stream, free - nbits⟩
      else if nbits - free = 0 then ⟨stream, 0⟩
      else appendWord stream (nbits - free) (u <<< free)
    else appendWord s.stream nbits u

def writeU64 (s : BitStream) (value : BitVec 64) : BitStream :=
  (beBytes 8 value).foldl writeByteRaw s

/-! ### What a stream stands for -/

/-- The stream holds the bits `xs`: they are followed by `count` zero bits,
less than a whole byte. -/
def Holds (s : BitStream) (xs : List Bool) : Prop :=
  s.count < 8 ∧ bytesBits s.stream = xs ++ List.replicate s.count false

theorem new_holds : Holds new [] := ⟨by decide, rfl⟩

theorem Holds.length_eq {s : BitStream} {xs : List Bool} (h : Holds s xs) : s.stream.length = (xs.length + 7) / 8 := by
  have hlen := congrArg List.length h.2
  simp only [length_bytesBits, length_append, length_replicate] at hlen
  have := h.1
  omega

theorem orLast_concat (bs : List (BitVec 8)) (b m : BitVec 8) :
    orLast (bs ++ [b]) m = bs ++ [b ||| m] := by
  rw [orLast, modify_eq_take_cons_drop (by simp)]
  simp

/-- A stream with free bits ends in a byte whose free bits are clear. -/
theorem Holds.partial_byte {s : BitStream} {xs : List Bool} (h : Holds s xs) (hc : 0 < s.count) :
    ∃ bs b, s.stream = bs ++ [b] ∧ xs = bytesBits bs ++ bitsBE (8 - s.count) (b.toNat >>> s.count)
    ∧ ∀ i < s.count, b.toNat.testBit i = false := by
  obtain ⟨hlt, hbits⟩ := h
  rcases eq_nil_or_concat s.stream with hnil | ⟨bs, b, hb⟩
  · -- no bytes: there is nothing the zeros could be part of
    rw [hnil] at hbits
    have := congrArg List.length hbits
    simp at this
    omega
  · rw [concat_eq_append] at hb
    have hsplit : byteBits b = bitsBE (8 - s.count) (b.toNat >>> s.count) ++ bitsBE s.count b.toNat := by
      rw [byteBits, ← bitsBE_add]
      congr 1
      omega
    rw [hb, bytesBits_append, bytesBits_cons, bytesBits_nil, append_nil, hsplit, ← append_assoc] at hbits
    obtain ⟨hxs, hzero⟩ := append_inj' hbits (by simp)
    refine ⟨bs, b, hb, hxs.symm, ?_⟩
    intro i hi
    rw [← bitsBE_zero_right] at hzero
    simpa using testBit_eq_of_bitsBE_eq hzero i hi

/-- Filling `w`, a number of `count` bits, into the free bits of the last byte. -/
theorem Holds.fill {s : BitStream} {xs : List Bool} (h : Holds s xs) (hc : 0 < s.count)
    (w : BitVec 8) (hw : w.toNat < 2 ^ s.count) : bytesBits (orLast s.stream w) = xs ++ bitsBE s.count w.toNat := by
  obtain ⟨bs, b, hb, hxs, hzero⟩ := h.partial_byte hc
  have hlt := h.1
  have hor := bitsBE_or (8 - s.count) s.count b.toNat w.toNat hzero hw
  rw [show 8 - s.count + s.count = 8 by omega] at hor
  rw [hb, orLast_concat, bytesBits_append, bytesBits_cons, bytesBits_nil, append_nil,
    byteBits, BitVec.toNat_or, hor, hxs, append_assoc]

/-! ### What each write appends -/

/-- The bytes of a left-aligned word hold the payload and padding zeros. -/
theorem appendWord_holds (stream : List (BitVec 8)) (nbits : Nat) (u : BitVec 64) (v : Nat)
    (hn : nbits ≤ 64) (hu : ∀ j ≤ 64, nbits ≤ j →
    bitsBE j (u.toNat >>> (64 - j)) = bitsBE nbits v ++ List.replicate (j - nbits) false) :
    Holds (appendWord stream nbits u) (bytesBits stream ++ bitsBE nbits v) := by
  have hbytes : bytesBits ((beBytes 8 u).take ((nbits + 7) / 8))
      = bitsBE nbits v ++ List.replicate (8 * ((nbits + 7) / 8) - nbits) false := by
    have htake := take_beBytes ((nbits + 7) / 8) (8 - (nbits + 7) / 8) u
    rw [show (nbits + 7) / 8 + (8 - (nbits + 7) / 8) = 8 by omega] at htake
    rw [htake, bytesBits_beBytes, BitVec.toNat_ushiftRight, ← hu (8 * ((nbits + 7) / 8)) (by omega) (by omega)]
    congr 2
    omega
  constructor
  · rw [appendWord]
    dsimp only
    split <;> omega
  · rw [appendWord]
    dsimp only
    rw [bytesBits_append, hbytes, append_assoc]
    congr 3
    split <;> omega

variable (value : BitVec 64)

/-- Left-aligning a word makes its low `n` bits the leading ones. -/
theorem leftAlign_bits (n : Nat) (hn : n ≤ 64) (j : Nat) (hj : j ≤ 64) (hnj : n ≤ j) :
    bitsBE j ((value <<< (64 - n)).toNat >>> (64 - j)) = bitsBE n value.toNat ++ List.replicate (j - n) false := by
  have hshift := bitsBE_shiftLeft n (j - n) value.toNat
  rw [show n + (j - n) = j by omega] at hshift
  rw [← hshift]
  apply bitsBE_congr
  intro i hi
  rw [testBit_shiftRight, BitVec.toNat_shiftLeft, testBit_mod_two_pow, testBit_shiftLeft, testBit_shiftLeft]
  have h₁ : 64 - j + i < 64 := by omega
  have h₂ : (64 - n ≤ 64 - j + i) ↔ (j - n ≤ i) := by omega
  have h₃ : 64 - j + i - (64 - n) = i - (j - n) := by omega
  simp [h₁, h₂, h₃]

theorem writeBits_writes (bits : Nat) (value : BitVec 64) :
    Writes Holds (fun s => writeBits s bits value) (bitsBE (min bits 64) value.toNat) := by
  intro s xs h
  have hn : min bits 64 ≤ 64 := min_le_right _ _
  simp only [writeBits]
  generalize min bits 64 = n at hn ⊢
  have hlt := h.1
  by_cases hz : n = 0
  · subst hz
    simpa using h
  rw [if_neg hz]
  by_cases hc : s.count > 0
  · rw [if_pos hc]
    -- the leading `count` bits of the word go to the free bits of the last byte
    have hlead : ((value <<< (64 - n)) >>> (64 - s.count)).toNat < 2 ^ s.count := by
      rw [BitVec.toNat_ushiftRight, Nat.shiftRight_eq_div_pow]
      apply Nat.div_lt_of_lt_mul
      rw [← Nat.pow_add, show 64 - s.count + s.count = 64 by omega]
      exact (value <<< (64 - n)).isLt
    have hw : (((value <<< (64 - n)) >>> (64 - s.count)).setWidth 8).toNat
        = (value <<< (64 - n)).toNat >>> (64 - s.count) := by
      rw [BitVec.toNat_setWidth, Nat.mod_eq_of_lt, BitVec.toNat_ushiftRight]
      exact hlead.trans_le (Nat.pow_le_pow_right (by omega) (by omega))
    have hfill := h.fill hc ((value <<< (64 - n)) >>> (64 - s.count) |>.setWidth 8)
      (by rw [hw, ← BitVec.toNat_ushiftRight]; exact hlead)
    rw [hw] at hfill
    by_cases hfit : n < s.count
    · rw [if_pos hfit]
      refine ⟨by simp only; omega, ?_⟩
      rw [hfill, leftAlign_bits value n hn s.count (by omega) (by omega), append_assoc]
    · rw [if_neg hfit]
      -- what is left of the word after the free bits are taken
      have hsplit : bitsBE n value.toNat
          = bitsBE s.count ((value <<< (64 - n)).toNat >>> (64 - s.count))
            ++ bitsBE (n - s.count) value.toNat := by
        have hadd := bitsBE_add s.count (n - s.count) value.toNat
        rw [show s.count + (n - s.count) = n by omega] at hadd
        rw [hadd]
        congr 1
        apply bitsBE_congr
        intro i hi
        rw [testBit_shiftRight, testBit_shiftRight, BitVec.toNat_shiftLeft, testBit_mod_two_pow, testBit_shiftLeft]
        have h₁ : 64 - s.count + i < 64 := by omega
        have h₂ : 64 - n ≤ 64 - s.count + i := by omega
        have h₃ : 64 - s.count + i - (64 - n) = n - s.count + i := by omega
        simp [h₁, h₂, h₃]
      by_cases hend : n - s.count = 0
      · rw [if_pos hend]
        refine ⟨by simp, ?_⟩
        rw [hfill, hsplit, hend]
        simp
      · rw [if_neg hend, hsplit, ← append_assoc, ← hfill]
        apply appendWord_holds _ _ _ _ (by omega)
        intro j hj hnj
        rw [← leftAlign_bits value (n - s.count) (by omega) j hj hnj, ← BitVec.shiftLeft_add,
          show 64 - n + s.count = 64 - (n - s.count) by omega]
  · rw [if_neg hc]
    have hbits : bytesBits s.stream = xs := by
      have := h.2
      rwa [show s.count = 0 by omega, replicate_zero, append_nil] at this
    rw [← hbits]
    exact appendWord_holds _ _ _ _ hn (leftAlign_bits value n hn)

theorem writeBits_writes_of_le {bits : Nat} (h : bits ≤ 64) (value : BitVec 64) :
    Writes Holds (fun s => writeBits s bits value) (bitsBE bits value.toNat) := by
  have hw := writeBits_writes bits value
  rwa [min_eq_left h] at hw

theorem writeBits_concat {p n : Nat} (hpn : p + n ≤ 64) (hi : BitVec 64) {lo : BitVec 64} (hlo : lo.toNat < 2 ^ n) :
    Writes Holds (fun s => writeBits s (p + n) (hi <<< n ||| lo))
      (bitsBE p hi.toNat ++ bitsBE n lo.toNat) := by
  have hw := writeBits_writes_of_le hpn (hi <<< n ||| lo)
  rwa [bitsBE_concat _ _ _ _ hpn hlo] at hw

theorem writeBits_writeBits {p n : Nat} (hp : p ≤ 64) (hn : n ≤ 64) (hi lo : BitVec 64) :
    Writes Holds (fun s => writeBits (writeBits s p hi) n lo) (bitsBE p hi.toNat ++ bitsBE n lo.toNat) :=
  (writeBits_writes_of_le hp hi).comp (writeBits_writes_of_le hn lo)

theorem writeBitRaw_writes (bit : Bool) : Writes Holds (fun s => writeBitRaw s bit) [bit] := by
  intro s xs h
  have hlt := h.1
  -- make room first: a fresh zero byte has eight free bits
  have hroom : ∃ bs b c, (if s.count = 0 then ⟨s.stream ++ [0], 8⟩ else s) = (⟨bs ++ [b], c + 1⟩ : BitStream)
      ∧ c < 8 ∧ xs = bytesBits bs ++ bitsBE (8 - (c + 1)) (b.toNat >>> (c + 1))
      ∧ ∀ i < c + 1, b.toNat.testBit i = false := by
    by_cases hc : s.count = 0
    · refine ⟨s.stream, 0, 7, by rw [if_pos hc], by omega, ?_, by simp⟩
      have := h.2
      simpa [hc] using this.symm
    · obtain ⟨bs, b, hb, hxs, hzero⟩ := h.partial_byte (by omega)
      obtain ⟨c, hcount⟩ : ∃ c, s.count = c + 1 := ⟨s.count - 1, by omega⟩
      rw [hcount] at hxs hzero
      refine ⟨bs, b, c, ?_, by omega, hxs, hzero⟩
      rw [if_neg hc, ← hb, ← hcount]
  obtain ⟨bs, b, c, hs, hc, hxs, hzero⟩ := hroom
  have hbyte : ∀ w : BitVec 8, w.toNat = bit.toNat <<< c →
      bytesBits (bs ++ [b ||| w]) = (xs ++ [bit]) ++ List.replicate c false := by
    intro w hw
    have hwlt : w.toNat < 2 ^ (c + 1) := by
      rw [hw, Nat.shiftLeft_eq, pow_succ]
      cases bit <;> simp
    have hor := bitsBE_or (8 - (c + 1)) (c + 1) b.toNat w.toNat hzero hwlt
    rw [show 8 - (c + 1) + (c + 1) = 8 by omega] at hor
    rw [bytesBits_append, bytesBits_cons, bytesBits_nil, append_nil, byteBits,
      BitVec.toNat_or, hor, hxs, hw, add_comm c 1, bitsBE_shiftLeft]
    cases bit <;> simp [bitsBE]
  simp only [writeBitRaw, hs]
  refine ⟨hc, ?_⟩
  cases bit with
  | false =>
    have := hbyte 0 (by simp)
    simpa using this
  | true =>
    have hw : ((1 : BitVec 8) <<< c).toNat = true.toNat <<< c := by
      rw [BitVec.toNat_shiftLeft, Nat.mod_eq_of_lt]
      · rfl
      · rw [Nat.shiftLeft_eq]
        have := Nat.pow_lt_pow_right (show 1 < 2 by omega) hc
        simpa using this
    simpa [orLast_concat] using hbyte _ hw

theorem writeByteRaw_writes (byte : BitVec 8) : Writes Holds (fun s => writeByteRaw s byte) (byteBits byte) := by
  intro s xs h
  have hlt := h.1
  simp only [writeByteRaw]
  by_cases hc : s.count = 0
  · rw [if_pos hc]
    refine ⟨hlt, ?_⟩
    have := h.2
    simp_all
  · rw [if_neg hc]
    refine ⟨hlt, ?_⟩
    have hlead : (byte >>> (8 - s.count)).toNat < 2 ^ s.count := by
      rw [BitVec.toNat_ushiftRight, Nat.shiftRight_eq_div_pow]
      apply Nat.div_lt_of_lt_mul
      rw [← Nat.pow_add, show 8 - s.count + s.count = 8 by omega]
      exact byte.isLt
    have hsplit := bitsBE_add s.count (8 - s.count) byte.toNat
    have hpad := bitsBE_shiftLeft (8 - s.count) s.count byte.toNat
    rw [show s.count + (8 - s.count) = 8 by omega] at hsplit
    rw [show 8 - s.count + s.count = 8 by omega] at hpad
    rw [bytesBits_append, h.fill (by omega) _ hlead, BitVec.toNat_ushiftRight]
    have hrest : bytesBits [byte <<< s.count]
        = bitsBE (8 - s.count) byte.toNat ++ List.replicate s.count false := by
      rw [bytesBits_cons, bytesBits_nil, append_nil, byteBits, BitVec.toNat_shiftLeft, bitsBE_mod, hpad]
    rw [hrest, byteBits, hsplit]
    simp only [append_assoc]

theorem foldl_writeByteRaw_writes (bs : List (BitVec 8)) : Writes Holds (fun s => bs.foldl writeByteRaw s)
    (bytesBits bs) :=
  Writes.foldl writeByteRaw_writes bs

theorem writeU64_writes : Writes Holds (fun s => writeU64 s value) (bitsBE 64 value.toNat) := by
  have h := foldl_writeByteRaw_writes (beBytes 8 value)
  rwa [bytesBits_beBytes] at h

def writeUvarint (s : BitStream) (value : BitVec 64) : BitStream :=
  (uvarintBytes value).foldl writeByteRaw s

def writeVarint (s : BitStream) (value : BitVec 64) : BitStream :=
  s.writeUvarint (zigzagEncode value)

theorem writeUvarint_writes : Writes Holds (fun s => writeUvarint s value) (bytesBits (uvarintBytes value)) :=
  foldl_writeByteRaw_writes _

theorem writeVarint_writes : Writes Holds (fun s => writeVarint s value) (bytesBits (signedVarintBytes value)) :=
  writeUvarint_writes _

/-! ### Serialization -/

def serialize (s : BitStream) : List (BitVec 8) :=
  uvarintBytes (BitVec.ofNat 64 s.count) ++ uvarintBytes (BitVec.ofNat 64 s.stream.length)
    ++ s.stream

def deserialize : StateT (List (BitVec 8)) (Except IoError) BitStream := do
  let count ← mapErr (fun _ => IoError.unexpectedEof) tryReadUvarint
  if count.toNat > 8 then fun _ => .error (.invalidData "Invalid bit count")
  else
    let len ← mapErr (fun _ => IoError.unexpectedEof) tryReadUvarint
    fun src =>
      if src.length < len.toNat then .error .unexpectedEof
      else if count ≠ 0 ∧ len = 0 then
        .error (.invalidData "Invalid chunk bits: non-zero count with empty stream")
      else .ok (⟨src.take len.toNat, count.toNat⟩, src.drop len.toNat)

theorem deserialize_reads {s : BitStream} {xs : List Bool} (h : Holds s xs)
    (hlen : s.stream.length < 2 ^ 64) : Reads Eq deserialize s.serialize s := by
  have hcount := h.1
  have hc : (BitVec.ofNat 64 s.count).toNat = s.count := by
    rw [BitVec.toNat_ofNat]
    omega
  have hl : (BitVec.ofNat 64 s.stream.length).toNat = s.stream.length := by
    rw [BitVec.toNat_ofNat, Nat.mod_eq_of_lt hlen]
  rw [serialize, append_assoc]
  apply ((tryReadUvarint_reads (BitVec.ofNat 64 s.count)).mapErr _).bind
  rw [if_neg (by omega)]
  apply ((tryReadUvarint_reads (BitVec.ofNat 64 s.stream.length)).mapErr _).bind
  rintro src rest rfl
  refine ⟨rest, ?_, rfl⟩
  simp only [hl, hc]
  rw [if_neg (by simp), if_neg, take_left, drop_left]
  -- a partial byte needs a byte
  rintro ⟨hne, hnil⟩
  have hzero : s.stream.length = 0 := by
    rw [← hl, hnil]
    rfl
  have hbits := congrArg List.length h.2
  simp [hzero] at hbits
  obtain hcount₀ : s.count = 0 := by omega
  exact hne (by rw [hcount₀]; rfl)

end BitStream

end ValkeyTimeSeries
