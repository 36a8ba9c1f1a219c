/-
Library/Bits.lean

Numbers as lists of bits, most significant bit first.

`bitsBE n v` is the list a packer appends for the low `n` bits of `v`, `ofBitsBE` the number an unpacker makes
of such a list, and `byteBits`/`bytesBits` the bits of the bytes both sides store.  The two splitting laws
(`bitsBE_add` for one number, `bytesBits_append` for a run of bytes) are what lets a field straddle a byte.
-/
import Mathlib

namespace Bits

open List Nat

/-! ### Bits of a number -/

/-- The low `n` bits of `v`, most significant bit first. -/
def bitsBE : Nat → Nat → List Bool
  | 0, _ => []
  | n + 1, v => v.testBit n :: bitsBE n v

/-- The number denoted by a list of bits, most significant bit first. -/
def ofBitsBE (xs : List Bool) : Nat :=
  xs.foldl (fun acc b => 2 * acc + b.toNat) 0

@[simp] theorem bitsBE_zero (v : Nat) : bitsBE 0 v = [] := rfl

@[simp] theorem length_bitsBE (n v : Nat) : (bitsBE n v).length = n := by
  induction n with
  | zero => rfl
  | succ n ih => simp [bitsBE, ih]

theorem bitsBE_congr {n v w : Nat} (h : ∀ i < n, v.testBit i = w.testBit i) : bitsBE n v = bitsBE n w := by
  induction n with
  | zero => rfl
  | succ n ih =>
    rw [bitsBE, bitsBE, h n (by omega), ih fun i hi => h i (by omega)]

theorem testBit_eq_of_bitsBE_eq {n v w : Nat} (h : bitsBE n v = bitsBE n w) : ∀ i < n, v.testBit i = w.testBit i := by
  induction n with
  | zero => intro i hi; omega
  | succ n ih =>
    intro i hi
    simp only [bitsBE, List.cons.injEq] at h
    rcases Nat.lt_succ_iff_lt_or_eq.mp hi with hlt | rfl
    · exact ih h.2 i hlt
    · exact h.1

/-- A field splits at any bit position: high part first. -/
theorem bitsBE_add (m n v : Nat) : bitsBE (m + n) v = bitsBE m (v >>> n) ++ bitsBE n v := by
  induction m with
  | zero => simp
  | succ m ih =>
    rw [show m + 1 + n = (m + n) + 1 by omega, bitsBE, bitsBE, ih,
      testBit_shiftRight, add_comm n m]
    rfl

/-- Bits at or above position `n` do not show in an `n`-bit field. -/
@[simp] theorem bitsBE_mod (n v : Nat) : bitsBE n (v % 2 ^ n) = bitsBE n v := by
  apply bitsBE_congr
  intro i hi
  simp [hi]

theorem bitsBE_zero_right (n : Nat) : bitsBE n 0 = List.replicate n false := by
  induction n with
  | zero => rfl
  | succ n ih => simp [bitsBE, ih, replicate_succ]

theorem bitsBE_shiftLeft (m k v : Nat) : bitsBE (m + k) (v <<< k) = bitsBE m v ++ List.replicate k false := by
  rw [bitsBE_add, shiftLeft_shiftRight, ← bitsBE_zero_right]
  congr 1
  apply bitsBE_congr
  intro i hi
  simp [show ¬ k ≤ i by omega]

/-- A field whose last `k` bits are clear takes a `k`-bit number by `or`. -/
theorem bitsBE_or (m k v w : Nat) (hv : ∀ i < k, v.testBit i = false) (hw : w < 2 ^ k) :
    bitsBE (m + k) (v ||| w) = bitsBE m (v >>> k) ++ bitsBE k w := by
  rw [bitsBE_add]
  congr 1
  · apply bitsBE_congr
    intro i _
    have hbig : w.testBit (k + i) = false :=
      Nat.testBit_lt_two_pow (hw.trans_le (Nat.pow_le_pow_right (by omega) (by omega)))
    simp [hbig]
  · apply bitsBE_congr
    intro i hi
    simp [hv i hi]

/-! ### The number of a list of bits -/

theorem foldl_bits_eq (xs : List Bool) (a : Nat) :
    xs.foldl (fun acc b => 2 * acc + b.toNat) a = a * 2 ^ xs.length + ofBitsBE xs := by
  induction xs generalizing a with
  | nil => simp [ofBitsBE]
  | cons b xs ih =>
    simp only [foldl_cons, ofBitsBE, length_cons]
    rw [ih, ih (2 * 0 + b.toNat), pow_succ]
    ring

@[simp] theorem ofBitsBE_nil : ofBitsBE [] = 0 := rfl

theorem ofBitsBE_cons (b : Bool) (xs : List Bool) : ofBitsBE (b :: xs) = b.toNat * 2 ^ xs.length + ofBitsBE xs := by
  have h := foldl_bits_eq xs b.toNat
  simpa [ofBitsBE] using h

theorem ofBitsBE_append (xs ys : List Bool) : ofBitsBE (xs ++ ys) = ofBitsBE xs * 2 ^ ys.length + ofBitsBE ys := by
  rw [ofBitsBE, foldl_append, foldl_bits_eq]
  rfl

theorem ofBitsBE_lt (xs : List Bool) : ofBitsBE xs < 2 ^ xs.length := by
  induction xs with
  | nil => simp
  | cons b xs ih =>
    rw [ofBitsBE_cons, length_cons, pow_succ]
    cases b <;> simp <;> omega

@[simp] theorem ofBitsBE_bitsBE (n v : Nat) : ofBitsBE (bitsBE n v) = v % 2 ^ n := by
  induction n with
  | zero => simp [mod_one]
  | succ n ih =>
    rw [bitsBE, ofBitsBE_cons, ih, length_bitsBE, mod_pow_succ, toNat_testBit]
    ring

theorem ofBitsBE_bitsBE_of_lt {n v : Nat} (h : v < 2 ^ n) : ofBitsBE (bitsBE n v) = v := by
  rw [ofBitsBE_bitsBE, mod_eq_of_lt h]

theorem bitsBE_ofBitsBE (xs : List Bool) : bitsBE xs.length (ofBitsBE xs) = xs := by
  induction xs with
  | nil => rfl
  | cons b xs ih =>
    have hlt := ofBitsBE_lt xs
    rw [length_cons, bitsBE, ofBitsBE_cons]
    congr 1
    · rw [mul_comm, testBit_two_pow_mul_add _ hlt]
      cases b <;> simp
    · conv_rhs => rw [← ih]
      apply bitsBE_congr
      intro i hi
      rw [mul_comm, testBit_two_pow_mul_add _ hlt, if_pos hi]

/-! ### Fields packed in a 64-bit word -/

/-- Two fields packed into one word: the high one moved up, the low one put
below it by `or`. -/
theorem bitsBE_concat (p n : Nat) (hi lo : BitVec 64) (hpn : p + n ≤ 64) (hlo : lo.toNat < 2 ^ n) :
    bitsBE (p + n) (hi <<< n ||| lo).toNat = bitsBE p hi.toNat ++ bitsBE n lo.toNat := by
  have hclear : ∀ i < n, (hi <<< n).toNat.testBit i = false := by
    intro i hi'
    rw [BitVec.toNat_shiftLeft, testBit_mod_two_pow, testBit_shiftLeft]
    simp [show ¬ n ≤ i by omega]
  rw [BitVec.toNat_or, bitsBE_or _ _ _ _ hclear hlo]
  congr 1
  apply bitsBE_congr
  intro i hi'
  rw [testBit_shiftRight, BitVec.toNat_shiftLeft, testBit_mod_two_pow, testBit_shiftLeft]
  simp [show n + i < 64 by omega]

/-- The number of zero bits above the highest set one. -/
def leadingZeros (x : BitVec 64) : Nat := if x = 0 then 64 else 63 - Nat.log2 x.toNat

/-- The number of zero bits below the lowest set one. -/
def trailingZeros (x : BitVec 64) : Nat := ((List.range 64).find? x.getLsbD).getD 64

variable {x : BitVec 64}

theorem toNat_lt_of_le_leadingZeros {l : Nat} (h : l ≤ leadingZeros x) : x.toNat < 2 ^ (64 - l) := by
  rw [leadingZeros] at h
  by_cases hx : x = 0
  · simp [hx]
  · rw [if_neg hx] at h
    have hne : x.toNat ≠ 0 := fun h0 => hx (BitVec.eq_of_toNat_eq h0)
    have hlog : Nat.log2 x.toNat < 64 := (log2_lt hne).mpr x.isLt
    exact (log2_lt hne).mp (by omega)

theorem getLsbD_of_lt_trailingZeros {i : Nat} (h : i < trailingZeros x) : x.getLsbD i = false := by
  rw [trailingZeros] at h
  cases hf : (List.range 64).find? x.getLsbD with
  | none =>
    rw [hf] at h
    have := find?_eq_none.mp hf i (mem_range.mpr h)
    simpa using this
  | some k =>
    rw [hf] at h
    rw [find?_range_eq_some] at hf
    simpa using hf.2.2 i h

/-- A word other than zero has a bit between its leading and trailing zeros. -/
theorem leadingZeros_add_trailingZeros (hx : x ≠ 0) : leadingZeros x + trailingZeros x ≤ 63 := by
  have hne : x.toNat ≠ 0 := fun h0 => hx (BitVec.eq_of_toNat_eq h0)
  have htop : x.getLsbD (Nat.log2 x.toNat) = true := testBit_log2 hne
  have hle : trailingZeros x ≤ Nat.log2 x.toNat := by
    by_contra hlt
    rw [getLsbD_of_lt_trailingZeros (by omega)] at htop
    exact absurd htop (by decide)
  have hlog : Nat.log2 x.toNat < 64 := (log2_lt hne).mpr x.isLt
  rw [leadingZeros, if_neg hx]
  omega

theorem shiftRight_shiftLeft_of_le {t : Nat} (h : t ≤ trailingZeros x) : x >>> t <<< t = x := by
  apply BitVec.eq_of_getLsbD_eq
  intro i hi
  by_cases hit : i < t
  · simp [hit, getLsbD_of_lt_trailingZeros (show i < trailingZeros x by omega)]
  · simp [hi, hit, show t + (i - t) = i by omega]

theorem toNat_shiftRight_lt {l t : Nat} (hl : l ≤ leadingZeros x)
    (hlt : l + t ≤ 64) : (x >>> t).toNat < 2 ^ (64 - l - t) := by
  rw [BitVec.toNat_ushiftRight, Nat.shiftRight_eq_div_pow]
  apply Nat.div_lt_of_lt_mul
  rw [← Nat.pow_add, show t + (64 - l - t) = 64 - l by omega]
  exact toNat_lt_of_le_leadingZeros hl

/-! ### Bits of bytes -/

def byteBits (b : BitVec 8) : List Bool := bitsBE 8 b.toNat

def bytesBits (bs : List (BitVec 8)) : List Bool := bs.flatMap byteBits

@[simp] theorem length_byteBits (b : BitVec 8) : (byteBits b).length = 8 := length_bitsBE 8 _

@[simp] theorem bytesBits_nil : bytesBits [] = [] := rfl

@[simp] theorem bytesBits_cons (b : BitVec 8) (bs : List (BitVec 8)) : bytesBits (b :: bs) = byteBits b ++
    bytesBits bs := rfl

@[simp] theorem bytesBits_append (as bs : List (BitVec 8)) : bytesBits (as ++ bs) = bytesBits as ++ bytesBits bs := by
  simp [bytesBits]

@[simp] theorem length_bytesBits (bs : List (BitVec 8)) : (bytesBits bs).length = 8 * bs.length := by
  induction bs with
  | nil => rfl
  | cons b bs ih => simp [ih]; omega

/-- The `k` low bytes of a 64-bit word, most significant byte first. -/
def beBytes : Nat → BitVec 64 → List (BitVec 8)
  | 0, _ => []
  | k + 1, u => (u >>> (8 * k)).setWidth 8 :: beBytes k u

/-- The word whose big-endian bytes are given. -/
def fromBeBytes (bs : List (BitVec 8)) : BitVec 64 :=
  bs.foldl (fun acc b => acc <<< 8 ||| b.setWidth 64) 0

@[simp] theorem length_beBytes (k : Nat) (u : BitVec 64) : (beBytes k u).length = k := by
  induction k with
  | zero => rfl
  | succ k ih => simp [beBytes, ih]

theorem bytesBits_beBytes (k : Nat) (u : BitVec 64) : bytesBits (beBytes k u) = bitsBE (8 * k) u.toNat := by
  induction k with
  | zero => rfl
  | succ k ih =>
    rw [beBytes, bytesBits_cons, ih, show 8 * (k + 1) = 8 + 8 * k by omega, bitsBE_add]
    congr 1
    rw [byteBits, BitVec.toNat_setWidth, bitsBE_mod, BitVec.toNat_ushiftRight]

/-- Taking the leading bytes of a word is taking the low bytes of a shifted one. -/
theorem take_beBytes (j k : Nat) (u : BitVec 64) : (beBytes (j + k) u).take j = beBytes j (u >>> (8 * k)) := by
  induction j with
  | zero => rfl
  | succ j ih =>
    rw [show j + 1 + k = (j + k) + 1 by omega, beBytes, beBytes, take_succ_cons, ih]
    congr 2
    rw [← BitVec.shiftRight_add, show 8 * k + 8 * j = 8 * (j + k) by omega]

theorem toNat_fromBeBytes (bs : List (BitVec 8)) (h : bs.length ≤ 8) :
    (fromBeBytes bs).toNat = ofBitsBE (bytesBits bs) := by
  induction bs using List.reverseRecOn with
  | nil => rfl
  | append_singleton bs b ih =>
    have hlen : bs.length < 8 := by simpa using h
    have hlt := ofBitsBE_lt (bytesBits bs)
    rw [length_bytesBits] at hlt
    have hpow : 2 ^ (8 * bs.length) ≤ 2 ^ 56 := Nat.pow_le_pow_right (by omega) (by omega)
    have hb : b.toNat < 2 ^ 8 := b.isLt
    rw [fromBeBytes, foldl_append, foldl_cons, foldl_nil, ← fromBeBytes,
      BitVec.toNat_or, BitVec.toNat_shiftLeft, ih (by omega), BitVec.toNat_setWidth,
      mod_eq_of_lt (show b.toNat < 2 ^ 64 by omega), shiftLeft_eq,
      mod_eq_of_lt (by omega), ← shiftLeft_eq, ← shiftLeft_add_eq_or_of_lt hb,
      shiftLeft_eq, bytesBits_append, ofBitsBE_append]
    rw [show bytesBits [b] = byteBits b by simp, length_byteBits, byteBits, ofBitsBE_bitsBE_of_lt hb]

end Bits
