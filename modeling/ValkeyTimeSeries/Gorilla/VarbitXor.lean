/-
Gorilla/VarbitXor.lean

The XOR encoding of values, `series/chunks/gorilla/varbit_xor.rs`.

Design.  A value is written as the XOR with its predecessor, cut to a window
of significant bits given by a number of leading and of trailing zeros.  The
writer starts without a window (leading count `0xff`) and the reader with the
window `(0, 0)`, so the two sides do not hold the same state; they agree as
soon as the writer has a window (`WindowSync`), and the writer asks for the
previous window only then.
-/
import ValkeyTimeSeries.Common.Sample

namespace ValkeyTimeSeries

open Bits Codec BitVec BitStreamReader

/-- The window of significant bits: how many leading and trailing zeros it
leaves out.  A leading count of `0xff` stands for no window. -/
structure XorWindow where
  leading : Nat
  trailing : Nat
deriving DecidableEq, Repr

def newWindow (delta : BitVec 64) : XorWindow :=
  -- the leading count has five bits
  ⟨if leadingZeros delta ≥ 32 then 31 else leadingZeros delta, trailingZeros delta⟩

def reuses (previous : XorWindow) (delta : BitVec 64) : Prop :=
  previous.leading ≠ 0xff ∧ (newWindow delta).leading ≥ previous.leading
    ∧ (newWindow delta).trailing ≥ previous.trailing

instance (previous : XorWindow) (delta : BitVec 64) : Decidable (reuses previous delta) :=
  inferInstanceAs (Decidable (_ ∧ _ ∧ _))

def writeVarbitXor (value previousValue : F64) (previous : XorWindow) (w : BitStream) :
    BitStream × XorWindow :=
  let delta := value ^^^ previousValue
  if delta = 0 then (w.writeBitRaw false, previous)
  else if reuses previous delta then
    let sig := 64 - previous.leading - previous.trailing
    let payload := delta >>> previous.trailing
    if sig ≤ 62 then (w.writeBits (2 + sig) ((0b10 : BitVec 64) <<< sig ||| payload), previous)
    else ((w.writeBits 2 0b10).writeBits sig payload, previous)
  else
    let window := newWindow delta
    let sig := 64 - window.leading - window.trailing
    -- only six bits are available for the width: 64 is written as 0
    let encodedSigBits := if sig > 63 then 0 else sig
    let header :=
      (0b11 : BitVec 64) <<< 11 ||| BitVec.ofNat 64 window.leading <<< 6 ||| BitVec.ofNat 64 encodedSigBits
    let payload := delta >>> window.trailing
    if sig ≤ 51 then (w.writeBits (13 + sig) (header <<< sig ||| payload), window)
    else ((w.writeBits 13 header).writeBits sig payload, window)

def readLeadingBitsCount : BitReader Nat := BitVec.toNat <$> BitStreamReader.readBits 5

def readMiddleBitsCount : BitReader Nat := do
  let middleBitsCount ← BitVec.toNat <$> BitStreamReader.readBits 6
  pure (if middleBitsCount = 0 then 64 else middleBitsCount)

/-- The payload of a window, XORed on the previous value. -/
def readXorPayload (previousValue : F64) (window : XorWindow) (middle : Nat) :
    BitReader (F64 × XorWindow) := do
  let valueBits ← BitStreamReader.readBits middle
  pure (previousValue ^^^ valueBits <<< window.trailing, window)

def readVarbitXor (previousValue : F64) (previous : XorWindow) :
    BitReader (F64 × XorWindow) := do
  let differentValueBit ← BitStreamReader.readBit
  if !differentValueBit then pure (previousValue, previous)
  else
    let differentWindow ← BitStreamReader.readBit
    if differentWindow then
      let leading ← readLeadingBitsCount
      let middle ← readMiddleBitsCount
      if leading + middle > 64 then
        fun _ => .error (.invalidData "corrupt gorilla chunk: leading + middle bit counts exceed 64")
      else readXorPayload previousValue ⟨leading, 64 - leading - middle⟩ middle
    else readXorPayload previousValue previous (64 - previous.leading - previous.trailing)

/-! ### The layout -/

/-- The window of a writer: none, or one that leaves at least one bit. -/
def XorWindow.Ok (w : XorWindow) : Prop :=
  w = ⟨0xff, 0⟩ ∨ w.leading ≤ 31 ∧ w.leading + w.trailing ≤ 63

/-- The reader's window agrees with the writer's, once the writer has one. -/
def WindowSync (writer reader : XorWindow) : Prop := writer.leading ≠ 0xff → reader = writer

def nextWindow (value previousValue : F64) (previous : XorWindow) : XorWindow :=
  let delta := value ^^^ previousValue
  if delta = 0 ∨ reuses previous delta then previous else newWindow delta

def xorBits (value previousValue : F64) (previous : XorWindow) : List Bool :=
  let delta := value ^^^ previousValue
  if delta = 0 then [false]
  else if reuses previous delta then
    [true, false] ++ bitsBE (64 - previous.leading - previous.trailing) (delta >>> previous.trailing).toNat
  else
    let window := newWindow delta
    let sig := 64 - window.leading - window.trailing
    [true, true] ++ bitsBE 5 window.leading ++ bitsBE 6 (if sig > 63 then 0 else sig)
      ++ bitsBE sig (delta >>> window.trailing).toNat

variable (value previousValue : F64)

theorem length_xorBits_le (previous : XorWindow) :
    (xorBits value previousValue previous).length ≤ 77 := by
  unfold xorBits
  dsimp only
  split_ifs <;> simp only [List.length_append, List.length_cons, List.length_nil, length_bitsBE] <;>
    omega

theorem newWindow_spec {delta : BitVec 64} (h : delta ≠ 0) :
    (newWindow delta).leading ≤ 31 ∧ (newWindow delta).leading ≤ leadingZeros delta
    ∧ (newWindow delta).leading + (newWindow delta).trailing ≤ 63 := by
  have := leadingZeros_add_trailingZeros h
  simp only [newWindow]
  split <;> omega

theorem newWindow_trailing (delta : BitVec 64) : (newWindow delta).trailing = trailingZeros delta := rfl

theorem nextWindow_ok {value previousValue : F64} {previous : XorWindow} (h : previous.Ok) :
    (nextWindow value previousValue previous).Ok := by
  rw [nextWindow]
  split
  · exact h
  · rename_i hnew
    have hspec := newWindow_spec (fun h0 => hnew (.inl h0))
    exact .inr ⟨hspec.1, hspec.2.2⟩

theorem reuses_spec {previous : XorWindow} {delta : BitVec 64} (hok : previous.Ok) (h : reuses previous delta) :
    previous.leading ≤ 31 ∧ previous.leading + previous.trailing ≤ 63
    ∧ previous.leading ≤ leadingZeros delta ∧ previous.trailing ≤ trailingZeros delta := by
  obtain ⟨hff, hl, ht⟩ := h
  rcases hok with rfl | ⟨hle, hsum⟩
  · exact absurd rfl hff
  · refine ⟨hle, hsum, ?_, ht⟩
    simp only [newWindow] at hl
    split at hl <;> omega

theorem bitsBE_header {leading width : Nat} (hl : leading ≤ 31) (hw : width ≤ 63) :
    bitsBE 13 ((0b11 : BitVec 64) <<< 11 ||| BitVec.ofNat 64 leading <<< 6
        ||| BitVec.ofNat 64 width).toNat
      = [true, true] ++ bitsBE 5 leading ++ bitsBE 6 width := by
  have hl' : (BitVec.ofNat 64 leading).toNat = leading := by
    rw [toNat_ofNat]
    omega
  have hw' : (BitVec.ofNat 64 width).toNat = width := by
    rw [toNat_ofNat]
    omega
  have hshift : (0b11 : BitVec 64) <<< 11 ||| BitVec.ofNat 64 leading <<< 6
      = ((0b11 : BitVec 64) <<< 5 ||| BitVec.ofNat 64 leading) <<< 6 := by
    rw [shiftLeft_or_distrib, ← shiftLeft_add]
  rw [hshift, bitsBE_concat 7 6 _ _ (by omega) (by rw [hw']; omega),
    bitsBE_concat 2 5 _ _ (by omega) (by rw [hl']; omega), hl', hw']
  rfl

theorem writeVarbitXor_writes (previous : XorWindow) (hok : previous.Ok) :
    Writes BitStream.Holds (fun w => (writeVarbitXor value previousValue previous w).1)
    (xorBits value previousValue previous) ∧ ∀ w, (writeVarbitXor value previousValue previous w).2
    = nextWindow value previousValue previous := by
  unfold writeVarbitXor xorBits nextWindow
  by_cases hdelta : value ^^^ previousValue = 0
  · simp only [hdelta, if_pos, true_or]
    exact ⟨BitStream.writeBitRaw_writes false, fun _ => trivial⟩
  by_cases hreuse : reuses previous (value ^^^ previousValue)
  · simp only [hdelta, hreuse, if_true, if_false]
    obtain ⟨h31, hsum, hl, -⟩ := reuses_spec hok hreuse
    have hpay := toNat_shiftRight_lt hl (t := previous.trailing) (by omega)
    split
    · exact ⟨BitStream.writeBits_concat (p := 2) (by omega) 0b10 hpay, fun _ => rfl⟩
    · exact ⟨BitStream.writeBits_writeBits (p := 2) (by omega) (by omega) 0b10 _, fun _ => rfl⟩
  · simp only [hdelta, hreuse, if_false]
    obtain ⟨h31, hl, hsum⟩ := newWindow_spec hdelta
    have hpay := toNat_shiftRight_lt hl (t := (newWindow (value ^^^ previousValue)).trailing)
      (by omega)
    rw [← bitsBE_header h31 (by split <;> omega)]
    split
    · exact ⟨BitStream.writeBits_concat (p := 13) (by omega) _ hpay, fun _ => rfl⟩
    · exact ⟨BitStream.writeBits_writeBits (p := 13) (by omega) (by omega) _ _, fun _ => rfl⟩

/-! ### Reading back -/

theorem readMiddleBitsCount_reads {sig : Nat} (hpos : 0 < sig) (hle : sig ≤ 64) :
    Reads BitStreamReader.Holds readMiddleBitsCount (bitsBE 6 (if sig > 63 then 0 else sig)) sig := by
  have hlt : (if sig > 63 then 0 else sig) < 2 ^ 6 := by split <;> omega
  generalize hn : (if sig > 63 then 0 else sig) = n at hlt
  have hv : (BitVec.ofNat 64 n).toNat = n := by
    rw [toNat_ofNat]
    omega
  have h := (readBits_of_lt (n := 6) (v := BitVec.ofNat 64 n) (by omega)
    (by rw [hv]; exact hlt)).map BitVec.toNat
  rw [hv] at h
  apply h.bind_pure
  rw [← hn]
  congr 1
  split <;> split <;> omega

theorem readLeadingBitsCount_reads {leading : Nat} (hl : leading ≤ 31) :
    Reads BitStreamReader.Holds readLeadingBitsCount (bitsBE 5 leading) leading := by
  have hv : (BitVec.ofNat 64 leading).toNat = leading := by
    rw [toNat_ofNat]
    omega
  have h := (readBits_of_lt (n := 5) (v := BitVec.ofNat 64 leading) (by omega)
    (by rw [hv]; omega)).map BitVec.toNat
  rwa [hv] at h

theorem readXorPayload_reads {value previousValue : F64} {window : XorWindow}
    (hsum : window.leading + window.trailing ≤ 63) (hl : window.leading ≤ leadingZeros (value ^^^ previousValue))
    (ht : window.trailing ≤ trailingZeros (value ^^^ previousValue)) : Reads BitStreamReader.Holds
    (readXorPayload previousValue window (64 - window.leading - window.trailing))
    (bitsBE (64 - window.leading - window.trailing)
    ((value ^^^ previousValue) >>> window.trailing).toNat) (value, window) := by
  apply (readBits_of_lt (by omega) (toNat_shiftRight_lt hl (by omega))).bind_pure
  rw [shiftRight_shiftLeft_of_le ht, BitVec.xor_comm value, ← xor_assoc, BitVec.xor_self, zero_xor]

theorem readVarbitXor_reads (previous reader : XorWindow) (hok : previous.Ok) (hsync : WindowSync previous reader) :
    ∃ window, WindowSync (nextWindow value previousValue previous) window
    ∧ Reads BitStreamReader.Holds (readVarbitXor previousValue reader)
    (xorBits value previousValue previous) (value, window) := by
  unfold xorBits nextWindow
  by_cases hdelta : value ^^^ previousValue = 0
  · obtain rfl : value = previousValue := BitVec.xor_eq_zero_iff.mp hdelta
    refine ⟨reader, by simpa using hsync, ?_⟩
    rw [if_pos hdelta]
    exact (readBit_reads false).bind_pure rfl
  by_cases hreuse : reuses previous (value ^^^ previousValue)
  · obtain ⟨-, hsum, hl, ht⟩ := reuses_spec hok hreuse
    obtain rfl : reader = previous := hsync hreuse.1
    refine ⟨reader, by simpa [hreuse] using hsync, ?_⟩
    rw [if_neg hdelta, if_pos hreuse]
    exact (readBit_reads true).bind
      ((readBit_reads false).bind (readXorPayload_reads hsum hl ht))
  · obtain ⟨h31, hl, hsum⟩ := newWindow_spec hdelta
    refine ⟨newWindow (value ^^^ previousValue), ?_, ?_⟩
    · rw [if_neg (not_or.mpr ⟨hdelta, hreuse⟩)]
      exact fun _ => rfl
    rw [if_neg hdelta, if_neg hreuse, List.append_assoc, List.append_assoc]
    refine (readBit_reads true).bind ((readBit_reads true).bind ((readLeadingBitsCount_reads h31).bind
        ((readMiddleBitsCount_reads (by omega) (by omega)).bind ?_)))
    have htrail : 64 - (newWindow (value ^^^ previousValue)).leading
        - (64 - (newWindow (value ^^^ previousValue)).leading - (newWindow (value ^^^ previousValue)).trailing)
        = (newWindow (value ^^^ previousValue)).trailing := by omega
    rw [if_neg (by omega), htrail]
    exact readXorPayload_reads hsum hl (newWindow_trailing _).le

end ValkeyTimeSeries
