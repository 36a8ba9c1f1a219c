/-
Common/Sample.lean

Samples, as in `common/types.rs`, and the errors of `error.rs` the chunks use.

Design.  A timestamp is an `i64` of milliseconds, modelled by `Int`; the commands accept the `ValidTs` ones.
A value is an `f64`, modelled by its 64-bit pattern, which also decides comparisons; arithmetic on doubles is
a parameter.
-/
import ValkeyTimeSeries.Stream.Varbit

namespace ValkeyTimeSeries

/-! ### Timestamps -/

def i64Max : Int := 2 ^ 63 - 1

def i64Min : Int := -2 ^ 63

/-- The timestamps a command accepts: an `i64` that is not negative. -/
def ValidTs (t : Int) : Prop := 0 ≤ t ∧ t ≤ i64Max

instance (t : Int) : Decidable (ValidTs t) := inferInstanceAs (Decidable (_ ∧ _))

theorem toInt_asU64 {t : Int} (hlo : i64Min ≤ t) (hhi : t ≤ i64Max) : (asU64 t).toInt = t := by
  rw [i64Min] at hlo
  rw [i64Max] at hhi
  rw [asU64, BitVec.toInt_ofInt, Int.bmod_eq_of_le (by omega) (by omega)]

theorem toNat_asU64 {t : Int} (h : ValidTs t) : ((asU64 t).toNat : Int) = t := by
  obtain ⟨hlo, hhi⟩ := h
  rw [i64Max] at hhi
  rw [asU64, BitVec.toNat_ofInt, Int.emod_eq_of_lt hlo (by omega), Int.toNat_of_nonneg hlo]

/-! ### Doubles -/

/-- The bit pattern of an `f64`. -/
abbrev F64 := BitVec 64

namespace F64

/-- The magnitude of a double: its pattern without the sign bit. -/
def magnitude (x : F64) : Nat := x.toNat % 2 ^ 63

def isNaN (x : F64) : Bool := decide (0x7FF0000000000000 < magnitude x)

def isFinite (x : F64) : Bool := decide (magnitude x < 0x7FF0000000000000)

/-- Doubles that are not NaN compare like signed magnitudes; the two zeros have
the same one. -/
def rank (x : F64) : Int := if x.msb then -(magnitude x : Int) else magnitude x

def eq (a b : F64) : Bool := !isNaN a && !isNaN b && decide (rank a = rank b)

def lt (a b : F64) : Bool := !isNaN a && !isNaN b && decide (rank a < rank b)

def le (a b : F64) : Bool := !isNaN a && !isNaN b && decide (rank a ≤ rank b)

theorem toNat_eq_magnitude (x : F64) : x.toNat = magnitude x + if x.msb then 2 ^ 63 else 0 := by
  rw [magnitude, BitVec.msb_eq_decide]
  simp only [decide_eq_true_eq]
  split <;> omega

theorem eq_of_eq_of_rank_ne_zero {a b : F64} (h : eq a b = true) (hb : rank b ≠ 0) : a = b := by
  simp only [eq, Bool.and_eq_true, decide_eq_true_eq] at h
  have hrank := h.2
  apply BitVec.eq_of_toNat_eq
  rw [toNat_eq_magnitude a, toNat_eq_magnitude b]
  simp only [rank] at hrank hb
  -- opposite signs would make both magnitudes zero
  cases ha : a.msb <;> cases hb' : b.msb <;> simp only [ha, hb', if_true, Bool.false_eq_true, if_false] at * <;>
    omega

end F64

/-! ### Samples -/

structure Sample where
  timestamp : Int
  value : F64
deriving DecidableEq, Repr

instance : Inhabited Sample := ⟨⟨0, 0⟩⟩

namespace Sample

/-- `PartialEq for Sample`: same time, and values equal as doubles or both NaN. -/
def eq (a b : Sample) : Bool :=
  decide (a.timestamp = b.timestamp)
    && if a.value.isNaN then b.value.isNaN else F64.eq a.value b.value

end Sample

/-- The samples of a list are in strictly increasing time order. -/
def Increasing (l : List Sample) : Prop := l.Pairwise (·.timestamp < ·.timestamp)

def ValidTimes (l : List Sample) : Prop := ∀ s ∈ l, ValidTs s.timestamp

instance (l : List Sample) : Decidable (Increasing l) := inferInstanceAs (Decidable (l.Pairwise _))

instance (l : List Sample) : Decidable (ValidTimes l) := inferInstanceAs (Decidable (∀ s ∈ l, _))

/-! ### Errors -/

inductive TsdbError where
  | capacityFull (max : Nat)
  | decodingError (what : String)
  | duplicateSample (what : String)
  | chunkDecoding
  | cannotAddSample (sample : Sample)
  | removeRangeError
  | chunkSplitError
  | invalidConfiguration (what : String)
  | general (what : String)
deriving DecidableEq, Repr

/-- The items of an iterator of `TsdbResult<Sample>`: the samples it yields, and
the error it stops at if there is one. -/
abbrev Decoded := List Sample × Option TsdbError

end ValkeyTimeSeries
