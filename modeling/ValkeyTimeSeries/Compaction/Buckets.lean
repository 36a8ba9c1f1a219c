/-
Compaction/Buckets.lean

Aggregation buckets: `calc_bucket_start` of `aggregators/mod.rs`, and the bucket boundaries of a compaction
rule.

Design.  The code computes in `i64`, so each operation that can leave its range wraps, and the end of a bucket
saturates.  With a duration of at most `2 ^ 62` milliseconds nothing wraps; of a bucket that does not end in
the range of `i64` (`Fits`), the code computes an end that equals its start.
-/
import ValkeyTimeSeries.Series.Roomy
import ValkeyTimeSeries.Series.SampleMerge

namespace ValkeyTimeSeries

/-- Release arithmetic on `i64`. -/
def wrapI64 (x : Int) : Int := x.bmod (2 ^ 64)

def saturatingAddUnsigned (x : Int) (n : Nat) : Int := min i64Max (x + n)

def calcBucketStart (ts alignTimestamp : Int) (bucketDuration : Nat) : Int :=
  let diff := wrapI64 (ts - alignTimestamp)
  let delta := wrapI64 bucketDuration
  max 0 (wrapI64 (ts - (wrapI64 (diff.tmod delta + delta)).tmod delta))

/-- The parameters of a rule that cut time into buckets, as its command accepts them. -/
structure Bucketing where
  bucketDuration : Nat
  alignTimestamp : Int
  duration_pos : 0 < bucketDuration
  duration_le : (bucketDuration : Int) ≤ i64Max
  align_valid : ValidTs alignTimestamp
deriving DecidableEq, Repr

def tenMillis : Bucketing := ⟨10, 0, by decide, by decide, by decide⟩

theorem wrapI64_eq {x : Int} (hlo : i64Min ≤ x) (hhi : x ≤ i64Max) : wrapI64 x = x := by
  rw [i64Min] at hlo
  rw [i64Max] at hhi
  exact Int.bmod_eq_of_le (by omega) (by omega)

namespace Bucketing

variable (b : Bucketing)

def calcBucketStart (ts : Int) : Int :=
  ValkeyTimeSeries.calcBucketStart ts b.alignTimestamp b.bucketDuration

/-- Exclusive end of the bucket that starts at `bucketStart`. -/
def bucketEnd (bucketStart : Int) : Int :=
  b.calcBucketStart (saturatingAddUnsigned bucketStart b.bucketDuration)

def getBucketRange (ts : Int) : Int × Int :=
  let start := b.calcBucketStart ts
  (start, b.bucketEnd start)

/-! ### The grid -/

/-- The point of the grid at or before a timestamp; it may be negative. -/
def floor (t : Int) : Int := t - (t - b.alignTimestamp) % b.bucketDuration

/-- No duration that makes the `i64` arithmetic wrap. -/
def NoWrap : Prop := b.bucketDuration ≤ 2 ^ 62

/-- The bucket of a timestamp ends in the range of `i64`. -/
def Fits (t : Int) : Prop := b.calcBucketStart t + b.bucketDuration ≤ i64Max

instance : Decidable b.NoWrap := inferInstanceAs (Decidable (_ ≤ _))

instance (t : Int) : Decidable (b.Fits t) := inferInstanceAs (Decidable (_ ≤ _))

variable {b} {t u : Int}

theorem floor_le (b : Bucketing) (t : Int) : b.floor t ≤ t := by
  have hpos := b.duration_pos
  have := Int.emod_nonneg (t - b.alignTimestamp) (b := b.bucketDuration) (by omega)
  rw [floor]
  omega

theorem lt_floor_add (b : Bucketing) (t : Int) : t < b.floor t + b.bucketDuration := by
  have hpos := b.duration_pos
  have := Int.emod_lt_of_pos (t - b.alignTimestamp) (b := b.bucketDuration) (by omega)
  rw [floor]
  omega

theorem floor_eq (h : b.floor t ≤ u) (h' : u < b.floor t + b.bucketDuration) : b.floor u = b.floor t := by
  have hdiv := Int.mul_ediv_add_emod (t - b.alignTimestamp) b.bucketDuration
  have hu : u - b.alignTimestamp
      = (u - b.floor t) + b.bucketDuration * ((t - b.alignTimestamp) / b.bucketDuration) := by
    rw [floor]
    omega
  have hmod : (u - b.alignTimestamp) % b.bucketDuration = u - b.floor t := by
    rw [hu, Int.add_mul_emod_self_left]
    exact Int.emod_eq_of_lt (by omega) (by omega)
  rw [floor, hmod]
  omega

theorem floor_mono (h : t ≤ u) : b.floor t ≤ b.floor u := by
  by_cases hu : u < b.floor t + b.bucketDuration
  · rw [floor_eq ((b.floor_le t).trans h) hu]
  · have := b.lt_floor_add u
    by_contra hlt
    omega

theorem floor_add (b : Bucketing) (t : Int) : b.floor (t + b.bucketDuration) = b.floor t + b.bucketDuration := by
  have hshift : t + b.bucketDuration - b.alignTimestamp = t - b.alignTimestamp + b.bucketDuration := by omega
  rw [floor, floor, hshift, Int.add_emod_right]
  omega

theorem calcBucketStart_eq (hd : b.NoWrap) (ht : ValidTs t) : b.calcBucketStart t = max 0 (b.floor t) := by
  have hpos := b.duration_pos
  have hle := b.duration_le
  obtain ⟨halo, hahi⟩ := b.align_valid
  obtain ⟨hlo, hhi⟩ := ht
  rw [NoWrap] at hd
  have hmax : i64Max = 2 ^ 63 - 1 := rfl
  have hmin : i64Min = -2 ^ 63 := rfl
  have hdiff : wrapI64 (t - b.alignTimestamp) = t - b.alignTimestamp := wrapI64_eq (by omega) (by omega)
  have hdelta : wrapI64 b.bucketDuration = b.bucketDuration := wrapI64_eq (by omega) hle
  have htlo := Int.lt_tmod_of_pos (t - b.alignTimestamp) (b := b.bucketDuration) (by omega)
  have hthi := Int.tmod_lt_of_pos (t - b.alignTimestamp) (b := b.bucketDuration) (by omega)
  have hsum : wrapI64 ((t - b.alignTimestamp).tmod b.bucketDuration + b.bucketDuration)
      = (t - b.alignTimestamp).tmod b.bucketDuration + b.bucketDuration := wrapI64_eq (by omega) (by omega)
  -- the remainder brought into `0 .. d` is the mathematical one
  have hmod : ((t - b.alignTimestamp).tmod b.bucketDuration + b.bucketDuration).tmod b.bucketDuration
      = (t - b.alignTimestamp) % b.bucketDuration := by
    have htdiv := Int.mul_tdiv_add_tmod (t - b.alignTimestamp) b.bucketDuration
    have hrem : (t - b.alignTimestamp).tmod b.bucketDuration + b.bucketDuration
        = (t - b.alignTimestamp) + b.bucketDuration * (1 - (t - b.alignTimestamp).tdiv b.bucketDuration) := by
      rw [Int.mul_sub, Int.mul_one]
      omega
    rw [Int.tmod_eq_emod_of_nonneg (by omega), hrem, Int.add_mul_emod_self_left]
  have hfloor := b.floor_le t
  have hgrid := b.lt_floor_add t
  have hlast : wrapI64 (t - (t - b.alignTimestamp) % b.bucketDuration)
      = t - (t - b.alignTimestamp) % b.bucketDuration := by
    rw [floor] at hfloor hgrid
    exact wrapI64_eq (by omega) (by omega)
  rw [calcBucketStart, ValkeyTimeSeries.calcBucketStart, hdiff, hdelta, hsum, hmod, hlast, floor]

/-! ### Buckets -/

section

variable (hd : b.NoWrap) (ht : ValidTs t)

include hd ht

theorem calcBucketStart_valid : ValidTs (b.calcBucketStart t) := by
  obtain ⟨hlo, hhi⟩ := ht
  have := b.floor_le t
  rw [calcBucketStart_eq hd ⟨hlo, hhi⟩]
  exact ⟨by omega, by omega⟩

theorem calcBucketStart_le : b.calcBucketStart t ≤ t := by
  have := b.floor_le t
  have := ht.1
  rw [calcBucketStart_eq hd ht]
  omega

theorem calcBucketStart_mono (hu : ValidTs u) (h : t ≤ u) : b.calcBucketStart t ≤ b.calcBucketStart u := by
  have := floor_mono (b := b) h
  rw [calcBucketStart_eq hd ht, calcBucketStart_eq hd hu]
  omega

theorem calcBucketStart_self : b.calcBucketStart (b.calcBucketStart t) = b.calcBucketStart t := by
  have hvalid := calcBucketStart_valid hd ht
  have hle := b.floor_le t
  have hlt := b.lt_floor_add t
  have h0 := ht.1
  have hcell := floor_eq (b := b) (t := t) (u := b.calcBucketStart t)
    (by rw [calcBucketStart_eq hd ht]; omega) (by rw [calcBucketStart_eq hd ht]; omega)
  rw [calcBucketStart_eq hd hvalid, hcell, ← calcBucketStart_eq hd ht]

theorem bucketEnd_of_fits (hfit : b.Fits t) : b.bucketEnd (b.calcBucketStart t) = b.floor t + b.bucketDuration := by
  have hle := b.floor_le t
  have hlt := b.lt_floor_add t
  have h0 := ht.1
  obtain ⟨hk0, -⟩ := calcBucketStart_valid hd ht
  have hcell := floor_eq (b := b) (t := t) (u := b.calcBucketStart t)
    (by rw [calcBucketStart_eq hd ht]; omega) (by rw [calcBucketStart_eq hd ht]; omega)
  rw [bucketEnd, saturatingAddUnsigned, min_eq_right hfit, calcBucketStart_eq hd ⟨by omega, hfit⟩, floor_add, hcell]
  omega

theorem calcBucketStart_eq_iff (hfit : b.Fits t) (hu : ValidTs u) : b.calcBucketStart u = b.calcBucketStart t
    ↔ b.calcBucketStart t ≤ u ∧ u < b.bucketEnd (b.calcBucketStart t) := by
  have hlt := b.lt_floor_add t
  have hle' := b.floor_le u
  have hlt' := b.lt_floor_add u
  have h0 := ht.1
  rw [bucketEnd_of_fits hd ht hfit]
  constructor
  · intro heq
    refine ⟨heq ▸ calcBucketStart_le hd hu, ?_⟩
    by_contra hge
    -- a later cell starts after zero
    have hmono := floor_mono (b := b) (t := b.floor t + b.bucketDuration) (u := u) (by omega)
    have hcell := floor_eq (b := b) (t := t) (u := b.floor t) le_rfl (by omega)
    rw [floor_add, hcell] at hmono
    rw [calcBucketStart_eq hd ht, calcBucketStart_eq hd hu] at heq
    omega
  · rintro ⟨hge, hlt''⟩
    have hcell := floor_eq (b := b) (t := t) (u := u)
      (by rw [calcBucketStart_eq hd ht] at hge; omega) hlt''
    rw [calcBucketStart_eq hd ht, calcBucketStart_eq hd hu, hcell]

theorem calcBucketStart_lt_bucketEnd (hfit : b.Fits t) : b.calcBucketStart t < b.bucketEnd (b.calcBucketStart t) :=
  ((calcBucketStart_eq_iff hd ht hfit (calcBucketStart_valid hd ht)).mp (calcBucketStart_self hd ht)).2

theorem bucketEnd_of_not_fits (hfit : ¬ b.Fits t) : b.bucketEnd (b.calcBucketStart t) = b.calcBucketStart t := by
  have hle := b.duration_le
  have hhi := ht.2
  have hfl := b.floor_le t
  rw [Fits, not_le] at hfit
  have hmax : ValidTs i64Max := ⟨by decide, le_rfl⟩
  -- the start is on the grid, for else it would be zero and the duration would fit
  have hgrid : b.calcBucketStart t = b.floor t := by
    rw [calcBucketStart_eq hd ht] at hfit ⊢
    omega
  have hcell := floor_eq (b := b) (t := t) (u := i64Max) (by omega) (by omega)
  rw [bucketEnd, saturatingAddUnsigned, min_eq_left hfit.le, calcBucketStart_eq hd hmax, hcell,
    ← calcBucketStart_eq hd ht]

theorem fits_of_lt (hu : ValidTs u) (h : b.calcBucketStart t < b.calcBucketStart u) : b.Fits t := by
  by_contra hfit
  have hend := bucketEnd_of_not_fits hd ht hfit
  rw [Fits, not_le] at hfit
  rw [bucketEnd, saturatingAddUnsigned, min_eq_left hfit.le] at hend
  have := calcBucketStart_mono (b := b) hd hu ⟨hu.1.trans hu.2, le_rfl⟩ hu.2
  omega

theorem bucketEnd_le_of_lt (hfit : b.Fits t) (hu : ValidTs u) (h : b.calcBucketStart t < b.calcBucketStart u) :
    b.bucketEnd (b.calcBucketStart t) ≤ b.calcBucketStart u := by
  have hk := calcBucketStart_valid hd hu
  by_contra hlt
  have heq := (calcBucketStart_eq_iff hd ht hfit hk).mpr ⟨h.le, not_le.mp hlt⟩
  rw [calcBucketStart_self hd hu] at heq
  omega

end

end Bucketing

end ValkeyTimeSeries
