/-
Library/RangeMap.lean

Maps from numbers that are held as runs of neighbouring keys with one value.

Design.  The runs stand in order and no key is in two of them; the structure carries this, so a lookup may
stop at the first run that has the key.  The meaning of the map is `get`, and `get_insert` says that a later
insert wins.  `ranges` forgets the values and joins the runs that touch; a set is a map to `Unit`.
-/
import Mathlib

variable {V : Type*}

structure Run (V : Type*) where
  lo : Nat
  hi : Nat
  value : V
deriving DecidableEq, Repr

namespace Run

def OrderedFrom : Nat → List (Run V) → Prop
  | _, [] => True
  | n, r :: runs => n ≤ r.lo ∧ r.lo ≤ r.hi ∧ OrderedFrom (r.hi + 1) runs

variable {runs : List (Run V)}

theorem OrderedFrom.mono {m n : Nat} (h : OrderedFrom n runs) (hmn : m ≤ n) : OrderedFrom m runs := by
  cases runs with
  | nil => trivial
  | cons r runs => exact ⟨hmn.trans h.1, h.2⟩

def lookup : List (Run V) → Nat → Option V
  | [], _ => none
  | r :: runs, k => if r.lo ≤ k ∧ k ≤ r.hi then some r.value else lookup runs k

/-- The runs with the keys from `lo` to `hi` set to `v`. -/
def overwrite (lo hi : Nat) (v : V) : List (Run V) → List (Run V)
  | [] => [⟨lo, hi, v⟩]
  | r :: runs =>
    if r.hi < lo then r :: overwrite lo hi v runs
    else if hi < r.lo then ⟨lo, hi, v⟩ :: r :: runs
    else
      -- what is left of the run before and behind the new one
      let before := if r.lo < lo then [⟨r.lo, lo - 1, r.value⟩] else []
      before ++ if hi < r.hi then ⟨lo, hi, v⟩ :: ⟨hi + 1, r.hi, r.value⟩ :: runs else overwrite lo hi v runs

theorem lookup_overwrite {lo hi : Nat} (v : V) (runs : List (Run V)) (k : Nat) :
    lookup (overwrite lo hi v runs) k = if lo ≤ k ∧ k ≤ hi then some v else lookup runs k := by
  induction runs with
  | nil => rfl
  | cons r runs ih =>
    unfold overwrite
    split_ifs with hbefore hbehind hleft hright hright <;>
      simp only [List.cons_append, List.nil_append, lookup, ih] <;> split_ifs <;> first | rfl | omega

theorem OrderedFrom.overwrite {n lo hi : Nat} (h : OrderedFrom n runs) (hn : n ≤ lo)
    (hle : lo ≤ hi) (v : V) : OrderedFrom n (Run.overwrite lo hi v runs) := by
  induction runs generalizing n with
  | nil => exact ⟨hn, hle, trivial⟩
  | cons r runs ih =>
    obtain ⟨hlo, hhi, hrest⟩ := h
    unfold Run.overwrite
    split_ifs with hbefore hbehind hleft hright hright
    · exact ⟨hlo, hhi, ih hrest (by omega)⟩
    · exact ⟨hn, hle, by simp only; omega, hhi, hrest⟩
    · exact ⟨hlo, by simp only; omega, by simp only; omega, hle, le_refl _, by simp only; omega, hrest⟩
    · refine ⟨hlo, by simp only; omega, ?_⟩
      have hrun := ih (hrest.mono (m := lo) (by omega)) le_rfl
      exact hrun.mono (by simp only; omega)
    · exact ⟨hn, hle, le_refl _, by simp only; omega, hrest⟩
    · exact ih (hrest.mono (by omega)) hn

/-- The keys of the runs; runs that touch are one. -/
def keys : List (Run V) → List (Run Unit)
  | [] => []
  | r :: runs =>
    match keys runs with
    | [] => [⟨r.lo, r.hi, ()⟩]
    | next :: rest =>
      if r.hi + 1 = next.lo then ⟨r.lo, next.hi, ()⟩ :: rest else ⟨r.lo, r.hi, ()⟩ :: next :: rest

theorem OrderedFrom.keys {n : Nat} (h : OrderedFrom n runs) : OrderedFrom n (keys runs) := by
  induction runs generalizing n with
  | nil => trivial
  | cons r runs ih =>
    obtain ⟨hlo, hhi, hrest⟩ := h
    have hkeys := ih hrest
    unfold Run.keys
    split
    · exact ⟨hlo, hhi, trivial⟩
    next next rest heq =>
      rw [heq] at hkeys
      obtain ⟨hnext, hnexthi, hnextrest⟩ := hkeys
      split_ifs with htouch
      · exact ⟨hlo, by simp only; omega, hnextrest⟩
      · exact ⟨hlo, hhi, hnext, hnexthi, hnextrest⟩

theorem OrderedFrom.lookup_keys {n : Nat} (h : OrderedFrom n runs) (k : Nat) :
    lookup (Run.keys runs) k = (lookup runs k).map fun _ => () := by
  induction runs generalizing n with
  | nil => rfl
  | cons r runs ih =>
    obtain ⟨hlo, hhi, hrest⟩ := h
    have hkeys := hrest.keys
    have hlookup := ih hrest
    unfold Run.keys
    rw [lookup, apply_ite (Option.map _), ← hlookup]
    split
    next heq => rw [heq]; rfl
    next next rest heq =>
      rw [heq] at hkeys ⊢
      obtain ⟨hnext, hnexthi, -⟩ := hkeys
      split_ifs with htouch <;> simp only [lookup] <;> split_ifs <;> first | rfl | omega

end Run

structure RangeMap (V : Type*) where
  runs : List (Run V)
  ordered : Run.OrderedFrom 0 runs

abbrev RangeSet := RangeMap Unit

namespace RangeMap

def empty : RangeMap V := ⟨[], trivial⟩

def isEmpty (m : RangeMap V) : Bool := m.runs.isEmpty

def get (m : RangeMap V) (k : Nat) : Option V := Run.lookup m.runs k

/-- The keys from `lo` to `hi` set to `v`; none if `lo` is behind `hi`. -/
def insert (m : RangeMap V) (lo hi : Nat) (v : V) : RangeMap V :=
  if h : lo ≤ hi then ⟨Run.overwrite lo hi v m.runs, m.ordered.overwrite (Nat.zero_le _) h v⟩ else m

def ranges (m : RangeMap V) : List (Run Unit) := Run.keys m.runs

theorem ordered_ranges (m : RangeMap V) : Run.OrderedFrom 0 m.ranges := m.ordered.keys

@[simp] theorem get_empty (k : Nat) : (empty : RangeMap V).get k = none := rfl

@[simp] theorem get_insert (m : RangeMap V) (lo hi : Nat) (v : V) (k : Nat) :
    (m.insert lo hi v).get k = if lo ≤ k ∧ k ≤ hi then some v else m.get k := by
  unfold insert
  split_ifs with hle hin
  · exact (Run.lookup_overwrite v m.runs k).trans (if_pos hin)
  · exact (Run.lookup_overwrite v m.runs k).trans (if_neg hin)
  · omega
  · rfl

theorem lookup_ranges (m : RangeMap V) (k : Nat) : Run.lookup m.ranges k = (m.get k).map fun _ => () :=
  m.ordered.lookup_keys k

end RangeMap
