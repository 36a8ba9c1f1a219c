/-
Library/Tally.lean

Sums over a finite family of which one member changes at a time.

When one party changes its state, the sum changes by that party's share and by nothing else (`sum_update`); a
party that contributes more than nothing makes the sum positive, and two parties contribute at least what they
contribute together.
-/
import Mathlib

namespace Tally

open Finset

variable {ι α M : Type} [Fintype ι] [DecidableEq ι]

section Update

variable [AddCommMonoid M]

/-- One member changes: its old share goes and its new share comes. -/
theorem sum_update (share : α → M) (state : ι → α) (i : ι) (x : α) :
    ∑ j, share (Function.update state i x j) + share (state i) = ∑ j, share (state j) + share x := by
  have hrest : ∑ j ∈ Finset.univ.erase i, share (Function.update state i x j) =
      ∑ j ∈ Finset.univ.erase i, share (state j) := by
    refine sum_congr rfl fun j hj => ?_
    rw [Function.update_of_ne (ne_of_mem_erase hj)]
  rw [← sum_erase_add _ _ (mem_univ i), hrest, Function.update_self, ← sum_erase_add _ _ (mem_univ i)]
  abel

end Update

variable (share : α → Nat) (state : ι → α)

omit [DecidableEq ι] in
theorem share_le_sum (i : ι) : share (state i) ≤ ∑ j, share (state j) :=
  single_le_sum (f := fun j => share (state j)) (fun _ _ => Nat.zero_le _) (mem_univ i)

theorem share_add_share_le_sum {i j : ι} (h : i ≠ j) : share (state i) + share (state j) ≤ ∑ k, share (state k) := by
  have hpair : ∑ k ∈ {i, j}, share (state k) = share (state i) + share (state j) := sum_pair h
  rw [← hpair]
  exact sum_le_sum_of_subset (subset_univ _)

end Tally
