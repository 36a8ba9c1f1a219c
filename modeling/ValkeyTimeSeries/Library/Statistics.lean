/-
Library/Statistics.lean

Statistics of a multiset of numbers, and how they follow those of its parts.

Mean and dispersion can be carried along as values arrive (Welford) and joined for two groups of values
(Chan); least and greatest values join by `min` and `max`.
-/
import Mathlib

namespace Statistics

open Multiset

/-! ### Least and greatest -/

section Order

variable {K : Type} [LinearOrder K] {s s' : Multiset K} {q q' : K}

def Least (s : Multiset K) (q : K) : Prop := IsLeast {x | x ∈ s} q

def Greatest (s : Multiset K) (q : K) : Prop := IsGreatest {x | x ∈ s} q

theorem Least.singleton (q : K) : Least {q} q := by
  refine ⟨mem_singleton_self q, fun x hx => ?_⟩
  exact (mem_singleton.mp hx).ge

theorem Greatest.singleton (q : K) : Greatest {q} q := by
  refine ⟨mem_singleton_self q, fun x hx => ?_⟩
  exact (mem_singleton.mp hx).le

theorem Least.add (h : Least s q) (h' : Least s' q') : Least (s + s') (min q q') := by
  refine ⟨?_, fun x hx => ?_⟩
  · rcases min_choice q q' with heq | heq
    · rw [heq]
      exact mem_add.mpr (.inl h.1)
    · rw [heq]
      exact mem_add.mpr (.inr h'.1)
  · rcases mem_add.mp hx with hx | hx
    · exact (min_le_left q q').trans (h.2 hx)
    · exact (min_le_right q q').trans (h'.2 hx)

theorem Greatest.add (h : Greatest s q) (h' : Greatest s' q') : Greatest (s + s') (max q q') := by
  refine ⟨?_, fun x hx => ?_⟩
  · rcases max_choice q q' with heq | heq
    · rw [heq]
      exact mem_add.mpr (.inl h.1)
    · rw [heq]
      exact mem_add.mpr (.inr h'.1)
  · rcases mem_add.mp hx with hx | hx
    · exact (h.2 hx).trans (le_max_left q q')
    · exact (h'.2 hx).trans (le_max_right q q')

theorem Least.cons (h : Least s q) (q' : K) : Least (q' ::ₘ s) (min q q') := by
  rw [← singleton_add, add_comm]
  exact h.add (Least.singleton q')

theorem Greatest.cons (h : Greatest s q) (q' : K) : Greatest (q' ::ₘ s) (max q q') := by
  rw [← singleton_add, add_comm]
  exact h.add (Greatest.singleton q')

end Order

/-! ### Mean and dispersion -/

section Dispersion

variable {K : Type} [Field K] [CharZero K] {s s' : Multiset K}

/-- The mean; of nothing it is zero. -/
def mean (s : Multiset K) : K := s.sum / s.card

/-- The sum of the squared deviations from the mean. -/
def dispersion (s : Multiset K) : K := (s.map (· ^ 2)).sum - s.sum ^ 2 / s.card

theorem mean_cons (q : K) (s : Multiset K) : mean s + (q - mean s) / ((s.card + 1 : Nat) : K) = mean (q ::ₘ s) := by
  simp only [mean, sum_cons, card_cons]
  rcases eq_or_ne s 0 with rfl | hs
  · simp
  · have hc : (s.card : K) ≠ 0 := by exact_mod_cast (card_pos.mpr hs).ne'
    push_cast
    field_simp
    ring

theorem dispersion_cons (q : K) (s : Multiset K) :
    dispersion s + (q - mean s) * (q - mean (q ::ₘ s)) = dispersion (q ::ₘ s) := by
  simp only [dispersion, mean, sum_cons, card_cons, map_cons]
  rcases eq_or_ne s 0 with rfl | hs
  · simp
  · have hc : (s.card : K) ≠ 0 := by exact_mod_cast (card_pos.mpr hs).ne'
    push_cast
    field_simp
    ring

variable (hs : s ≠ 0) (hs' : s' ≠ 0)
include hs hs'

theorem cards_ne_zero : (s.card : K) ≠ 0 ∧ (s'.card : K) ≠ 0 ∧ (s.card : K) + s'.card ≠ 0 := by
  have hc := card_pos.mpr hs
  have hsum := Nat.add_pos_left hc s'.card
  exact ⟨mod_cast hc.ne', mod_cast (card_pos.mpr hs').ne', mod_cast hsum.ne'⟩

theorem mean_add : mean s + (mean s' - mean s) * ((s'.card : K) / (s.card + s'.card)) = mean (s + s') := by
  obtain ⟨hc, hc', hsum⟩ := cards_ne_zero (K := K) hs hs'
  simp only [mean, sum_add, card_add, Nat.cast_add]
  field_simp
  ring

theorem dispersion_add : dispersion s + (dispersion s' + (mean s' - mean s) * (mean s' - mean s) *
    ((s.card : K) * s'.card / (s.card + s'.card))) = dispersion (s + s') := by
  obtain ⟨hc, hc', hsum⟩ := cards_ne_zero (K := K) hs hs'
  simp only [dispersion, mean, sum_add, card_add, map_add, Nat.cast_add]
  field_simp
  ring

end Dispersion

end Statistics
