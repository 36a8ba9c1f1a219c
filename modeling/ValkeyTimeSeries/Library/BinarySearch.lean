/-
Library/BinarySearch.lean

Searches in a slice: `binary_search_by`, by bisection, and the linear scans
`position` and `rposition`.

The bisection halves a window `[base, base + size)` and keeps the half that holds
the last element not greater than the target.  On a slice that is cut into
elements below the target and elements above it, with at most one equal to it
between them, the answer is where the cut is.  `position` is `List.findIdx?`.
-/
import Mathlib

namespace BinarySearch

open List

variable {α : Type}

def above (cmp : α → Ordering) (l : List α) (i : Nat) : Bool :=
  l[i]?.any fun a => cmp a == .gt

/-- The loop: the window's base when the window is a single element. -/
def bisect (cmp : α → Ordering) (l : List α) : Nat → Nat → Nat → Nat
  | 0, base, _ => base
  | fuel + 1, base, size =>
    if size ≤ 1 then base
    else
      let half := size / 2
      let mid := base + half
      bisect cmp l fuel (if above cmp l mid then base else mid) (size - half)

/-- The index of an element equal to the target, or where it would go. -/
def binarySearchBy (cmp : α → Ordering) (l : List α) : Except Nat Nat :=
  let base := bisect cmp l l.length 0 l.length
  match l[base]?.map cmp with
  | none => .error 0
  | some .eq => .ok base
  | some .lt => .error (base + 1)
  | some .gt => .error base

/-- `partition_point`: the index of the first element the predicate does not hold of. -/
def partitionPoint (p : α → Bool) (l : List α) : Nat :=
  match binarySearchBy (fun a => if p a then .lt else .gt) l with
  | .ok i => i
  | .error i => i

variable {cmp : α → Ordering} {l : List α} {n : Nat}

/-- The loop ends at the last of the first `n` elements, those not above the
target, or at the first element if there is none. -/
theorem bisect_eq (hlow : ∀ i < n, above cmp l i = false)
    (hhigh : ∀ i, n ≤ i → i < l.length → above cmp l i = true) (fuel base size : Nat)
    (hfuel : size ≤ fuel + 1) (hsize : 1 ≤ size) (hlen : base + size ≤ l.length)
    (hbase : base = 0 ∨ base < n) (hn : n ≤ base + size) : bisect cmp l fuel base size = n - 1 := by
  induction fuel generalizing base size with
  | zero =>
    rw [bisect]
    omega
  | succ fuel ih =>
    rw [bisect]
    split
    · omega
    · dsimp only
      by_cases hmid : n ≤ base + size / 2
      · rw [hhigh _ hmid (by omega), if_pos rfl]
        exact ih base _ (by omega) (by omega) (by omega) hbase (by omega)
      · rw [hlow _ (by omega), if_neg Bool.false_ne_true]
        exact ih _ _ (by omega) (by omega) (by omega) (.inr (by omega)) (by omega)

section Cut

variable {l₁ l₂ : List α}

theorem above_append (h₁ : ∀ a ∈ l₁, cmp a ≠ .gt) (h₂ : ∀ a ∈ l₂, cmp a = .gt) :
    (∀ i < l₁.length, above cmp (l₁ ++ l₂) i = false)
    ∧ ∀ i, l₁.length ≤ i → i < (l₁ ++ l₂).length → above cmp (l₁ ++ l₂) i = true := by
  refine ⟨fun i hi => ?_, fun i hi hlen => ?_⟩
  · have hmem : l₁[i] ∈ l₁ := getElem_mem hi
    rw [above, getElem?_append_left hi, getElem?_eq_getElem hi]
    simpa using h₁ _ hmem
  · have hi' : i - l₁.length < l₂.length := by
      rw [length_append] at hlen
      omega
    have hmem : l₂[i - l₁.length] ∈ l₂ := getElem_mem hi'
    rw [above, getElem?_append_right hi, getElem?_eq_getElem hi']
    simpa using h₂ _ hmem

theorem bisect_append (h₁ : ∀ a ∈ l₁, cmp a ≠ .gt) (h₂ : ∀ a ∈ l₂, cmp a = .gt) (hne : l₁ ++ l₂ ≠ []) :
    bisect cmp (l₁ ++ l₂) (l₁ ++ l₂).length 0 (l₁ ++ l₂).length = l₁.length - 1 := by
  obtain ⟨hlow, hhigh⟩ := above_append h₁ h₂
  have hpos := length_pos_iff.mpr hne
  exact bisect_eq hlow hhigh _ _ _ (by omega) hpos (by omega) (.inl rfl)
    (by rw [length_append]; omega)

theorem binarySearchBy_absent (h₁ : ∀ a ∈ l₁, cmp a = .lt) (h₂ : ∀ a ∈ l₂, cmp a = .gt) :
    binarySearchBy cmp (l₁ ++ l₂) = .error l₁.length := by
  have hle : ∀ a ∈ l₁, cmp a ≠ .gt := fun a ha hgt => by
    rw [h₁ a ha] at hgt
    cases hgt
  unfold binarySearchBy
  rcases eq_nil_or_concat l₁ with rfl | ⟨l, last, rfl⟩
  · cases l₂ with
    | nil => rfl
    | cons b l₂ =>
      rw [bisect_append hle h₂ (by simp)]
      simp [h₂ b mem_cons_self]
  · rw [bisect_append hle h₂ (by simp)]
    simp [h₁ last (by simp)]

theorem binarySearchBy_present {b : α} (h₁ : ∀ a ∈ l₁, cmp a ≠ .gt) (hb : cmp b = .eq)
    (h₂ : ∀ a ∈ l₂, cmp a = .gt) : binarySearchBy cmp (l₁ ++ b :: l₂) = .ok l₁.length := by
  have hle : ∀ a ∈ l₁ ++ [b], cmp a ≠ .gt := fun a ha hgt => by
    rcases mem_append.mp ha with ha | ha
    · exact h₁ a ha hgt
    · rw [mem_singleton.mp ha, hb] at hgt
      cases hgt
  unfold binarySearchBy
  rw [append_cons, bisect_append hle h₂ (by simp)]
  simp [hb]

theorem partitionPoint_append {p : α → Bool} (h₁ : ∀ a ∈ l₁, p a = true)
    (h₂ : ∀ a ∈ l₂, p a = false) : partitionPoint p (l₁ ++ l₂) = l₁.length := by
  unfold partitionPoint
  rw [binarySearchBy_absent (fun a ha => if_pos (h₁ a ha))
    (fun a ha => if_neg (by rw [h₂ a ha]; exact Bool.false_ne_true))]

end Cut

/-! ### Scans -/

def rposition (p : α → Bool) (l : List α) : Option Nat :=
  (l.reverse.findIdx? p).map fun i => l.length - 1 - i

section Scan

variable {p : α → Bool} {l₁ l₂ : List α} {a : α}

theorem findIdx?_append_cons (h₁ : ∀ b ∈ l₁, p b = false) (ha : p a = true) :
    (l₁ ++ a :: l₂).findIdx? p = some l₁.length := by
  induction l₁ with
  | nil => rw [nil_append, findIdx?_cons, ha]; rfl
  | cons b l₁ ih =>
    rw [cons_append, findIdx?_cons, h₁ b mem_cons_self, ih fun d hd => h₁ d (mem_cons_of_mem _ hd)]
    rfl

theorem rposition_append_cons (ha : p a = true) (h₂ : ∀ b ∈ l₂, p b = false) :
    rposition p (l₁ ++ a :: l₂) = some l₁.length := by
  have hrev : (l₁ ++ a :: l₂).reverse = l₂.reverse ++ a :: l₁.reverse := by simp
  rw [rposition, hrev, findIdx?_append_cons (by simpa using h₂) ha, Option.map_some]
  congr 1
  rw [length_append, length_reverse, length_cons]
  omega

theorem rposition_eq_none (h : ∀ b ∈ l, p b = false) : rposition p l = none := by
  rw [rposition, findIdx?_eq_none_iff.mpr (by simpa using h)]
  rfl

end Scan

end BinarySearch
