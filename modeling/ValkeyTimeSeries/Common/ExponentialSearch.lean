/-
Common/ExponentialSearch.lean

`exponential_search_by` of `common/binary_search.rs`.

Design.  The source takes elements and the sub-slice without a check of the index.  Here such an
access has no result outside of the slice, so that a result rules it out.
-/
import ValkeyTimeSeries.Library.BinarySearch

namespace ValkeyTimeSeries

open List BinarySearch

variable {α : Type} {cmp : α → Ordering} {l : List α}

def doubleBound (cmp : α → Ordering) (l : List α) : Nat → Nat → Option Nat
  | 0, bound => some bound
  | fuel + 1, bound =>
    if bound < l.length then
      match l[bound]? with
      | none => none
      | some a => if cmp a = .gt then some bound else doubleBound cmp l fuel (bound * 2)
    else some bound

/-- `get_unchecked` with a range. -/
def getUnchecked (l : List α) (start stop : Nat) : Option (List α) :=
  if start ≤ stop ∧ stop ≤ l.length then some ((l.take stop).drop start) else none

def exponentialSearchBy (cmp : α → Ordering) (l : List α) : Option (Except Nat Nat) :=
  if l.isEmpty then some (.error 0)
  else do
    let bound ← doubleBound cmp l l.length 1
    let endBound := min l.length bound
    let prevBound := bound / 2
    let slice ← getUnchecked l prevBound endBound
    match binarySearchBy cmp slice with
    | .ok i => some (.ok (i + prevBound))
    | .error i => some (.error (i + prevBound))

/-- Sorted for the comparator: smaller elements stand before all others, greater ones after them. -/
def SortedFor (cmp : α → Ordering) (l : List α) : Prop :=
  l.Pairwise fun a b => (cmp b = .lt → cmp a = .lt) ∧ (cmp a = .gt → cmp b = .gt)

/-- What a search has to answer. -/
def Finds (cmp : α → Ordering) (l : List α) : Except Nat Nat → Prop
  | .ok i => ∃ a, l[i]? = some a ∧ cmp a = .eq
  | .error i => (∀ a ∈ l, cmp a ≠ .eq) ∧ i = l.countP (cmp · = .lt)

theorem SortedFor.cut (h : SortedFor cmp l) :
    ∃ l₁ l₂ l₃, l = l₁ ++ l₂ ++ l₃ ∧ (∀ a ∈ l₁, cmp a = .lt) ∧ (∀ a ∈ l₂, cmp a = .eq) ∧ ∀ a ∈ l₃, cmp a = .gt := by
  induction l with
  | nil => exact ⟨[], [], [], rfl, by simp, by simp, by simp⟩
  | cons a l ih =>
    obtain ⟨ha, hl⟩ := pairwise_cons.mp h
    obtain ⟨l₁, l₂, l₃, rfl, h₁, h₂, h₃⟩ := ih hl
    cases hcmp : cmp a with
    | lt => exact ⟨a :: l₁, l₂, l₃, rfl, forall_mem_cons.mpr ⟨hcmp, h₁⟩, h₂, h₃⟩
    | eq =>
      obtain rfl : l₁ = [] := eq_nil_iff_forall_not_mem.mpr fun b hb => by
        have := (ha b (by simp [hb])).1 (h₁ b hb)
        simp [hcmp] at this
      exact ⟨[], a :: l₂, l₃, rfl, h₁, forall_mem_cons.mpr ⟨hcmp, h₂⟩, h₃⟩
    | gt => exact ⟨[], [], _, rfl, by simp, by simp, forall_mem_cons.mpr ⟨hcmp, fun b hb => (ha b hb).2 hcmp⟩⟩

section Cut

variable {l₁ l₂ : List α} (h₁ : ∀ a ∈ l₁, cmp a ≠ .gt) (h₂ : ∀ a ∈ l₂, cmp a = .gt)
include h₁ h₂

/-- The loop stops past the elements that are not too large, with half of the bound still among them. -/
theorem doubleBound_append (fuel bound : Nat) (hpos : 0 < bound) (hfuel : (l₁ ++ l₂).length ≤ fuel + bound)
    (hprev : bound / 2 = 0 ∨ bound / 2 < l₁.length) :
    ∃ b, doubleBound cmp (l₁ ++ l₂) fuel bound = some b ∧ 0 < b ∧ (b / 2 = 0 ∨ b / 2 < l₁.length)
    ∧ l₁.length ≤ b := by
  rw [length_append] at hfuel
  induction fuel generalizing bound with
  | zero => exact ⟨bound, rfl, hpos, hprev, by omega⟩
  | succ fuel ih =>
    rw [doubleBound]
    split
    · rename_i hlt
      rw [getElem?_eq_getElem hlt]
      dsimp only
      by_cases hin : bound < l₁.length
      · rw [getElem_append_left hin, if_neg (h₁ _ (getElem_mem hin))]
        exact ih _ (by omega) (by omega) (.inr (by omega))
      · rw [getElem_append_right (by omega), if_pos (h₂ _ (getElem_mem _))]
        exact ⟨bound, rfl, hpos, hprev, by omega⟩
    · rename_i hge
      rw [length_append] at hge
      exact ⟨bound, rfl, hpos, hprev, by omega⟩

theorem exponentialSearchBy_append (hne : l₁ ++ l₂ ≠ []) :
    ∃ prev stop, (prev = 0 ∨ prev < l₁.length) ∧ exponentialSearchBy cmp (l₁ ++ l₂) =
      some (match binarySearchBy cmp (l₁.drop prev ++ l₂.take stop) with
        | .ok i => .ok (i + prev)
        | .error i => .error (i + prev)) := by
  obtain ⟨b, hbound, hpos, hprev, hend⟩ := doubleBound_append h₁ h₂ (l₁ ++ l₂).length 1 (by decide) (by omega)
    (.inl rfl)
  have hlen := length_pos_iff.mpr hne
  have hsum : (l₁ ++ l₂).length = l₁.length + l₂.length := length_append
  refine ⟨b / 2, min (l₁ ++ l₂).length b - l₁.length, hprev, ?_⟩
  unfold exponentialSearchBy
  rw [if_neg (by simpa using hne), hbound]
  dsimp only [bind, Option.bind]
  rw [getUnchecked, if_pos (by omega), take_append, take_of_length_le (by omega), drop_append_of_le_length (by omega)]
  dsimp only
  cases binarySearchBy cmp (l₁.drop (b / 2) ++ l₂.take (min (l₁ ++ l₂).length b - l₁.length)) <;> rfl

end Cut

/-- **Exponential search.**  Every element it takes is in the slice, and it finds what it looks for. -/
theorem exponentialSearchBy_finds (h : SortedFor cmp l) :
    ∃ result, exponentialSearchBy cmp l = some result ∧ Finds cmp l result := by
  obtain ⟨l₁, l₂, l₃, rfl, h₁, h₂, h₃⟩ := h.cut
  by_cases hnil : l₁ ++ l₂ ++ l₃ = []
  · rw [hnil]
    exact ⟨_, rfl, by simp, rfl⟩
  have hle : ∀ a ∈ l₁ ++ l₂, cmp a ≠ .gt := fun a ha => by
    rcases mem_append.mp ha with ha | ha
    · simp [h₁ a ha]
    · simp [h₂ a ha]
  obtain ⟨prev, stop, hprev, heq⟩ := exponentialSearchBy_append hle h₃ hnil
  have hgt : ∀ a ∈ l₃.take stop, cmp a = .gt := fun a ha => h₃ a (mem_of_mem_take ha)
  refine ⟨_, heq, ?_⟩
  rcases eq_nil_or_concat l₂ with rfl | ⟨l₂, b, rfl⟩
  · rw [append_nil, binarySearchBy_absent (fun a ha => h₁ a (mem_of_mem_drop ha)) hgt]
    rw [append_nil] at hprev
    refine ⟨fun a ha => ?_, ?_⟩
    · rcases mem_append.mp ha with ha | ha
      · simp [h₁ a ha]
      · simp [h₃ a ha]
    · rw [countP_append, countP_eq_length.mpr (by simpa using h₁), countP_eq_zero.mpr (by simp +contextual [h₃]),
        length_drop]
      omega
  · rw [concat_eq_append, ← append_assoc] at hle hprev ⊢
    rw [length_append, length_singleton] at hprev
    have hb := h₂ b (by simp)
    rw [drop_append_of_le_length (by omega), ← append_cons, ← append_cons,
      binarySearchBy_present (fun a ha => hle a (mem_append_left _ (mem_of_mem_drop ha))) hb hgt, length_drop]
    refine ⟨b, ?_, hb⟩
    rw [Nat.sub_add_cancel (by omega), getElem?_append_right le_rfl, Nat.sub_self, getElem?_cons_zero]

theorem exponentialSearchBy_finds_five :
    SortedFor (compare · 5) [2, 3, 5] ∧
      ∃ result, exponentialSearchBy (compare · 5) [2, 3, 5] = some result ∧ Finds (compare · 5) [2, 3, 5] result :=
  have hsorted : SortedFor (compare · 5) [2, 3, 5] := by
    unfold SortedFor
    decide
  ⟨hsorted, exponentialSearchBy_finds hsorted⟩

end ValkeyTimeSeries
