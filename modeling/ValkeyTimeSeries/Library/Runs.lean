/-
Library/Runs.lean

Runs of neighbours with one key, and what joining them keeps.

`joinRuns` walks a list and joins an element to the last one it kept where the two belong together.  On a list
sorted by a key, with the elements of one key belonging together, it leaves one element for each key.
-/
import Mathlib

namespace Runs

open List

variable {α κ : Type}

/-- The list kept so far, with one more element. -/
def joinLast (together : α → α → Bool) (join : α → α → α) (out : List α) (x : α) : List α :=
  match out.getLast? with
  | some last => if together last x then out.dropLast ++ [join last x] else out ++ [x]
  | none => out ++ [x]

/-- A list in which neighbours that belong together have been joined. -/
def joinRuns (together : α → α → Bool) (join : α → α → α) (l : List α) : List α :=
  l.foldl (joinLast together join) []

variable {together : α → α → Bool} {join : α → α → α}

/-- A step joins the element to the last one or puts it behind. -/
theorem joinLast_cases (together : α → α → Bool) (join : α → α → α) (out : List α) (x : α) :
    (∃ front last, out = front ++ [last] ∧ together last x = true ∧ joinLast together join out x = front ++
    [join last x])
    ∨ joinLast together join out x = out ++ [x] ∧ ∀ last, out.getLast? = some last → together last x = false := by
  unfold joinLast
  cases hlast : out.getLast? with
  | none => exact .inr ⟨rfl, fun last h => by cases h⟩
  | some last =>
    obtain ⟨front, rfl⟩ := getLast?_eq_some_iff.mp hlast
    cases htog : together last x with
    | true =>
      refine .inl ⟨front, last, rfl, htog, ?_⟩
      dsimp only
      rw [if_pos htog, dropLast_concat]
    | false =>
      refine .inr ⟨if_neg (by rw [htog]; exact Bool.false_ne_true), fun last' h => ?_⟩
      rw [← Option.some.inj h, htog]

/-- What holds of all elements and is kept by joining holds of the joined ones. -/
theorem forall_joinRuns {p : α → Prop} (hjoin : ∀ a b, p a → p b → p (join a b)) {l : List α}
    (h : ∀ x ∈ l, p x) : ∀ x ∈ joinRuns together join l, p x := by
  have hrun : ∀ (l out : List α), (∀ x ∈ out, p x) → (∀ x ∈ l, p x) →
      ∀ x ∈ l.foldl (joinLast together join) out, p x := by
    intro l
    induction l with
    | nil => exact fun out hout _ => hout
    | cons y l ih =>
      intro out hout hl
      refine ih _ (fun x hx => ?_) fun x hx => hl x (mem_cons_of_mem _ hx)
      have hy := hl y mem_cons_self
      rcases joinLast_cases together join out y with
        ⟨front, last, rfl, -, heq⟩ | ⟨heq, -⟩
      · rw [heq] at hx
        rcases mem_append.mp hx with hx | hx
        · exact hout x (mem_append_left _ hx)
        · rw [mem_singleton.mp hx]
          exact hjoin last y (hout last (by simp)) hy
      · rw [heq] at hx
        rcases mem_append.mp hx with hx | hx
        · exact hout x hx
        · rw [mem_singleton.mp hx]
          exact hy
  exact hrun l [] (by simp) h

theorem mem_map_joinRuns (key : α → κ) (htog : ∀ a b, together a b = true → key a = key b)
    (hjoin : ∀ a b, together a b = true → key (join a b) = key a) {l : List α} {k : κ} :
    k ∈ (joinRuns together join l).map key ↔ k ∈ l.map key := by
  have hrun : ∀ l out : List α, k ∈ (l.foldl (joinLast together join) out).map key
      ↔ k ∈ out.map key ∨ k ∈ l.map key := by
    intro l
    induction l with
    | nil => exact fun out => ⟨.inl, fun h => h.resolve_right not_mem_nil⟩
    | cons y l ih =>
      intro out
      have hstep : k ∈ (joinLast together join out y).map key ↔ k ∈ out.map key ∨ k = key y := by
        rcases joinLast_cases together join out y with
          ⟨front, last, rfl, hlast, heq⟩ | ⟨heq, -⟩
        · rw [heq]
          simp only [map_append, map_cons, map_nil, mem_append, mem_singleton, hjoin last y hlast, ← htog last y hlast]
          tauto
        · rw [heq]
          simp only [map_append, map_cons, map_nil, mem_append, mem_singleton]
      rw [foldl_cons, ih, hstep, map_cons, mem_cons]
      tauto
  rw [joinRuns, hrun]
  exact ⟨fun h => h.resolve_left not_mem_nil, .inr⟩

end Runs
